import Lfsc.Lookahead.Terms
import Lfsc.ScannedTokens

/-!
# Parenthesis accounting

A run of `check` that returns consumed one term, but for the closing parentheses that it left open.
The tokens of a file fit their texts, so that this holds of every file.
-/

namespace Lfsc

namespace Lookahead

open Exec Traced Brackets

open Munch (Regex)

/-! ## The tokens of a file -/

theorem toNat_ofNat_byte (c : UInt8) : (Char.ofNat c.toNat).toNat = c.toNat := by
  have valid : c.toNat.isValidChar := .inl (Nat.lt_trans c.toNat_lt (by decide))
  rw [Char.ofNat, dif_pos valid]
  rfl

/-- A text of one character is one byte. -/
theorem eq_of_printed {text : List UInt8} {c : Char} (same : printed text = String.ofList [c]) :
    text = [byte c] := by
  obtain ⟨d, rest, rfl, rfl, none⟩ := List.map_eq_cons_iff.mp (String.ofList_injective same)
  obtain rfl := List.map_eq_nil_iff.mp none
  have code : (byte (Char.ofNat d.toNat)).toNat = d.toNat := by
    rw [byte, Char.toUInt8, UInt32.toNat_toUInt8]
    have := toNat_ofNat_byte d
    have := d.toNat_lt
    rw [Char.toNat] at *
    omega
  rw [UInt8.toNat_inj.mp code]

/-- Only the rules of the parentheses and the default rule match the text of a parenthesis. -/
theorem fits_of_rule {rule : Regex UInt8 × RuleAction} (mem : rule ∈ rules) {token : Token}
    (returns : rule.2 = .token token) {text : List UInt8} (matching : rule.1.Matches text) :
    Fits token (printed text) := by
  constructor
  · rintro (rfl | rfl)
    · obtain rfl : rule = (literal "(", .token .Open) := Scanner.rule_eq _ mem rfl returns
      obtain rfl := Regex.matches_word.mp matching
      exact .inl rfl
    · obtain rfl : rule = (literal ")", .token .Close) := Scanner.rule_eq _ mem rfl returns
      obtain rfl := Regex.matches_word.mp matching
      exact .inr rfl
  · have all : rules.all (fun rule => [byte '(', byte ')'].all fun c =>
        !(rule.1.deriv c).nullable ||
          decide (rule.2 ∈ [.token .Open, .token .Close, .echo])) = true := by
      decide +kernel
    intro paren
    obtain ⟨c, one, rfl⟩ : ∃ c ∈ [byte '(', byte ')'], text = [c] := by
      rcases paren with opens | closes
      · exact ⟨byte '(', by simp, eq_of_printed opens⟩
      · exact ⟨byte ')', by simp, eq_of_printed closes⟩
    have only := List.all_eq_true.mp (List.all_eq_true.mp all rule mem) c one
    have null : (rule.1.deriv c).nullable = true :=
      Regex.nullable_iff.mpr (Regex.matches_deriv.mpr matching)
    simpa [null, returns, IsParen] using only

theorem fits_scan (s : Scanner) : Fits s.scan.1 (printed s.scan.2.yytext) := by
  induction s using Scanner.scan.induct with
  | case1 s token after step =>
      rw [Scanner.scan_of_token step]
      rcases s.matchOnce_cases with ⟨-, stops⟩ | ⟨yytext, rest, action, split, -, chosen, performed⟩
      · cases step.symm.trans stops
        exact fits_eof
      · rw [step] at performed
        obtain ⟨before, r, later, rulesSplit, matching, -⟩ := chosen.earliest
        cases action with
        | token returned =>
            obtain ⟨same, rfl⟩ := Prod.mk.inj performed
            obtain rfl := Option.some.inj same
            have mem : (r, RuleAction.token token) ∈ rules := by simp [rulesSplit]
            rw [split, List.take_left] at matching
            exact fits_of_rule mem rfl matching
        | _ => cases performed
  | case2 s after step hyp =>
      rw [Scanner.scan_of_skip step]
      exact hyp

/-- The tokens of a file fit their texts. -/
theorem fits_lexemes (text : List UInt8) :
    ∀ lexeme ∈ lexemes text, Fits lexeme.token lexeme.text := by
  induction text using lexemes.induct with
  | case1 text scanned ended =>
      rw [lexemes, dif_pos ended]
      simp
  | case2 text scanned proper hyp =>
      rw [lexemes, dif_neg proper]
      exact List.forall_mem_cons.mpr ⟨fits_scan _, hyp⟩

/-- Wherever `check` is entered on a file, the tokens that are left fit their texts. -/
theorem stood_of_file {text : List UInt8} {checker : Checker} {place : Place}
    (placed : place.Of checker) (input : checker.input <:+ lexemes text)
    (bound : BindsNoParen checker) : Stood place checker.openParens checker :=
  ⟨placed, fun lexeme mem => fits_lexemes text lexeme (input.subset mem), rfl, bound⟩

/-! ## The terms that are consumed -/

/-- `check` followed by `eat_excess`. -/
def checkWhole (fuel : Nat) (args : CheckArgs) (prev : Int) : CallsM Checked := do
  let result ← check fuel args
  eatExcess prev
  return result

theorem does_checkWhole (fuel : Nat) (args : CheckArgs) (tokens : List Token) (count : Int) :
    Does (At .ahead tokens count) (checkWhole fuel args count)
      fun _ => Surplus true tokens count := by
  apply establishes_bind (does_check_term fuel args tokens count)
  intro result
  apply establishes_bind does_eatExcess_term
  intro _
  exact does_return fun _ _ surplus => surplus

theorem erase_checkWhole (fuel : Nat) (args : CheckArgs) (prev : Int) :
    (checkWhole fuel args prev).erase =
      (do
        let result ← Lfsc.check fuel args
        Lfsc.eatExcess prev
        return result) := by
  have follows : Follows (between .ahead) (checkWhole fuel args prev)
      (do
        let result ← Lfsc.check fuel args
        Lfsc.eatExcess prev
        return result) fun _ => between .free := by
    apply records_bind (follows_check fuel args)
    intro result
    apply records_bind (follows_eatExcess prev (Nat.zero_le _))
    intro _
    exact follows_return result (Nat.zero_le _)
  exact follows.same

/-- Some tokens were taken from those that were to come, after which there is the end of the file. -/
def Took (before after : Checker) (taken : List Token) : Prop :=
  ∃ ended : Nat, toCome before ++ List.replicate ended .Eof = taken ++ toCome after

/-- A run that returns and reads no parenthesis as a name consumed one term, but for so many
parentheses. -/
theorem surplus_of_run {m : CallsM Checked} {create : Bool} {count : Int} {before after : Checker}
    {result : Checked}
    (does : Does (At .ahead [] count) m fun _ => Surplus create [] count)
    (entered : Stood .ahead count before) (names : ∀ call ∈ m.events before, ¬ call.NamesParen)
    (run : m.erase.run before = .ok (result, after)) :
    ∃ missing : Nat, after.openParens = count + missing ∧ (create = true → missing = 0) ∧
      OneExpr .Open .Close (closed .Close (consumed (m.events before)) missing) ∧
      Took before after (consumed (m.events before)) := by
  have start : At .ahead [] count ⟨toCome before, []⟩ before :=
    ⟨rfl, ⟨by simp, 0, by simp⟩, entered⟩
  obtain ⟨word, missing, expr, none, taken, tallied, stood⟩ :=
    does.along _ before start _ (foldlM_record names _) result after run
  obtain ⟨ended, stream⟩ := tallied.stream
  have same : consumed (m.events before) = word := taken
  exact ⟨missing, stood.opened, none, same ▸ expr, ended, stream⟩

/-- Parenthesis accounting: where `check` is entered with so many open parentheses and returns, the
tokens that it consumed and as many closing parentheses as it left open are one term, and it leaves
none open where a term is created; and `check` followed by `eat_excess` consumes one term.  No symbol
may be a parenthesis, nor a name that `prefix_id` reads. -/
theorem check_consumes_term (fuel : Nat) (args : CheckArgs) {count : Int} {before : Checker}
    (entered : Stood .ahead count before) :
    (∀ result after, (Lfsc.check fuel args).run before = .ok (result, after) →
      (∀ call ∈ (check fuel args).events before, ¬ call.NamesParen) →
      ∃ missing : Nat, after.openParens = count + missing ∧ (args.create = true → missing = 0) ∧
        OneExpr .Open .Close
          (closed .Close (consumed ((check fuel args).events before)) missing) ∧
        Took before after (consumed ((check fuel args).events before))) ∧
    ∀ result after,
      (do
        let result ← Lfsc.check fuel args
        Lfsc.eatExcess count
        return result).run before = .ok (result, after) →
      (∀ call ∈ (checkWhole fuel args count).events before, ¬ call.NamesParen) →
      after.openParens = count ∧
        OneExpr .Open .Close (consumed ((checkWhole fuel args count).events before)) ∧
        Took before after (consumed ((checkWhole fuel args count).events before)) := by
  constructor
  · intro result after run names
    rw [← (follows_check fuel args).same] at run
    exact surplus_of_run (does_check_term fuel args [] count) entered names run
  · intro result after run names
    rw [← erase_checkWhole] at run
    obtain ⟨missing, opened, none, expr, took⟩ :=
      surplus_of_run (does_checkWhole fuel args [] count) entered names run
    obtain rfl := none rfl
    exact ⟨by simpa using opened, by simpa [closed] using expr, took⟩

/-- The body of a local definition is a tail call, so that its parenthesis is left to be eaten. -/
theorem check_consumes_term_tail :
    let start : Checker :=
      { initChecker (fun _ _ => false) (fun _ => false) with
        input := [⟨.Open, "("⟩, ⟨.At, "@"⟩, ⟨.Ident, "x"⟩, ⟨.Natural, "5"⟩, ⟨.Ident, "x"⟩,
          ⟨.Close, ")"⟩]
        tailCalls := true
        bigCheck := true }
    let args : CheckArgs := { create := false, computed := true, returnPos := true }
    consumed ((check 3 args).events start) = [.Open, .At, .Ident, .Natural, .Ident] ∧
      (∃ result after, (Lfsc.check 3 args).run start = .ok (result, after) ∧
        ∃ missing : Nat, after.openParens = 0 + missing ∧ (args.create = true → missing = 0) ∧
          OneExpr .Open .Close (closed .Close (consumed ((check 3 args).events start)) missing) ∧
          Took start after (consumed ((check 3 args).events start))) ∧
      OneExpr .Open .Close (consumed ((checkWhole 3 args 0).events start)) := by
  intro start args
  have bound : BindsNoParen start := by
    constructor
    · rintro name (rfl | rfl) <;> rfl
    · rintro name (rfl | rfl) prog <;> nofun
  have entered : Stood .ahead 0 start :=
    ⟨.inl (.inl rfl), by decide, rfl, bound⟩
  obtain ⟨each, whole⟩ := check_consumes_term 3 args entered
  refine ⟨by decide +kernel, ?_, ?_⟩
  · have ok : ((Lfsc.check 3 args).run start).isOk = true := by decide +kernel
    obtain ⟨result, after, run⟩ := exists_of_isOk ok
    exact ⟨result, after, run, each result after run (by decide +kernel)⟩
  · have ok : ((do
        let result ← Lfsc.check 3 args
        Lfsc.eatExcess 0
        return result : CheckerM Checked).run start).isOk = true := by decide +kernel
    obtain ⟨result, after, run⟩ := exists_of_isOk ok
    exact (whole result after run (by decide +kernel)).2.1

end Lookahead

end Lfsc
