import Lfsc.Brackets
import Lfsc.Lookahead.Parentheses

/-!
# The tokens that are consumed

A token is consumed if it is returned and not put back.  While a term or a piece of code is read, the
tokens consumed since its start are kept along with the number of open parentheses: they are an
opening parenthesis with expressions after it, or a term that lacks closing parentheses.
-/

namespace Lfsc

namespace Lookahead

open Exec Traced Brackets

/-- Enter a call among the tokens consumed so far, the latest last. -/
def intake (taken : List Token) : Call → List Token
  | .scanned token _ | .popped token => taken ++ [token]
  | .reinserted _ _ => taken.dropLast
  | .read _ | .named _ _ => taken

/-- The tokens that some calls consume. -/
def consumed (calls : List Call) : List Token := calls.foldl intake []

/-- A call of `prefix_id` that reads a parenthesis as a name. -/
def Call.NamesParen : Call → Prop
  | .named token _ => IsParen token
  | _ => False

instance : DecidablePred Call.NamesParen
  | .named token _ => inferInstanceAs (Decidable (IsParen token))
  | .scanned _ _ | .popped _ | .reinserted _ _ | .read _ => .isFalse id

/-- The tokens that `next_token` returns, but for those of an endless end of the file. -/
def toCome (checker : Checker) : List Token :=
  checker.peeked.map desugar ++ checker.input.map fun lexeme => desugar lexeme.token

/-- The tokens to come at the start, and those consumed since. -/
structure Tally where
  /-- The tokens that were to come. -/
  stream : List Token
  /-- The tokens consumed since. -/
  taken : List Token

/-- Enter a call, unless it reads a parenthesis as a name. -/
def Tally.record (tally : Tally) (call : Call) : Option Tally :=
  if call.NamesParen then none else some { tally with taken := intake tally.taken call }

theorem foldlM_record {calls : List Call} (names : ∀ call ∈ calls, ¬ call.NamesParen)
    (tally : Tally) :
    calls.foldlM Tally.record tally =
      some { tally with taken := calls.foldl intake tally.taken } := by
  induction calls generalizing tally with
  | nil => rfl
  | cons call rest hyp =>
      have first : tally.record call = some { tally with taken := intake tally.taken call } :=
        if_neg (names call List.mem_cons_self)
      rw [List.foldlM_cons, first, List.foldl_cons]
      exact hyp (fun other mem => names other (List.mem_cons_of_mem call mem)) _

theorem Tally.recorded {tally after : Tally} {call : Call}
    (recorded : tally.record call = some after) :
    ¬ call.NamesParen ∧ after = { tally with taken := intake tally.taken call } := by
  by_cases names : call.NamesParen
  · cases (if_pos names).symm.trans recorded
  · exact ⟨names, (Option.some.inj ((if_neg names).symm.trans recorded)).symm⟩

/-- What was taken and what is to come are what was to come, and the end of the file. -/
structure Tallied (tally : Tally) (checker : Checker) : Prop where
  desugared : ∀ token ∈ tally.taken, desugar token = token
  stream : ∃ ended : Nat,
    tally.stream ++ List.replicate ended .Eof = tally.taken ++ toCome checker

theorem Tallied.same {tally : Tally} {before after : Checker} (tallied : Tallied tally before)
    (same : SameScanner before after) : Tallied tally after := by
  obtain ⟨ended, stream⟩ := tallied.stream
  refine ⟨tallied.desugared, ended, ?_⟩
  rw [stream, toCome, toCome, same.input, same.peeked]

/-- A token was returned, which was the next one or stands for the end of the file. -/
theorem Tallied.returned {tally : Tally} {before after : Checker} {token : Token}
    (tallied : Tallied tally before)
    (next : toCome before = desugar token :: toCome after ∨
      token = .Eof ∧ toCome before = [] ∧ toCome after = []) :
    Tallied { tally with taken := tally.taken ++ [desugar token] } after := by
  obtain ⟨ended, stream⟩ := tallied.stream
  refine ⟨?_, ?_⟩
  · intro other mem
    rcases List.mem_append.mp mem with old | new
    · exact tallied.desugared other old
    · obtain rfl := List.mem_singleton.mp new
      exact desugar_desugar token
  · rcases next with next | ⟨rfl, none, still⟩
    · exact ⟨ended, by simp [stream, next]⟩
    · refine ⟨ended + 1, ?_⟩
      rw [List.replicate_succ', ← List.append_assoc, stream, none, still, List.append_nil,
        List.append_nil]
      rfl

/-- The token returned last was put back. -/
theorem Tallied.reinserted {tally : Tally} {before after : Checker} {tokens : List Token}
    {token : Token} (tallied : Tallied tally before) (taken : tally.taken = tokens ++ [token])
    (input : after.input = before.input) (peeked : after.peeked = token :: before.peeked) :
    Tallied { tally with taken := tokens } after := by
  obtain ⟨ended, stream⟩ := tallied.stream
  have desugared := tallied.desugared
  rw [taken] at desugared stream
  refine ⟨fun other mem => desugared other (by simp [mem]), ended, ?_⟩
  have plain := desugared token (by simp)
  simp [stream, toCome, input, peeked, plain]

/-! ## Assertions -/

/-- What is known of the slots: an opening parenthesis may wait before another token, one token may
wait, none waits, or none waits and the text belongs to a token. -/
inductive Place
  | ahead
  | single
  | free
  | past (token : Token)
  deriving DecidableEq

/-- No token waits, or one to which the text belongs. -/
def AtMostOne (text : String) (waiting : List Token) : Prop :=
  waiting = [] ∨ ∃ token, waiting = [token] ∧ Fits token text

/-- The states in which the slots are as described. -/
def Place.Of (checker : Checker) : Place → Prop
  | .past token => checker.peeked = [] ∧ Fits token checker.text
  | .free => checker.peeked = []
  | .single => AtMostOne checker.text checker.peeked
  | .ahead => AtMostOne checker.text checker.peeked ∨
      ∃ rest, checker.peeked = .Open :: rest ∧ AtMostOne checker.text rest

/-- The slots, the tokens to come, the number of open parentheses and the tables. -/
structure Stood (place : Place) (count : Int) (checker : Checker) : Prop where
  place : place.Of checker
  written : ∀ lexeme ∈ checker.input, Fits lexeme.token lexeme.text
  opened : checker.openParens = count
  bound : BindsNoParen checker

/-- These tokens were consumed. -/
structure At (place : Place) (tokens : List Token) (count : Int) (tally : Tally)
    (checker : Checker) : Prop where
  taken : tally.taken = tokens
  tallied : Tallied tally checker
  stood : Stood place count checker

/-- These tokens were consumed, and expressions after them. -/
def Inside (place : Place) (tokens : List Token) (count : Int) (tally : Tally)
    (checker : Checker) : Prop :=
  ∃ word, Exprs .Open .Close word ∧ At place (tokens ++ word) count tally checker

/-- These tokens were consumed, expressions after them, and last a token. -/
def Past (token : Token) (tokens : List Token) (count : Int) (tally : Tally)
    (checker : Checker) : Prop :=
  ∃ word, Exprs .Open .Close word ∧ At (.past token) (tokens ++ word ++ [token]) count tally checker

/-- These tokens were consumed, and a term after them that lacks as many closing parentheses as are
counted; none if a term is created. -/
def Surplus (create : Bool) (tokens : List Token) (count : Int) (tally : Tally)
    (checker : Checker) : Prop :=
  ∃ word, ∃ missing : Nat, OneExpr .Open .Close (closed .Close word missing) ∧
    (create = true → missing = 0) ∧ At .free (tokens ++ word) (count + missing) tally checker

/-- These tokens were consumed, expressions after them, and a term that lacks as many closing
parentheses as are counted. -/
def Deferred (create : Bool) (tokens : List Token) (count : Int) (tally : Tally)
    (checker : Checker) : Prop :=
  ∃ word, ∃ missing : Nat, Exprs .Open .Close (closed .Close word missing) ∧
    (create = true → missing = 0) ∧ At .free (tokens ++ word) (count + missing) tally checker

/-- A computation leads from one assertion to another one, unless it reads a parenthesis as a name. -/
abbrev Does {α : Type} (pre : Tally → Checker → Prop) (m : CallsM α)
    (post : α → Tally → Checker → Prop) : Prop := Establishes Tally.record pre m post

/-! ## Stability -/

/-- An assertion that does not depend on what steady computations change. -/
class Stable (holds : Tally → Checker → Prop) : Prop where
  steady {tally : Tally} {before after : Checker} : holds tally before → Steady before after →
    holds tally after

theorem Place.Of.same {place : Place} {before after : Checker} (place_of : place.Of before)
    (same : SameScanner before after) : place.Of after := by
  cases place <;> simpa [Place.Of, same.peeked, same.text] using place_of

theorem Stood.steady {place : Place} {count : Int} {before after : Checker}
    (stood : Stood place count before) (steady : Steady before after) : Stood place count after where
  place := stood.place.same steady.scanner
  written := steady.scanner.input ▸ stood.written
  opened := steady.openParens.trans stood.opened
  bound := steady.bound stood.bound

section Assertions

variable {place : Place} {tokens : List Token} {count : Int} {create : Bool} {token : Token}

instance : Stable (At place tokens count) where
  steady stood steady :=
    ⟨stood.taken, stood.tallied.same steady.scanner, stood.stood.steady steady⟩

instance : Stable (Inside place tokens count) where
  steady := by
    rintro tally before after ⟨word, exprs, stood⟩ steady
    exact ⟨word, exprs, Stable.steady stood steady⟩

instance : Stable (Past token tokens count) where
  steady := by
    rintro tally before after ⟨word, exprs, stood⟩ steady
    exact ⟨word, exprs, Stable.steady stood steady⟩

instance : Stable (Surplus create tokens count) where
  steady := by
    rintro tally before after ⟨word, missing, expr, none, stood⟩ steady
    exact ⟨word, missing, expr, none, Stable.steady stood steady⟩

instance : Stable (Deferred create tokens count) where
  steady := by
    rintro tally before after ⟨word, missing, exprs, none, stood⟩ steady
    exact ⟨word, missing, exprs, none, Stable.steady stood steady⟩

end Assertions

/-! ## Weakening -/

section Weakening

variable {place wider : Place} {tokens : List Token} {tally : Tally} {count : Int} {create : Bool}
  {token : Token} {checker : Checker}

/-- Less is known of the slots. -/
theorem Stood.weaken (stood : Stood place count checker)
    (le : place.Of checker → wider.Of checker) : Stood wider count checker :=
  ⟨le stood.place, stood.written, stood.opened, stood.bound⟩

theorem Place.Of.ahead (of : place.Of checker) : Place.ahead.Of checker := by
  cases place with
  | ahead => exact of
  | single => exact .inl of
  | free => exact .inl (.inl of)
  | past token => exact .inl (.inl of.1)

theorem Place.Of.single (short : place ≠ .ahead) (of : place.Of checker) :
    Place.single.Of checker := by
  cases place with
  | ahead => exact (short rfl).elim
  | single => exact of
  | free => exact .inl of
  | past token => exact .inl of.1

theorem At.weaken (stood : At place tokens count tally checker)
    (le : place.Of checker → wider.Of checker) : At wider tokens count tally checker :=
  ⟨stood.taken, stood.tallied, stood.stood.weaken le⟩

theorem At.ahead (stood : At place tokens count tally checker) :
    At .ahead tokens count tally checker := stood.weaken Place.Of.ahead

theorem At.free (stood : At (.past token) tokens count tally checker) :
    At .free tokens count tally checker := stood.weaken And.left

theorem At.inside (stood : At place tokens count tally checker) :
    Inside place tokens count tally checker :=
  ⟨[], exprs_nil, by rwa [List.append_nil]⟩

theorem At.past (stood : At (.past token) (tokens ++ [token]) count tally checker) :
    Past token tokens count tally checker := ⟨[], exprs_nil, by rwa [List.append_nil]⟩

/-- A token that is no parenthesis is an expression. -/
theorem oneExpr_token (clear : ¬ IsParen token) : OneExpr .Open .Close [token] :=
  .letter (fun same => clear (.inl same)) (fun same => clear (.inr same))

theorem Past.inside (past : Past token tokens count tally checker) (clear : ¬ IsParen token) :
    Inside (.past token) tokens count tally checker := by
  obtain ⟨word, exprs, stood⟩ := past
  exact ⟨word ++ [token], exprs.append (oneExpr_token clear).exprs, by rwa [← List.append_assoc]⟩

theorem Inside.free (inside : Inside (.past token) tokens count tally checker) :
    Inside .free tokens count tally checker := by
  obtain ⟨word, exprs, stood⟩ := inside
  exact ⟨word, exprs, stood.free⟩

theorem Surplus.of_closed {word : List Token} (expr : OneExpr .Open .Close word)
    (stood : At .free (tokens ++ word) count tally checker) :
    Surplus create tokens count tally checker := by
  refine ⟨word, 0, ?_, fun _ => rfl, ?_⟩
  · simpa [Brackets.closed] using expr
  · simpa using stood

/-- Such a token is a term. -/
theorem At.surplus (stood : At (.past token) (tokens ++ [token]) count tally checker)
    (clear : ¬ IsParen token) : Surplus create tokens count tally checker :=
  .of_closed (oneExpr_token clear) stood.free

/-- A closing parenthesis closes what was opened. -/
theorem Past.close (past : Past .Close (tokens ++ [.Open]) count tally checker) :
    ∃ word, OneExpr .Open .Close word ∧ At .free (tokens ++ word) count tally checker := by
  obtain ⟨word, exprs, stood⟩ := past
  refine ⟨.Open :: (word ++ [.Close]), exprs.group, ?_⟩
  have same : tokens ++ [.Open] ++ word ++ [.Close] = tokens ++ .Open :: (word ++ [.Close]) := by simp
  rw [← same]
  exact stood.free

theorem Past.closed (past : Past .Close (tokens ++ [.Open]) count tally checker) :
    Inside .free tokens count tally checker := by
  obtain ⟨word, expr, stood⟩ := past.close
  exact ⟨word, expr.exprs, stood⟩

/-- Expressions after expressions. -/
theorem Inside.within {word : List Token} (exprs : Exprs .Open .Close word)
    (inside : Inside place (tokens ++ word) count tally checker) :
    Inside place tokens count tally checker := by
  obtain ⟨more, others, stood⟩ := inside
  exact ⟨word ++ more, exprs.append others, by rwa [← List.append_assoc]⟩

/-- A term after expressions. -/
theorem Surplus.within {word : List Token} (exprs : Exprs .Open .Close word)
    (surplus : Surplus create (tokens ++ word) count tally checker) :
    Deferred create tokens count tally checker := by
  obtain ⟨term, missing, expr, none, stood⟩ := surplus
  refine ⟨word ++ term, missing, ?_, none, by rwa [← List.append_assoc]⟩
  rw [closed_append]
  exact exprs.append expr.exprs

/-- Expressions lack nothing. -/
theorem Inside.deferred (inside : Inside .free tokens count tally checker) :
    Deferred create tokens count tally checker := by
  obtain ⟨word, exprs, stood⟩ := inside
  refine ⟨word, 0, ?_, fun _ => rfl, ?_⟩
  · simpa [Brackets.closed] using exprs
  · simpa using stood

/-- Where a term is created nothing is missing. -/
theorem Deferred.inside (deferred : Deferred true tokens count tally checker) :
    Inside .free tokens count tally checker := by
  obtain ⟨word, missing, exprs, none, stood⟩ := deferred
  obtain rfl := none rfl
  refine ⟨word, ?_, ?_⟩
  · simpa [Brackets.closed] using exprs
  · simpa using stood

/-- Where a term ends with one that lacks parentheses, it lacks its own one, too. -/
theorem Deferred.surplus (deferred : Deferred false (tokens ++ [.Open]) (count + 1) tally checker) :
    Surplus false tokens count tally checker := by
  obtain ⟨word, missing, exprs, -, stood⟩ := deferred
  refine ⟨.Open :: word, missing + 1, ?_, by simp, ?_⟩
  · rw [closed_succ]
    exact exprs.group
  · have same : count + 1 + missing = count + ↑(missing + 1) := by omega
    simpa [same] using stood

end Weakening

/-! ## The calls -/

section Does

variable {α : Type} {place : Place} {tokens : List Token} {count : Int} {create : Bool}
  {token : Token}
  {holds : Tally → Checker → Prop}

theorem does_steady {m : CheckerM α} [Stable holds] (kept : Keeps Steady m) :
    Does holds (silent m) fun _ => holds :=
  establishes_silent fun _ _ _ _ start run => Stable.steady start (kept _ _ _ run)

theorem does_stop {post : α → Tally → Checker → Prop} (why : Stop) :
    Does holds (silent (Exec.stop why)) post :=
  establishes_silent fun _ _ _ _ _ run => (run_stop_ok.mp run).elim

theorem does_report {post : α → Tally → Checker → Prop} (message : String) :
    Does holds (report message) post := does_stop _

theorem does_report_bind {β : Type} {post : α → Tally → Checker → Prop} {k : β → CallsM α}
    (message : String) : Does holds (report message >>= k) post := by
  have never : Does holds (report message : CallsM β) fun _ _ _ => False := does_report message
  apply establishes_bind never
  intro _
  constructor
  intro tally checker start
  exact start.elim

theorem does_return {post : α → Tally → Checker → Prop} {value : α}
    (holds_post : ∀ tally checker, holds tally checker → post value tally checker) :
    Does holds (pure value) post := establishes_pure holds_post

theorem does_pure (value : α) : Does holds (pure value) fun _ => holds :=
  does_return fun _ _ start => start

theorem does_value (value : α) :
    Does holds (pure value) fun result tally checker => result = value ∧ holds tally checker :=
  does_return fun _ _ start => ⟨rfl, start⟩

theorem does_map {β : Type} {m : CallsM β} {f : β → α} (does : Does holds m fun _ => holds) :
    Does holds (f <$> m) fun _ => holds :=
  establishes_bind does fun _ => does_return fun _ _ start => start

theorem does_outOfFuel {post : α → Tally → Checker → Prop} : Does holds outOfFuel post :=
  does_stop _

theorem does_deref [Stable holds] (pointer : Option α) : Does holds (deref pointer) fun _ => holds :=
  does_steady (by simp)

theorem does_store [Stable holds] (m : StoreM α) : Does holds (liftM m : CallsM α) fun _ => holds :=
  does_steady (by simp)

theorem fits_eof : Fits .Eof "" := by simp [Fits, IsParen, IsParenText]

theorem Fits.desugared {text : String} (fits : Fits token text) : Fits (desugar token) text :=
  (isParen_desugar token).trans fits

/-- Scanning a token. -/
theorem Stood.scanned {before : Checker} {lexeme : Lexeme} {rest : List Lexeme}
    (stood : Stood place count before) (free : before.peeked = [])
    (more : before.input = lexeme :: rest) :
    Stood (.past (desugar lexeme.token)) count
      { before with input := rest, text := lexeme.text } where
  place := ⟨free, (stood.written lexeme (by simp [more])).desugared⟩
  written other mem := stood.written other (by simp [more, mem])
  opened := stood.opened
  bound := ⟨stood.bound.symbols, stood.bound.progs⟩

theorem Stood.ended {before : Checker} (stood : Stood place count before)
    (free : before.peeked = []) :
    Stood (.past .Eof) count { before with text := "" } where
  place := ⟨free, fits_eof⟩
  written := stood.written
  opened := stood.opened
  bound := ⟨stood.bound.symbols, stood.bound.progs⟩

/-- Returning a token that waits. -/
theorem Stood.popped {next : Place} {before : Checker} {rest : List Token}
    (stood : Stood place count before) (place_of : next.Of { before with peeked := rest }) :
    Stood next count { before with peeked := rest } where
  place := place_of
  written := stood.written
  opened := stood.opened
  bound := ⟨stood.bound.symbols, stood.bound.progs⟩

/-- The place after a token was returned. -/
def Place.next : Place → Token → Place
  | .ahead, .Open => .single
  | _, token => .past token

theorem Place.next_of_short (short : place ≠ .ahead) (token : Token) :
    place.next token = .past token := by
  cases place with
  | ahead => exact (short rfl).elim
  | _ => rfl

theorem Place.Of.next {checker : Checker} (of : (Place.past token).Of checker) (place : Place) :
    (place.next token).Of checker := by
  cases place with
  | ahead =>
      cases token with
      | Open => exact .inl of.1
      | _ => exact of
  | _ => exact of

theorem Place.Of.popped {before : Checker} {waits : Token} {rest : List Token}
    (of : place.Of before) (slots : before.peeked = waits :: rest) :
    (place.next (desugar waits)).Of { before with peeked := rest } := by
  have one : AtMostOne before.text before.peeked →
      (place.next (desugar waits)).Of { before with peeked := rest } := by
    rintro (none | ⟨token, single, fits⟩)
    · cases slots.symm.trans none
    · obtain ⟨rfl, rfl⟩ := List.cons.inj (slots.symm.trans single)
      have past : (Place.past (desugar waits)).Of { before with peeked := [] } :=
        ⟨rfl, fits.desugared⟩
      exact past.next place
  cases place with
  | ahead =>
      rcases of with short | ⟨others, two, short⟩
      · exact one short
      · obtain ⟨rfl, rfl⟩ := List.cons.inj (slots.symm.trans two)
        exact short
  | single => exact one of
  | free => cases slots.symm.trans of
  | past token => cases slots.symm.trans of.1

theorem does_nextToken :
    Does (At place tokens count) nextToken fun token =>
      At (place.next token) (tokens ++ [token]) count := by
  apply establishes_emitting
  rintro tally before after token next ⟨rfl, tallied, stood⟩ recorded run
  cases slots : before.peeked with
  | nil =>
      cases input : before.input with
      | nil =>
          rw [run_nextToken_eof slots input] at run
          simp only [slots, input] at recorded
          obtain ⟨-, rfl⟩ := Tally.recorded recorded
          cases run
          have ended : ∀ text, toCome { before with text } = [] := by simp [toCome, slots, input]
          exact ⟨rfl, tallied.returned (.inr ⟨rfl, ended before.text, ended ""⟩),
            (stood.ended slots).weaken fun of => of.next place⟩
      | cons lexeme rest =>
          rw [run_nextToken_scanned slots input] at run
          simp only [slots, input] at recorded
          obtain ⟨-, rfl⟩ := Tally.recorded recorded
          cases run
          exact ⟨rfl, tallied.returned (.inl (by simp [toCome, slots, input])),
            (stood.scanned slots input).weaken fun of => of.next place⟩
  | cons waits rest =>
      rw [run_nextToken_popped slots] at run
      simp only [slots] at recorded
      obtain ⟨-, rfl⟩ := Tally.recorded recorded
      cases run
      exact ⟨rfl, tallied.returned (.inl (by simp [toCome, slots])),
        stood.popped (stood.place.popped slots)⟩

/-- A token after expressions, where at most one token waits. -/
theorem does_next (short : place ≠ .ahead) :
    Does (Inside place tokens count) nextToken fun token => Past token tokens count := by
  apply establishes_exists
  intro word
  apply establishes_fact
  intro exprs
  apply does_nextToken.mono
  intro token tally checker stood
  rw [Place.next_of_short short] at stood
  exact ⟨word, exprs, stood⟩

theorem does_reinsertToken {next : Place}
    (room : ∀ checker : Checker, place.Of checker → checker.peeked.length < 2 ∧
      next.Of { checker with peeked := token :: checker.peeked }) :
    Does (At place (tokens ++ [token]) count) (reinsertToken token)
      fun _ => At next tokens count := by
  apply establishes_emitting
  rintro tally before after value last ⟨taken, tallied, stood⟩ recorded run
  obtain ⟨free, of⟩ := room before stood.place
  obtain rfl := run_modify_ok.mp run
  have dropped : intake tally.taken (.reinserted token before.peeked.length) = tokens := by
    rw [taken]
    exact List.dropLast_concat
  obtain ⟨-, rfl⟩ := Tally.recorded recorded
  rw [if_pos free, dropped]
  exact ⟨rfl, tallied.reinserted taken rfl rfl, of, stood.written, stood.opened,
    stood.bound.symbols, stood.bound.progs⟩

/-- The token returned last is put back. -/
theorem does_reinsert_at :
    Does (At (.past token) (tokens ++ [token]) count) (reinsertToken token)
      fun _ => At .single tokens count := by
  apply does_reinsertToken
  rintro checker ⟨none, fits⟩
  exact ⟨by simp [none], .inr ⟨token, by simp [none], fits⟩⟩

/-- The opening parenthesis before it is put back, too. -/
theorem does_reinsert_open :
    Does (At .single (tokens ++ [.Open]) count) (reinsertToken .Open)
      fun _ => At .ahead tokens count := by
  apply does_reinsertToken
  intro checker short
  refine ⟨?_, .inr ⟨checker.peeked, rfl, short⟩⟩
  rcases short with none | ⟨token, one, -⟩
  · simp [none]
  · simp [one]

/-- A token after expressions is put back. -/
theorem does_reinsert :
    Does (Past token tokens count) (reinsertToken token) fun _ => Inside .single tokens count := by
  apply establishes_exists
  intro word
  apply establishes_fact
  intro exprs
  apply does_reinsert_at.mono
  intro _ tally checker stood
  exact ⟨word, exprs, stood⟩

/-- The text that is read belongs to the token returned last. -/
theorem does_tokenStr (known : ∀ tally checker, holds tally checker → Fits token checker.text) :
    Does holds tokenStr fun text tally checker => Fits token text ∧ holds tally checker := by
  apply establishes_emitting
  intro tally before after text next start recorded run
  obtain ⟨-, rfl⟩ := Tally.recorded recorded
  cases run
  exact ⟨known tally before start, start⟩

theorem Past.fits {tally : Tally} {checker : Checker}
    (past : Past token tokens count tally checker) : Fits token checker.text := by
  obtain ⟨word, exprs, stood⟩ := past
  exact stood.stood.place.2

theorem Past.bound {tally : Tally} {checker : Checker}
    (past : Past token tokens count tally checker) : BindsNoParen checker := by
  obtain ⟨word, exprs, stood⟩ := past
  exact stood.stood.bound

theorem does_prefixId (short : place ≠ .ahead) :
    Does (Inside place tokens count) prefixId fun name tally checker =>
      ¬ IsParenText name ∧ Inside .free tokens count tally checker := by
  apply establishes_bind (does_next short)
  intro token
  apply establishes_emitting
  intro tally before after name next past recorded run
  obtain ⟨clear, rfl⟩ := Tally.recorded recorded
  cases run
  exact ⟨fun text => clear (past.fits.mpr text), (past.inside clear).free⟩

theorem does_eatToken_at (short : place ≠ .ahead) (expected : Token) :
    Does (At place tokens count) (eatToken expected)
      fun _ => At (.past expected) (tokens ++ [expected]) count := by
  apply establishes_bind does_nextToken
  intro token
  rw [Place.next_of_short short]
  apply establishes_ite
  · intro _
    apply establishes_bind (does_tokenStr fun _ _ stood => stood.stood.place.2)
    intro _
    apply establishes_bind (does_tokenStr fun _ _ stood => stood.2.stood.place.2)
    intro _
    exact does_report _
  · intro same
    obtain rfl := not_not.mp same
    exact does_return fun _ _ stood => stood

theorem does_eatToken (short : place ≠ .ahead) (expected : Token) :
    Does (Inside place tokens count) (eatToken expected) fun _ => Past expected tokens count := by
  apply establishes_exists
  intro word
  apply establishes_fact
  intro exprs
  apply (does_eatToken_at short expected).mono
  intro _ tally checker stood
  exact ⟨word, exprs, stood⟩

theorem does_eatClose (short : place ≠ .ahead) :
    Does (Inside place (tokens ++ [.Open]) count) (eatToken .Close)
      fun _ => Inside .free tokens count :=
  (does_eatToken short .Close).mono fun _ _ _ past => past.closed

/-- What is between the parentheses of a group is read after the opening one. -/
def Opened (tokens : List Token) (count : Int) (tally : Tally) (checker : Checker) : Prop :=
  ∃ word, Exprs .Open .Close word ∧ At .free (tokens ++ word ++ [.Open]) count tally checker

theorem Past.opened {tally : Tally} {checker : Checker}
    (past : Past .Open tokens count tally checker) : Opened tokens count tally checker := by
  obtain ⟨word, exprs, stood⟩ := past
  exact ⟨word, exprs, stood.free⟩

theorem does_eatOpen (short : place ≠ .ahead) :
    Does (Inside place tokens count) (eatToken .Open) fun _ => Opened tokens count :=
  (does_eatToken short .Open).mono fun _ _ _ past => past.opened

/-- A computation that reads what follows an opening parenthesis up to the closing one. -/
theorem does_group_fact {fact : α → Prop} {m : CallsM α}
    (reads : ∀ tokens, Does (Inside .free (tokens ++ [.Open]) count) m
      fun value tally checker => fact value ∧ Inside .free tokens count tally checker) :
    Does (Opened tokens count) m
      fun value tally checker => fact value ∧ Inside .free tokens count tally checker := by
  apply establishes_exists
  intro word
  apply establishes_fact
  intro exprs
  apply (reads (tokens ++ word)).imp
  · intro tally checker stood
    exact stood.inside
  · rintro value tally checker ⟨known, inside⟩
    exact ⟨known, inside.within exprs⟩

theorem does_group {m : CallsM α}
    (reads : ∀ tokens, Does (Inside .free (tokens ++ [.Open]) count) m
      fun _ => Inside .free tokens count) :
    Does (Opened tokens count) m fun _ => Inside .free tokens count := by
  have known : Does (Opened tokens count) m
      fun _ tally checker => True ∧ Inside .free tokens count tally checker :=
    does_group_fact fun tokens => (reads tokens).mono fun _ _ _ inside => ⟨trivial, inside⟩
  exact known.mono fun _ _ _ inside => inside.2

/-- A name, which is no parenthesis. -/
theorem does_name {post : α → Tally → Checker → Prop} {k : String → CallsM α}
    (short : place ≠ .ahead)
    (rest : ∀ name, ¬ IsParenText name → Does (Inside .free tokens count) (k name) post) :
    Does (Inside place tokens count) (prefixId >>= k) post := by
  apply establishes_bind (does_prefixId short)
  intro name
  exact establishes_fact (rest name)

/-- A keyword. -/
theorem does_keyword {m : CallsM α} {post : α → Tally → Checker → Prop}
    (clear : ¬ IsParen token) (rest : Does (Inside .free tokens count) m post) :
    Does (Past token tokens count) m post :=
  rest.weaken fun _ _ past => (past.inside clear).free

/-- A computation that may start with a token that waits. -/
theorem does_short {m : CallsM α} {post : α → Tally → Checker → Prop}
    (does : Does (Inside .single tokens count) m post) (short : place ≠ .ahead) :
    Does (Inside place tokens count) m post := by
  apply does.weaken
  rintro tally checker ⟨word, exprs, stood⟩
  exact ⟨word, exprs, stood.weaken (Place.Of.single short)⟩

theorem does_symbolsGet {name : String}
    (bound : ∀ tally checker, holds tally checker → BindsNoParen checker) :
    Does holds (liftM (symbolsGet name) : CallsM Binding) fun pair tally checker =>
      (IsParenText name → pair.expr = none) ∧ holds tally checker := by
  apply establishes_silent
  intro tally before pair after start run
  obtain ⟨rfl, rfl⟩ : before.symbols name = pair ∧ before = after := by
    simpa [symbolsGet, run_bind_ok] using run
  exact ⟨(bound tally before start).symbols name, start⟩

theorem does_progsIndex [Stable holds] {name : String}
    (bound : ∀ tally checker, holds tally checker → BindsNoParen checker) :
    Does holds (liftM (progsIndex name) : CallsM (Option Ref)) fun prog tally checker =>
      (IsParenText name → prog = none) ∧ holds tally checker := by
  apply establishes_silent
  intro tally before prog after start run
  have steady := keeps_steady_progsIndex name before prog after run
  refine ⟨fun paren => ?_, Stable.steady start steady⟩
  have unbound := (bound tally before start).progs name paren
  cases entry : before.progs name with
  | none =>
      obtain ⟨rfl, -⟩ : none = prog ∧
          { before with progs := Function.update before.progs name (some none) } = after := by
        simpa [progsIndex, run_bind_ok, entry] using run
      rfl
  | some program =>
      obtain ⟨rfl, -⟩ : program = prog ∧ before = after := by
        simpa [progsIndex, run_bind_ok, entry] using run
      cases program with
      | none => rfl
      | some prog => exact (unbound prog entry).elim

/-- Binding a name that is no parenthesis. -/
theorem does_insert [Stable holds] {name : String} (clear : ¬ IsParenText name) (pair : Binding) :
    Does holds (liftM (symbolsInsert name pair) : CallsM Binding) fun _ => holds :=
  does_steady (keeps_steady_symbolsInsert clear pair)

theorem does_withBinding {m : CallsM α} {post : α → Tally → Checker → Prop} [Stable holds]
    [∀ value, Stable (post value)] {name : String} (clear : ¬ IsParenText name) (pair : Binding)
    (does : Does holds m post) : Does holds (withBinding name pair m) post := by
  apply establishes_bind (does_insert clear pair)
  intro prev
  apply establishes_bind does
  intro result
  apply establishes_bind (does_insert clear prev)
  intro _
  exact does_return fun _ _ start => start

end Does

end Lookahead

end Lfsc
