import Lfsc.Scanner

/-!
# The tokens of a file

The checker is given the tokens that the scanner will produce.  Calls of `next_token` and
`reinsert_token` on the scanner and on the checker return the same tokens and leave the same text.
-/

namespace Lfsc

namespace Scanner

/-! ## Scanning depends on the bytes left only -/

/-- Two scanners have the same bytes left and the same text scanned last. -/
structure Alike (s s' : Scanner) : Prop where
  rest : s.rest = s'.rest
  yytext : s.yytext = s'.yytext

theorem readComment_alike {s s' : Scanner} (alike : Alike s s') :
    Alike s.readComment s'.readComment := by
  obtain ⟨rest, same⟩ : ∃ rest, s.rest = rest := ⟨_, rfl⟩
  have same' := alike.rest.symm.trans same
  induction rest generalizing s s' with
  | nil =>
      rw [readComment_nil same, readComment_nil same']
      exact alike
  | cons c rest hyp =>
      rw [readComment_cons same, readComment_cons same']
      split
      · exact ⟨rfl, alike.yytext⟩
      · split
        · exact ⟨rfl, alike.yytext⟩
        · exact hyp ⟨rfl, alike.yytext⟩ rfl rfl

theorem matchOnce_alike {s s' : Scanner} (rest : s.rest = s'.rest) :
    s.matchOnce.1 = s'.matchOnce.1 ∧ Alike s.matchOnce.2 s'.matchOnce.2 := by
  rw [matchOnce, matchOnce, rest]
  cases Munch.choose rules s'.rest with
  | none => exact ⟨rfl, rfl, rfl⟩
  | some chosen =>
      obtain ⟨yyleng, action⟩ := chosen
      cases action with
      | comment => exact ⟨rfl, readComment_alike ⟨rfl, rfl⟩⟩
      | _ => exact ⟨rfl, rfl, rfl⟩

theorem scan_alike (s s' : Scanner) (rest : s.rest = s'.rest) :
    s.scan.1 = s'.scan.1 ∧ Alike s.scan.2 s'.scan.2 := by
  induction s using scan.induct generalizing s' with
  | case1 s token after step =>
      obtain ⟨same, alike⟩ := matchOnce_alike rest
      rw [step] at same alike
      have step' : s'.matchOnce = (some token, s'.matchOnce.2) := Prod.ext same.symm rfl
      rw [scan_of_token step, scan_of_token step']
      exact ⟨rfl, alike⟩
  | case2 s after step hyp =>
      obtain ⟨same, alike⟩ := matchOnce_alike rest
      rw [step] at same alike
      have step' : s'.matchOnce = (none, s'.matchOnce.2) := Prod.ext same.symm rfl
      rw [scan_of_skip step, scan_of_skip step']
      exact hyp _ alike.rest

/-- A token that is returned was read. -/
theorem length_scan {s : Scanner} (proper : s.scan.1 ≠ .Eof) : s.scan.2.rest.length < s.rest.length := by
  induction s using scan.induct with
  | case1 s token after step =>
      rw [scan_of_token step] at proper ⊢
      rcases s.matchOnce_cases with ⟨-, stops⟩ | ⟨yytext, rest, action, split, matched, -, performed⟩
      · cases step.symm.trans stops
        exact (proper rfl).elim
      · have := List.length_pos_of_ne_nil matched.nonempty
        rw [step] at performed
        cases action with
        | token _ =>
            obtain rfl := congrArg Prod.snd performed
            rw [split, List.length_append]
            exact Nat.lt_add_of_pos_left this
        | _ => cases performed
  | case2 s after step hyp =>
      rw [scan_of_skip step] at proper ⊢
      exact (hyp proper).trans (length_matchOnce step)

/-- Nothing is left once the end of the file is reported, and it is reported again. -/
theorem scan_eof {s : Scanner} (ended : s.scan.1 = .Eof) :
    s.scan.2.rest = [] ∧ s.scan.2.yytext = [] := by
  induction s using scan.induct with
  | case1 s token after step =>
      rw [scan_of_token step] at ended ⊢
      rcases s.matchOnce_cases with ⟨nothing, stops⟩ | ⟨yytext, rest, action, -, matched, -, performed⟩
      · cases step.symm.trans stops
        exact ⟨nothing, rfl⟩
      · rw [step] at performed
        cases action with
        | token token' =>
            cases performed
            exact ((matched.token token rfl).2 ended).elim
        | _ => cases performed
  | case2 s after step hyp =>
      rw [scan_of_skip step] at ended ⊢
      exact hyp ended

theorem scan_of_nil {s : Scanner} (nothing : s.rest = []) :
    s.scan = (.Eof, { s with yytext := [] }) := by
  rcases s.matchOnce_cases with ⟨-, stops⟩ | ⟨yytext, rest, action, split, matched, -, -⟩
  · exact scan_of_token stops
  · rw [nothing] at split
    exact (matched.nonempty (List.append_eq_nil_iff.mp split.symm).1).elim

end Scanner

open Exec

open Scanner (fresh scan_alike length_scan scan_of_nil)

/-! ## Lexemes -/

/-- Bytes as a string. -/
def printed (text : List UInt8) : String := String.ofList (text.map fun c => .ofNat c.toNat)

/-- The tokens of a file with their texts. -/
def lexemes (text : List UInt8) : List Lexeme :=
  let scanned := Scanner.scan { fresh with rest := text }
  if _proper : scanned.1 = .Eof then []
  else ⟨scanned.1, printed scanned.2.yytext⟩ :: lexemes scanned.2.rest
termination_by text.length
decreasing_by exact length_scan _proper

theorem lexemes_scan (s : Scanner) :
    lexemes s.rest =
      if s.scan.1 = .Eof then []
      else ⟨s.scan.1, printed s.scan.2.yytext⟩ :: lexemes s.scan.2.rest := by
  obtain ⟨same, alike⟩ := scan_alike s { fresh with rest := s.rest } rfl
  rw [lexemes, same, alike.rest, alike.yytext]
  simp only [dite_eq_ite]

/-- The tokens from a state of the scanner on. -/
theorem lexemes_rest (s : Scanner) :
    lexemes s.rest =
      if s.yylex.1 = .Eof then []
      else ⟨s.yylex.1, printed s.yylex.2.yytext⟩ :: lexemes s.yylex.2.rest :=
  lexemes_scan s.bumpSpan

theorem lexemes_nil : lexemes [] = [] := by
  rw [lexemes, scan_of_nil rfl]
  rfl

/-- The checker has the tokens of the scanner before it, its text and its slots. -/
structure Supplies (s : Scanner) (checker : Checker) : Prop where
  input : checker.input = lexemes s.rest
  text : checker.text = printed s.yytext
  peeked : s.peeked = (checker.peeked[0]?, checker.peeked[1]?)
  slots : checker.peeked.length ≤ 2

theorem run_yylex_nil {checker : Checker} (ended : checker.input = []) :
    yylex.run checker = .ok (.Eof, { checker with text := "" }) := by
  cases checker
  obtain rfl := ended
  rfl

theorem run_yylex_cons {checker : Checker} {lexeme : Lexeme} {rest : List Lexeme}
    (more : checker.input = lexeme :: rest) :
    yylex.run checker =
      .ok (lexeme.token, { checker with input := rest, text := lexeme.text }) := by
  cases checker
  obtain rfl := more
  rfl

/-- `yylex` returns the same token on both sides. -/
theorem Supplies.yylex {s : Scanner} {checker : Checker} (supplies : Supplies s checker) :
    ∃ after, Lfsc.yylex.run checker = .ok (s.yylex.1, after) ∧ Supplies s.yylex.2 after := by
  have input := supplies.input.trans (lexemes_rest s)
  have peeked : s.yylex.2.peeked = s.peeked := s.bumpSpan.scan_peeked
  by_cases ended : s.yylex.1 = .Eof
  · obtain ⟨nothing, empty⟩ := Scanner.scan_eof ended
    rw [if_pos ended] at input
    rw [run_yylex_nil input, ended]
    refine ⟨_, rfl, ?_, ?_, peeked.trans supplies.peeked, supplies.slots⟩
    · rw [Scanner.yylex, nothing, lexemes_nil]
      exact input
    · rw [Scanner.yylex, empty]
      rfl
  · rw [if_neg ended] at input
    exact ⟨_, run_yylex_cons input, rfl, rfl, peeked.trans supplies.peeked, supplies.slots⟩

/-- `next_token` returns the same token on both sides. -/
theorem Supplies.nextToken {s : Scanner} {checker : Checker} (supplies : Supplies s checker) :
    ∃ after, Lfsc.nextToken.run checker = .ok (s.nextToken.1, after) ∧
      Supplies s.nextToken.2 after := by
  cases slots : checker.peeked with
  | nil =>
      obtain ⟨after, run, supplies'⟩ := supplies.yylex
      have empty : s.peeked.1 = none := by rw [supplies.peeked, slots]; rfl
      rw [Scanner.nextToken, empty]
      refine ⟨after, ?_, supplies'⟩
      rw [Lfsc.nextToken, StateT.run_bind, StateT.run_get, pure_bind]
      simp only [slots]
      exact run_bind_of_ok run
  | cons token rest =>
      have full : s.peeked = (some token, rest[0]?) := by rw [supplies.peeked, slots]; rfl
      have short : rest.length ≤ 1 := by
        have := supplies.slots
        rw [slots, List.length_cons] at this
        omega
      rw [Scanner.nextToken, full]
      refine ⟨{ checker with peeked := rest }, ?_, supplies.input, supplies.text, ?_, Nat.le_succ_of_le short⟩
      · rw [Lfsc.nextToken, StateT.run_bind, StateT.run_get, pure_bind]
        simp only [slots]
        rfl
      · rw [List.getElem?_eq_none short]

/-- `reinsert_token` does the same on both sides. -/
theorem Supplies.reinsertToken {s : Scanner} {checker : Checker} (supplies : Supplies s checker)
    (token : Token) : ∃ after, (Lfsc.reinsertToken token).run checker = .ok ((), after) ∧
      Supplies (s.reinsertToken token) after := by
  obtain ⟨input, text, peeked, slots⟩ := supplies
  rw [Scanner.reinsertToken, peeked]
  match stack : checker.peeked with
  | [] =>
      exact ⟨{ checker with peeked := [token] }, run_modify_ok.mpr (by simp [stack]), input, text,
        rfl, by simp⟩
  | [top] =>
      exact ⟨{ checker with peeked := [token, top] }, run_modify_ok.mpr (by simp [stack]), input,
        text, rfl, by simp⟩
  | top :: below :: rest =>
      have full : ¬ checker.peeked.length < 2 := by simp [stack]
      exact ⟨checker, run_modify_ok.mpr (if_neg full), input, text, peeked, slots⟩

/-- A file that is opened. -/
theorem supplies_openFile (s : Scanner) (checker : Checker) (filename : String) (text : List UInt8)
    (peeked : s.peeked = (checker.peeked[0]?, checker.peeked[1]?))
    (slots : checker.peeked.length ≤ 2) :
    Supplies (s.openFile filename text) { checker with input := lexemes text, text := "" } :=
  ⟨rfl, rfl, peeked, slots⟩

end Lfsc
