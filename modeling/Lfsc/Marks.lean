import Lfsc.Modes

/-!
# Marks across commands

Marks are toggled by every evaluation and cleared only at the end of `check` and `check-assuming`.
A proof is checked without marks where every other command leaves the marks as it found them.
-/

namespace Lfsc

open Exec

/-! ## Marks -/

/-- No symbol is marked. -/
def Unmarked (checker : Checker) : Prop := checker.runtime.marks = fun _ _ => false

/-- The commands that check a proof. -/
def Token.checksProof (token : Token) : Prop := token = .Check ∨ token = .CheckAssuming

/-- A command other than `check` and `check-assuming` toggles each mark an even number of times: it
ends with the marks that it started with. -/
def MarksKept (before : Checker) (action : Action) (after : Checker) : Prop :=
  ∀ token, action = .command token → ¬ token.checksProof →
    after.runtime.marks = before.runtime.marks

/-- Two states have the same marks. -/
def SameMarks (before after : Checker) : Prop := after.runtime.marks = before.runtime.marks

instance : Std.Refl SameMarks := ⟨fun _ => rfl⟩

instance : IsTrans Checker SameMarks := ⟨fun _ _ _ left right => right.trans left⟩

theorem keeps_sameMarks_nextToken : Keeps SameMarks nextToken := by
  intro before token after run
  unfold nextToken at run
  obtain ⟨_, checker, got, run⟩ := run_bind_ok.mp run
  cases got
  split at run
  · obtain ⟨_, scanned, lexed, run⟩ := run_bind_ok.mp run
    obtain ⟨-, rfl⟩ := run_pure_ok.mp run
    unfold yylex at lexed
    obtain ⟨_, checker, got, lexed⟩ := run_bind_ok.mp lexed
    cases got
    split at lexed <;> cases lexed <;> rfl
  · cases run
    rfl

theorem keeps_sameMarks_eatRparens (count : Nat) : Keeps SameMarks (eatRparens count) := by
  induction count with
  | zero => exact keeps_pure _
  | succ count hyp =>
      refine keeps_bind (keeps_bind ?_ fun _ => ?_) fun _ => hyp
      · rw [eatToken]
        refine keeps_bind keeps_sameMarks_nextToken fun token => ?_
        exact keeps_ite (keeps_stop _) (keeps_pure _)
      · intro before value after run
        obtain rfl := run_modify_ok.mp run
        rfl

/-- After the end of `check` and `check-assuming` no symbol is marked. -/
theorem unmarked_cleanUp {prev : Int} {value : Unit} {before after : Checker}
    (run : (cleanUp prev).run before = .ok (value, after)) : Unmarked after := by
  rw [cleanUp] at run
  obtain ⟨_, checker, got, run⟩ := run_bind_ok.mp run
  obtain ⟨restored, _, -, run⟩ := run_bind_ok.mp run
  obtain ⟨_, _, cleared, run⟩ := run_bind_ok.mp run
  obtain rfl := run_modify_ok.mp cleared
  rw [eatExcess] at run
  obtain ⟨_, now, got', run⟩ := run_bind_ok.mp run
  cases got'
  exact keeps_sameMarks_eatRparens _ _ _ _ run

theorem unmarked_command {fuel : Nat} {token : Token} {value : Unit} {start after : Checker}
    (checks : token.checksProof) (run : (command fuel token).run start = .ok (value, after)) :
    Unmarked after := by
  rcases checks with rfl | rfl
  · rw [command, cmdCheck] at run
    obtain ⟨_, prev, -, run⟩ := run_bind_ok.mp run
    obtain ⟨_, _, -, run⟩ := run_bind_ok.mp run
    obtain ⟨_, t, -, run⟩ := run_bind_ok.mp run
    obtain ⟨_, _, -, run⟩ := run_bind_ok.mp run
    obtain ⟨_, _, -, run⟩ := run_bind_ok.mp run
    exact unmarked_cleanUp run
  · rw [command, cmdCheckAssuming] at run
    obtain ⟨_, prev, -, run⟩ := run_bind_ok.mp run
    obtain ⟨_, decls, -, run⟩ := run_bind_ok.mp run
    obtain ⟨_, type, -, run⟩ := run_bind_ok.mp run
    obtain ⟨_, expected, -, run⟩ := run_bind_ok.mp run
    obtain ⟨_, _, -, run⟩ := run_bind_ok.mp run
    obtain ⟨_, _, -, run⟩ := run_bind_ok.mp run
    exact unmarked_cleanUp run

/-- A step that keeps marks where it has to leaves no symbol marked if none was. -/
theorem unmarked_step {action : Action} {before after : Checker} (unmarked : Unmarked before)
    (step : Step before action after) (kept : MarksKept before action after) : Unmarked after := by
  cases step with
  | openFile lexemes tailCalls eof =>
      exact (keeps_sameMarks_nextToken _ _ _ eof).trans unmarked
  | skip close => exact (keeps_sameMarks_nextToken _ _ _ close).trans unmarked
  | command fuel open_ name accepted =>
      rename_i opened start token
      by_cases checks : token.checksProof
      · exact unmarked_command checks accepted
      · exact (kept token rfl checks).trans unmarked

/-- In a run whose commands keep marks where they have to, no symbol is marked when a command
starts. -/
theorem unmarked_of_run {state : Checker} (run : RunWith MarksKept state) : Unmarked state := by
  induction run with
  | init before fewer => rfl
  | step run step meets hyp => exact unmarked_step hyp step meets

/-- Two states differ in their marks only. -/
def SameButMarks (left right : Checker) : Prop :=
  right = { left with runtime := { left.runtime with marks := right.runtime.marks } }

/-- States without marks that differ in their marks only are the same. -/
theorem SameButMarks.eq {left right : Checker} (same : SameButMarks left right)
    (clear : Unmarked left) (clear' : Unmarked right) : left = right := by
  have marks : right.runtime.marks = left.runtime.marks := Eq.trans clear' clear.symm
  rw [same, marks]

/-- A state in which a file with one `check` is open. -/
def beforeCheck : Checker :=
  { initChecker (fun _ _ => false) (fun _ => false) with
    input := scan ["(", "check", "type", ")"], tailCalls := true }

/-- After a file has been checked the next one can be opened. -/
theorem reachable_of_checkFile {fuel rounds : Nat} {before after : Checker} {value : Unit}
    (reached : Reachable before)
    (run : (checkFile fuel rounds).run before = .ok (value, after)) (lexemes : List Lexeme)
    (tailCalls : Bool) : Reachable { after with input := lexemes, tailCalls } := by
  induction rounds generalizing before with
  | zero => exact (run_stop_ok.mp run).elim
  | succ rounds hyp =>
      rw [checkFile] at run
      obtain ⟨read, token, tokenRun, run⟩ := run_bind_ok.mp run
      split at run
      · obtain ⟨-, rfl⟩ := run_pure_ok.mp run
        exact .step reached (.openFile lexemes tailCalls tokenRun) trivial
      · obtain ⟨named, name, nameRun, run⟩ := run_bind_ok.mp run
        obtain ⟨next, _, accepted, run⟩ := run_bind_ok.mp run
        exact hyp (.step reached (.command fuel tokenRun nameRun accepted) trivial) run
      · exact hyp (.step reached (.skip tokenRun) trivial) run
      · exact (run_stop_ok.mp run).elim

/-- A file with a program that toggles the mark of its argument, a rule whose side condition fails
unless the constant `c` is marked, and some commands. -/
def markingThen (commands : List String) : List Lexeme := scan
  (["(", "declare", "s", "type", ")", "(", "declare", "c", "s", ")",
    "(", "program", "toggle", "(", "(", "x", "s", ")", ")", "s", "(", "markvar", "x", ")", ")",
    "(", "program", "test", "(", "(", "x", "s", ")", ")", "s",
      "(", "ifmarked", "x", "c", "(", "fail", "s", ")", ")", ")",
    "(", "declare", "r", "(", "!", "u", "(", "^", "(", "test", "c", ")", "c", ")", "s", ")", ")"] ++
    commands)

/-- Whether the constant `c` is marked after a file, with the tokens put back, if a check of the
rule is accepted then. -/
def markedBefore (lexemes : List Lexeme) : Except Stop (Bool × List Token) := do
  let (_, read) ← (checkFile 30 40).run
    { initChecker (fun _ _ => false) (fun _ => false) with input := lexemes }
  let _ ← (command 30 .Check).run
    { read with input := scan ["(", "r", ")", ")"], text := "check", tailCalls := true }
  return (read.runtime.marks 5 0, read.peeked)

theorem exists_of_markedBefore {lexemes : List Lexeme} {marked : Bool} {peeked : List Token}
    (found : markedBefore lexemes = .ok (marked, peeked)) :
    ∃ read next, (checkFile 30 40).run
        { initChecker (fun _ _ => false) (fun _ => false) with input := lexemes } = .ok ((), read) ∧
      (command 30 .Check).run
        { read with input := scan ["(", "r", ")", ")"], text := "check", tailCalls := true } =
          .ok ((), next) ∧ read.runtime.marks 5 0 = marked ∧ read.peeked = peeked := by
  unfold markedBefore at found
  cases ran : (checkFile 30 40).run
      { initChecker (fun _ _ => false) (fun _ => false) with input := lexemes } with
  | error why => simp [ran, bind, Except.bind] at found
  | ok result =>
      obtain ⟨_, read⟩ := result
      cases accepted : (command 30 .Check).run
          { read with input := scan ["(", "r", ")", ")"], text := "check", tailCalls := true } with
      | error why => simp [ran, accepted, bind, Except.bind] at found
      | ok outcome =>
          simp only [ran, accepted, bind, Except.bind, pure_eq_ok, Prod.mk.injEq] at found
          exact ⟨read, outcome.2, rfl, accepted, found.1, found.2⟩

end Lfsc
