import Lfsc.CommandFrame
import Lfsc.HoleAccounts

/-!
# Holes at the end of a command

A hole that an application is left with is filled when the command ends, except where a tail call
was made because the hole occurs in the domain of the last argument and the check of that argument
did not fill it.  Ascribed types may keep holes.
-/

namespace Lfsc

open Exec

/-! ## Commands account for their holes -/

@[simp]
theorem keeps_plain_rejectRebind (prev : Binding) : Keeps Plain (rejectRebind prev) := by
  rw [rejectRebind]
  split <;> simp

@[simp]
theorem keeps_accounted_checkDeclList_check (fuel : Nat) (create : Bool) :
    Keeps Accounted (checkDeclList fuel create (check fuel)) :=
  keeps_accounted_checkDeclList (reports_check fuel) fuel create

@[simp]
theorem keeps_writes_buildMacroFrom (fuel : Nat) (decls : List (Ref × Option Ref))
    (ret retType : Option Ref) : Keeps Writes (buildMacroFrom fuel decls ret retType) := by
  induction decls generalizing ret retType with
  | nil => exact keeps_pure _
  | cons decl earlier hyp =>
      rw [buildMacroFrom]
      repeat' first
        | with_reducible refine keeps_bind ?_ fun _ => ?_
        | split
        | simp [hyp]

@[simp]
theorem keeps_writes_buildMacro (fuel : Nat) (decls : List (Ref × Option Ref))
    (ret retType : Option Ref) : Keeps Writes (buildMacro fuel decls ret retType) :=
  keeps_writes_buildMacroFrom _ _ _ _

@[simp]
theorem keeps_plain_cleanUp (prev : Int) : Keeps Plain (cleanUp prev) := by
  rw [cleanUp]
  refine keeps_bind (by simp) fun checker => keeps_bind (by simp) fun _ => ?_
  exact keeps_bind (keeps_plain_modify (fun _ => rfl) (fun _ => rfl) fun _ => rfl) fun _ => by simp

@[simp]
theorem keeps_accounted_readParams (fuel rounds : Nat) (acc : List (String × Ref × Ref)) :
    Keeps Accounted (readParams fuel rounds acc) := by
  induction rounds generalizing acc with
  | zero => exact keeps_stop _
  | succ rounds hyp =>
      rw [readParams]
      repeat' first
        | with_reducible refine keeps_bind ?_ fun _ => ?_
        | split
        | simp [hyp]

@[simp]
theorem keeps_writes_progType (fuel : Nat) (params : List (String × Ref × Ref)) (ret : Ref) :
    Keeps Writes (progType fuel params ret) := by
  induction params generalizing ret with
  | nil => exact keeps_pure ret
  | cons param earlier hyp => exact keeps_bind (keeps_writes_newPi _ _ _ _) fun _ => hyp _

@[simp]
theorem keeps_plain_unbindParams (params : List (String × Ref × Ref)) :
    Keeps Plain (unbindParams params) := by
  induction params with
  | nil => exact keeps_pure ()
  | cons param rest hyp =>
      exact keeps_bind (keeps_bind (keeps_tables_symbolsInsert _ _) fun _ => keeps_pure _) fun _ =>
        hyp

@[simp]
theorem keeps_plain_declareProg (progstr : String) (isFunction : Bool) :
    Keeps Plain (declareProg progstr isFunction) := by
  rw [declareProg]
  repeat' first
    | exact keeps_plain_modify (fun _ => rfl) (fun _ => rfl) fun _ => rfl
    | with_reducible refine keeps_bind ?_ fun _ => ?_
    | split
    | simp

@[simp]
theorem keeps_accounted_readProgram (fuel : Nat) (prog : Ref) (params : List (String × Ref × Ref)) :
    Keeps Accounted (readProgram fuel prog params) := by
  rw [readProgram]
  repeat' first
    | with_reducible refine keeps_bind ?_ fun _ => ?_
    | split
    | simp

/-- Every command accounts for the holes that it reads. -/
theorem keeps_accounted_command (fuel : Nat) (token : Token) :
    Keeps Accounted (command fuel token) := by
  cases token <;>
    simp only [command, cmdDefine, cmdDeclare, cmdDeclareRule, cmdDeclareType, cmdDefineConst,
      cmdCheck, cmdCheckAssuming, cmdOpaque, cmdRun, cmdProgram]
  all_goals
    repeat' first
      | exact keeps_stop _
      | exact keeps_accounted (keeps_plain_modify (fun _ => rfl) (fun _ => rfl) fun _ => rfl)
      | with_reducible refine keeps_bind ?_ fun _ => ?_
      | split
      | simp

/-! ## The holes of a command -/

/-- The holes that a command recorded. -/
def newHoleEvents (before after : Checker) : List HoleEvent :=
  after.holeTrace.drop before.holeTrace.length

/-- A hole that a command read. -/
def ReadHole (before after : Checker) (hole : Ref) : Prop :=
  before.store.heap.length ≤ hole ∧ IsHole after.store.heap hole

/-- A hole or symbol that has a value. -/
def Filled (checker : Checker) (r : Ref) : Prop := ∃ value, valOf checker.store.heap r = some value

theorem accounted_of_step {current next : Checker} {token : Token}
    (step : Step current (.command token) next) : Accounted current next := by
  cases step with
  | command fuel openRun nameRun accepted =>
      have opened : Accounted _ _ := keeps_accounted keeps_plain_nextToken _ _ _ openRun
      have named : Accounted _ _ := keeps_accounted keeps_plain_nextToken _ _ _ nameRun
      exact (opened.trans named).trans (keeps_accounted_command _ _ _ _ _ accepted)

theorem Accounted.account {before after : Checker} (accounted : Accounted before after) :
    AccountedBy (newHoleEvents before after) [] before after := by
  rcases accounted with null | ⟨events, held, same, account⟩
  · cases null
  · obtain rfl := List.map_eq_nil_iff.mp same
    have recorded : newHoleEvents before after = events := by
      rw [newHoleEvents, account.trace, List.drop_left]
    exact recorded ▸ account

/-- A hole is recorded once, for one reason. -/
theorem AccountedBy.not_ascribed {events : List HoleEvent} {held : List Ref}
    {before after : Checker} (account : AccountedBy events held before after) {hole : Ref}
    (deferred : .deferred hole ∈ events) : .ascribed hole ∉ events := by
  intro ascribed
  have once : (events.map HoleEvent.hole).Nodup := (List.nodup_append.mp account.once).2.1
  have same := List.inj_on_of_nodup_map once deferred ascribed rfl
  cases same

/-- Without tail calls no hole is left to the last argument. -/
theorem no_hole_deferred {current next : Checker} {token : Token}
    (step : Step current (.command token) next) (ordinary : current.tailCalls = false)
    (hole : Ref) :
    .deferred hole ∉ newHoleEvents current next := by
  intro mem
  have called := (accounted_of_step step).account.deferred hole mem
  simp [ordinary] at called

/-! ## A declaration and a check -/

/-- Accept the declaration and the check that a file consists of; the number of objects in between
is returned. -/
def declareThenCheck (fuel : Nat) : CheckerM Nat := do
  eatToken .Open
  eatToken .Declare
  command fuel .Declare
  eatToken .Close
  let heap ← getHeap
  eatToken .Open
  eatToken .Check
  command fuel .Check
  return heap.length

theorem run_eatToken_ok {token : Token} {value : Unit} {before after : Checker} :
    (eatToken token).run before = .ok (value, after) ↔
      nextToken.run before = .ok (token, after) := by
  rw [eatToken]
  constructor
  · intro run
    obtain ⟨_, read, readRun, run⟩ := run_bind_ok.mp run
    split at run
    · exact (run_stop_ok.mp run).elim
    · rename_i same
      obtain ⟨-, rfl⟩ := run_pure_ok.mp run
      rwa [← not_ne_iff.mp same] at readRun
  · intro run
    exact run_bind_ok.mpr ⟨after, token, run, by simp⟩

theorem steps_of_declareThenCheck {fuel : Nat} {lexemes : List Lexeme} {length : Nat}
    {next : Checker}
    (run : (declareThenCheck fuel).run (openedFile lexemes) = .ok (length, next)) :
    ∃ current, Reachable current ∧ current.store.heap.length = length ∧
      Step current (.command .Check) next := by
  simp only [declareThenCheck, run_bind_ok, run_eatToken_ok] at run
  obtain ⟨_, _, openRun, _, _, declareRun, _, _, declared, closed, _, closeRun, current, heap,
    heapRun, _, _, openRun', _, _, checkRun, _, _, checked, done⟩ := run
  obtain ⟨_, inner, rfl⟩ := run_onStore_ok.mp heapRun
  obtain ⟨rfl, rfl⟩ := run_getHeap_ok.mp inner
  obtain ⟨rfl, rfl⟩ := run_pure_ok.mp done
  have declare : Step (openedFile lexemes) (.command .Declare) _ :=
    .command fuel openRun declareRun declared
  have opened : Reachable (openedFile lexemes) := run_openedFile _ lexemes trivial
  refine ⟨closed, ?_, rfl, .command fuel openRun' checkRun checked⟩
  exact .step (.step opened declare trivial) (.skip closeRun) trivial

/-- What is left of a declaration and a check: the number of objects in between, the holes recorded
and one object. -/
def leftAt (r : Ref) (outcome : Except Stop (Nat × Checker)) :
    Option (Nat × List HoleEvent × Option Node) :=
  match outcome with
  | .ok (length, next) => some (length, next.holeTrace, next.store.heap[r]?)
  | .error _ => none

theorem steps_of_leftAt {fuel : Nat} {lexemes : List Lexeme} {r : Ref} {length : Nat}
    {events : List HoleEvent} {node : Option Node}
    (found : leftAt r ((declareThenCheck fuel).run (openedFile lexemes)) =
      some (length, events, node)) :
    ∃ current next, Reachable current ∧ current.store.heap.length = length ∧
      Step current (.command .Check) next ∧ next.holeTrace = events ∧
        next.store.heap[r]? = node := by
  cases run : (declareThenCheck fuel).run (openedFile lexemes) with
  | error why => simp [run, leftAt] at found
  | ok pair =>
      obtain ⟨count, next⟩ := pair
      obtain ⟨rfl, rfl, rfl⟩ : count = length ∧ next.holeTrace = events ∧
          next.store.heap[r]? = node := by simpa [run, leftAt] using found
      obtain ⟨current, reachable, same, step⟩ := steps_of_declareThenCheck run
      exact ⟨current, next, reachable, same, step, rfl, rfl⟩

/-- The declaration of a family over `mpz`, and the check of some term. -/
def familyThenCheck (term : List String) : List Lexeme :=
  scan (["(", "declare", "B", "(", "!", "x", "mpz", "type", ")", ")", "(", "check"] ++ term ++
    [")"])

end Lfsc
