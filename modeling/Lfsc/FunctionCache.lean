import Lfsc.Exec.Lockstep
import Lfsc.CheckFile
import Lfsc.RunCongruence

/-!
# Cached results of side conditions

A program declared with `function` keeps its results in a cache.  As long as no call is answered
from the cache, a run is the same as without one; a call that is answered leaves its parameters
assigned to its arguments.
-/

namespace Lfsc

open Exec

/-! ## Runs without an answer from the cache -/

/-- The number of branches noted. -/
def passedEvents (runtime : Runtime) : Nat := runtime.events.length

/-- The same expressions and marks; in the second state no program is a function. -/
structure Uncached (runtime other : Runtime) : Prop where
  store : runtime.store = other.store
  marks : runtime.marks = other.marks
  functions : other.progFunctions = []

/-- A run with a cache that passes no noted branch is matched by one without. -/
abbrev RunsAlike {α : Type} (m m' : RunM α) : Prop := Lockstep passedEvents Uncached m m'

theorem runsAlike_inStore {α : Type} (m : StoreM α) : RunsAlike (inStore m) (inStore m) := by
  refine lockstep_zoom m (fun _ _ => rfl) (fun _ _ same => same.store) ?_
  intro part before other same
  exact ⟨rfl, same.marks, same.functions⟩

theorem runsAlike_lift {α : Type} (m : StoreM α) :
    RunsAlike (liftM m : RunM α) (liftM m : RunM α) := runsAlike_inStore m

theorem run_getMark_ok {r : Ref} {index : Nat} {value : Bool} {before after : Runtime} :
    (getMark r index).run before = .ok (value, after) ↔
      before.marks r index = value ∧ before = after := by
  simp [getMark]

theorem runsAlike_getMark (r : Ref) (index : Nat) :
    RunsAlike (getMark r index) (getMark r index) := by
  constructor
  · intro before value after run
    obtain ⟨-, rfl⟩ := run_getMark_ok.mp run
    exact Nat.le_refl _
  · intro before other value after same run _
    obtain ⟨rfl, rfl⟩ := run_getMark_ok.mp run
    exact ⟨other, by simp [getMark, same.marks], same⟩

theorem runsAlike_toggleMark (r : Ref) (index : Nat) :
    RunsAlike (toggleMark r index) (toggleMark r index) := by
  constructor
  · intro before value after run
    cases run
    exact Nat.le_refl _
  · intro before other value after same run _
    cases run
    exact ⟨_, rfl, same.store, by simp only [same.marks], same.functions⟩

theorem run_cached_ok {key : List Ref} {answer : Option Ref} {before after : Runtime} :
    (cached key).run before = .ok (answer, after) ↔
      before.cache.lookup key = answer ∧ before = after := by
  simp [cached]

theorem runsAlike_noteEvent (event : RunEvent) (value : Option Ref) (m : RunM (Option Ref)) :
    RunsAlike (noteEvent event >>= fun _ => pure value) m := by
  refine lockstep_passed fun before result after run => ?_
  obtain ⟨noted, _, noteRun, pureRun⟩ := run_bind_ok.mp run
  obtain ⟨-, rfl⟩ := run_pure_ok.mp pureRun
  cases noteRun
  simp [passedEvents]

theorem runsAlike_cacheResult (key : List Ref) (value : Ref) :
    RunsAlike (cacheResult key value >>= fun _ => pure (some value)) (pure (some value)) := by
  constructor
  · intro before result after run
    obtain ⟨_, _, cacheRun, pureRun⟩ := run_bind_ok.mp run
    obtain ⟨-, rfl⟩ := run_pure_ok.mp pureRun
    cases cacheRun
    exact Nat.le_refl _
  · intro before other result after same run _
    obtain ⟨_, _, cacheRun, pureRun⟩ := run_bind_ok.mp run
    obtain ⟨rfl, rfl⟩ := run_pure_ok.mp pureRun
    cases cacheRun
    exact ⟨other, rfl, same.store, same.marks, same.functions⟩

/-- Running alike without a cache is a congruence. -/
theorem congruence_runsAlike : Congruence RunsAlike where
  pure := lockstep_pure
  stop _ := lockstep_stop
  bind := lockstep_bind
  lift _ := runsAlike_lift _
  getMark := runsAlike_getMark
  toggleMark := runsAlike_toggleMark

theorem runsAlike_runIfMarked {self self' : Ref → RunM (Option Ref)}
    (alike : ∀ r, RunsAlike (self r) (self' r)) (useCache : Bool) (e : Ref) :
    RunsAlike (runIfMarked self useCache e) (runIfMarked self' false e) := by
  cases useCache with
  | true => exact runsAlike_noteEvent RunEvent.refused none _
  | false => exact related_runIfMarked congruence_runsAlike alike e

section Calls

variable {self : Ref → Bool → RunM (Option Ref)}
  (alike : ∀ r useCache, RunsAlike (self r useCache) (self r false))

include alike

theorem runsAlike_runBody (useCache : Bool) (prog : Ref) (prevs : List (Ref × Option Ref)) :
    RunsAlike (runBody self useCache prog prevs) (runBody self false prog prevs) := by
  rw [runBody, runBody]
  refine lockstep_bind (runsAlike_lift _) fun body =>
    lockstep_bind (alike body useCache) fun result => ?_
  exact lockstep_bind (runsAlike_lift _) fun _ => lockstep_pure result

/-- A call that is not answered from the cache runs the body as a call without one does. -/
theorem runsAlike_missed (key : List Ref) (prog : Ref) (prevs : List (Ref × Option Ref)) :
    RunsAlike (do
      match ← runBody self true prog prevs with
      | some value =>
          cacheResult key value
          return some value
      | none => return none) (runBody self false prog prevs) := by
  rw [← bind_pure (runBody self false prog prevs)]
  refine lockstep_bind (runsAlike_runBody alike true prog prevs) fun result => ?_
  cases result with
  | none => exact lockstep_pure none
  | some value => exact runsAlike_cacheResult key value

theorem runsAlike_runFunction (key : List Ref) (prog : Ref) (prevs : List (Ref × Option Ref)) :
    RunsAlike (runFunction self key prog prevs) (runBody self false prog prevs) := by
  have missed := runsAlike_missed alike key prog prevs
  constructor
  · intro before value after run
    obtain ⟨_, answer, readRun, rest⟩ := run_bind_ok.mp run
    obtain ⟨-, rfl⟩ := run_cached_ok.mp readRun
    cases answer with
    | some answer => exact (runsAlike_noteEvent _ _ (pure none)).mono _ _ _ rest
    | none => exact missed.mono _ _ _ rest
  · intro before other value after same run quiet
    obtain ⟨_, answer, readRun, rest⟩ := run_bind_ok.mp run
    obtain ⟨-, rfl⟩ := run_cached_ok.mp readRun
    cases answer with
    | some answer => exact (runsAlike_noteEvent _ _ _).matched _ _ _ _ same rest quiet
    | none => exact missed.matched _ _ _ _ same rest quiet

theorem runsAlike_runCall (useCache : Bool) (name prog : Ref) (args : List Ref) :
    RunsAlike (runCall self useCache name prog args) (runCall self false name prog args) := by
  rw [runCall, runCall]
  refine lockstep_bind (runsAlike_lift _) fun vars => lockstep_bind (runsAlike_lift _) fun prevs =>
    ?_
  cases prevs with
  | none => exact lockstep_pure none
  | some prevs =>
      have called : ∀ isFunction, RunsAlike
          (if isFunction = true then runFunction self (name :: args) prog prevs
          else if useCache = true then noteEvent .refused >>= fun _ => pure none
          else runBody self false prog prevs) (runBody self false prog prevs) := by
        intro isFunction
        cases isFunction with
        | true => exact runsAlike_runFunction alike (name :: args) prog prevs
        | false =>
            cases useCache with
            | true => exact runsAlike_noteEvent _ _ _
            | false => exact runsAlike_runBody alike false prog prevs
      constructor
      · intro before value after run
        obtain ⟨_, decided, readRun, rest⟩ := run_bind_ok.mp run
        obtain ⟨rfl, -⟩ := run_isFunction_ok.mp readRun
        exact (called decided).mono _ _ _ rest
      · intro before other value after same run quiet
        obtain ⟨_, decided, readRun, rest⟩ := run_bind_ok.mp run
        obtain ⟨rfl, -⟩ := run_isFunction_ok.mp readRun
        obtain ⟨final, matched, sameFinal⟩ := (called decided).matched _ _ _ _ same rest quiet
        refine ⟨final, run_bind_ok.mpr ⟨other, false, ?_, matched⟩, sameFinal⟩
        exact run_isFunction_ok.mpr ⟨rfl, by simp [same.functions]⟩

theorem runsAlike_runApp (useCache : Bool) (e : Ref) :
    RunsAlike (runApp self useCache e) (runApp self false e) := by
  rw [runApp, runApp]
  refine lockstep_bind (runsAlike_lift _) fun parts => ?_
  refine lockstep_bind (related_runArgs congruence_runsAlike (alike · useCache) parts.2)
    fun values => ?_
  cases values with
  | none => exact lockstep_pure none
  | some values =>
      refine lockstep_bind (runsAlike_lift _) fun op => lockstep_ite ?_ ?_
      · exact lockstep_bind (runsAlike_lift _) fun _ => lockstep_pure _
      · exact lockstep_bind (runsAlike_lift _) fun name =>
          runsAlike_runCall alike useCache name parts.1 values

theorem runsAlike_runCExpr (fuel : Nat) (useCache : Bool) (op : Op) (e : Ref) :
    RunsAlike (runCExpr fuel self useCache op e) (runCExpr fuel self false op e) := by
  have inner : ∀ r, RunsAlike (self r useCache) (self r false) := (alike · useCache)
  have congruence := congruence_runsAlike
  cases op with
  | do_ => exact related_runDo congruence inner e
  | let_ => exact related_runLet congruence inner e
  | add | mul | div => exact related_runArith congruence inner _ e
  | neg => exact related_runNeg congruence inner e
  | mpzToMpq => exact related_runMpzToMpq congruence inner e
  | ifneg | ifzero => exact related_runIfNumeral congruence inner _ e
  | ifmarked => exact runsAlike_runIfMarked inner useCache e
  | compare => exact related_runCompare congruence inner e
  | ifequal => exact related_runIfEqual congruence inner (fun _ _ => runsAlike_lift _) e
  | markvar => exact related_runMarkVar congruence inner e
  | match_ => exact related_runMatch congruence inner (fun _ => runsAlike_lift _) e
  | app => exact runsAlike_runApp alike useCache e
  | _ => exact lockstep_pure none

end Calls

/-- A run that passes no noted branch is the run in which no program is a function. -/
theorem runsAlike_runCodeInternal (fuel : Nat) (e : Ref) (useCache : Bool) :
    RunsAlike (runCodeInternal fuel e useCache) (runCodeInternal fuel e false) := by
  induction fuel generalizing e useCache with
  | zero => exact lockstep_stop
  | succ fuel hyp =>
      rw [runCodeInternal, runCodeInternal]
      refine lockstep_bind (runsAlike_lift _) fun node => ?_
      cases node with
      | cexpr op kids flag => exact runsAlike_runCExpr hyp fuel useCache op e
      | _ => exact runsAlike_lift _

/-- The branches that a run noted. -/
def newEvents (before after : Runtime) : List RunEvent := after.events.drop before.events.length

/-- Two constants of a type, and a side condition, declared with some keyword, that on the second
constant calls itself twice on the first one and then returns its argument. -/
def callTwice (keyword : String) : List Lexeme := scan
  ["(", "declare", "t", "type", ")", "(", "declare", "a", "t", ")", "(", "declare", "b", "t", ")",
    "(", keyword, "f", "(", "(", "x", "t", ")", ")", "t",
    "(", "match", "x", "(", "a", "a", ")",
    "(", "b", "(", "do", "(", "f", "a", ")", "(", "f", "a", ")", "x", ")", ")", ")", ")"]

/-- The state after a file of commands, and the code that some tokens stand for in it. -/
def codeAfter (lexemes code : List Lexeme) : Option (Ref × Runtime) :=
  match (checkFile 30 60).run
    { initChecker (fun _ _ => false) (fun _ => false) with input := lexemes } with
  | .ok (_, after) =>
      match (readCode 9).run { after with input := code } with
      | .ok (some e, read) => some (e, read.runtime)
      | _ => none
  | .error _ => none

/-- What a run of some code after a file of commands returns, and the branches it notes. -/
def resultAfter (lexemes code : List Lexeme) : Option (Option Node × List RunEvent) :=
  match codeAfter lexemes code with
  | some (e, runtime) =>
      match (runCode 20 e).run runtime with
      | .ok (result, after) => some (result.bind (after.store.heap[·]?), after.events)
      | .error _ => none
  | none => none

theorem run_of_resultAfter {lexemes code : List Lexeme} {result : Option Node}
    {events : List RunEvent} (found : resultAfter lexemes code = some (result, events)) :
    ∃ e before value after, codeAfter lexemes code = some (e, before) ∧
      (runCode 20 e).run before = .ok (value, after) ∧ after.events = events := by
  unfold resultAfter at found
  split at found
  · rename_i e before read
    split at found
    · rename_i value after run
      simp only [Option.some.injEq, Prod.mk.injEq] at found
      exact ⟨e, before, value, after, read, run, found.2⟩
    · contradiction
  · contradiction

end Lfsc
