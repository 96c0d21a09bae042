import Lfsc.RunCode
import Lfsc.Writes

/-!
# Relations between runs of code

Two evaluators that differ in the recursive call only are related function by function: whatever
relation between computations sequencing preserves, and holds of each step on the store with itself,
holds of each construct of code once it holds of the recursive calls.
-/

namespace Lfsc

open Exec

/-! ## Steps on the store -/

section Steps

variable {frame : Store → Store → Prop} [AllowsWrites frame]

@[simp]
theorem keeps_writes_restoreVals (prevs : List (Ref × Option Ref)) :
    Keeps frame (restoreVals prevs) := by
  induction prevs with
  | nil => exact keeps_pure ()
  | cons prev rest hyp =>
      rw [restoreVals]
      exact keeps_bind (keeps_writes_setSymVal _ _) fun _ => hyp

@[simp]
theorem keeps_writes_isSymbolic (r : Ref) : Keeps frame (isSymbolic r) := by
  rw [isSymbolic]
  refine keeps_bind (keeps_writes_load r) fun node => ?_
  split <;> simp

@[simp]
theorem keeps_writes_assignVars (values : List (Ref × Ref)) :
    Keeps frame (assignVars values) := by
  induction values with
  | nil => exact keeps_pure []
  | cons value rest hyp =>
      rw [assignVars]
      repeat' first
        | with_reducible refine keeps_bind ?_ fun _ => ?_
        | simp [hyp]

@[simp]
theorem keeps_writes_markOf (e : Ref) : Keeps frame (markOf e) := by
  rw [markOf]
  repeat' first
    | with_reducible refine keeps_bind ?_ fun _ => ?_
    | split
    | simp

@[simp]
theorem keeps_writes_precedes (left right : Ref) : Keeps frame (precedes left right) :=
  keeps_bind keeps_writes_get fun _ => keeps_pure _

@[simp]
theorem keeps_writes_runLeaf (e : Ref) : Keeps frame (runLeaf e) := by
  rw [runLeaf]
  repeat' first
    | with_reducible refine keeps_bind ?_ fun _ => ?_
    | split
    | simp

@[simp]
theorem keeps_writes_arithmetic (op : Op) (left right : Ref) :
    Keeps frame (arithmetic op left right) := by
  rw [arithmetic]
  repeat' first
    | with_reducible refine keeps_bind ?_ fun _ => ?_
    | split
    | exact keeps_writes_new (by simp)
    | simp

@[simp]
theorem keeps_writes_negation (r : Ref) : Keeps frame (negation r) := by
  rw [negation]
  repeat' first
    | with_reducible refine keeps_bind ?_ fun _ => ?_
    | split
    | exact keeps_writes_new (by simp)
    | simp

@[simp]
theorem keeps_writes_numeralTest (op : Op) (r : Ref) : Keeps frame (numeralTest op r) := by
  rw [numeralTest]
  refine keeps_bind (keeps_writes_load r) fun node => ?_
  split <;> simp

@[simp]
theorem keeps_writes_reduceScrutinee (fuel : Nat) (value : Ref) :
    Keeps frame (reduceScrutinee fuel value) := by
  rw [reduceScrutinee]
  refine keeps_bind (keeps_writes_load value) fun node => ?_
  split <;> simp

@[simp]
theorem keeps_writes_assignParams (vars args : List Ref) :
    Keeps frame (assignParams vars args) := by
  induction vars generalizing args with
  | nil => cases args <;> exact keeps_pure _
  | cons var vars hyp =>
      cases args with
      | nil => exact keeps_pure none
      | cons arg args =>
          rw [assignParams]
          repeat' first
            | with_reducible refine keeps_bind ?_ fun _ => ?_
            | split
            | simp [hyp]

@[simp]
theorem keeps_writes_paramsOf (prog : Ref) : Keeps frame (paramsOf prog) := by
  rw [paramsOf]
  repeat' first
    | with_reducible refine keeps_bind ?_ fun _ => ?_
    | split
    | simp

end Steps

/-- A computation that changes the store by assignments, none of them to a hole. -/
def FillsNoHole {α : Type} (m : StoreM α) : Prop :=
  ∀ (frame : Store → Store → Prop) [AllowsWrites frame], Keeps frame m

/-! ## Congruences -/

/-- A relation between computations of the evaluator that sequencing preserves, and that relates
each step to itself. -/
structure Congruence (related : ∀ {α : Type}, RunM α → RunM α → Prop) : Prop where
  pure {α : Type} (value : α) : related (pure value) (pure value)
  stop {α : Type} (why : Stop) : related (Exec.stop why : RunM α) (Exec.stop why)
  bind {α β : Type} {m m' : RunM α} {k k' : α → RunM β} :
    related m m' → (∀ value, related (k value) (k' value)) → related (m >>= k) (m' >>= k')
  lift {α : Type} {m : StoreM α} : FillsNoHole m → related (liftM m) (liftM m)
  getMark (r : Ref) (index : Nat) : related (getMark r index) (getMark r index)
  toggleMark (r : Ref) (index : Nat) : related (toggleMark r index) (toggleMark r index)

/-- A congruence that also relates the steps of calls to themselves. -/
structure CallCongruence (related : ∀ {α : Type}, RunM α → RunM α → Prop) : Prop extends
    Congruence related where
  noteEvent (event : RunEvent) : related (noteEvent event) (noteEvent event)
  cached (key : List Ref) : related (cached key) (cached key)
  cacheResult (key : List Ref) (value : Ref) : related (cacheResult key value)
    (cacheResult key value)
  isFunction (name : Ref) : related (isFunction name) (isFunction name)

/-- `run_code_internal` on an `ifequal`, with some comparison. -/
def runIfEqualWith (compare : Ref → Ref → StoreM Bool) (self : Ref → RunM (Option Ref)) (e : Ref) :
    RunM (Option Ref) := do
  match ← self (← kid e 0) with
  | none => return none
  | some left =>
      match ← self (← kid e 1) with
      | none => return none
      | some right => runBranch self e 2 (← compare left right)

section Code

variable {related : ∀ {α : Type}, RunM α → RunM α → Prop} (congruence : Congruence related)
  {self self' : Ref → RunM (Option Ref)} (alike : ∀ r, related (self r) (self' r))

include congruence alike

theorem related_runDo (e : Ref) : related (runDo self e) (runDo self' e) := by
  rw [runDo, runDo]
  refine congruence.bind (congruence.lift fun _ _ => by simp) fun first => ?_
  refine congruence.bind (alike first) fun value => ?_
  cases value with
  | none => exact congruence.pure none
  | some value => exact congruence.bind (congruence.lift fun _ _ => by simp) alike

theorem related_runLet (e : Ref) : related (runLet self e) (runLet self' e) := by
  rw [runLet, runLet]
  refine congruence.bind (congruence.lift fun _ _ => by simp) fun bound => ?_
  refine congruence.bind (alike bound) fun value => ?_
  cases value with
  | none => exact congruence.pure none
  | some value =>
      refine congruence.bind (congruence.lift fun _ _ => by simp) fun var => ?_
      refine congruence.bind (congruence.lift fun _ _ => by simp) fun prevs => ?_
      refine congruence.bind (congruence.lift fun _ _ => by simp) fun body => ?_
      refine congruence.bind (alike body) fun result => ?_
      exact congruence.bind (congruence.lift fun _ _ => by simp) fun _ => congruence.pure result

theorem related_runArith (op : Op) (e : Ref) :
    related (runArith self op e) (runArith self' op e) := by
  rw [runArith, runArith]
  refine congruence.bind (congruence.lift fun _ _ => by simp) fun first => ?_
  refine congruence.bind (alike first) fun left => ?_
  cases left with
  | none => exact congruence.pure none
  | some left =>
      refine congruence.bind (congruence.lift fun _ _ => by simp) fun second => ?_
      refine congruence.bind (alike second) fun right => ?_
      cases right with
      | none => exact congruence.pure none
      | some right => exact congruence.lift fun _ _ => by simp

theorem related_runNeg (e : Ref) : related (runNeg self e) (runNeg self' e) := by
  rw [runNeg, runNeg]
  refine congruence.bind (congruence.lift fun _ _ => by simp) fun first => ?_
  refine congruence.bind (alike first) fun value => ?_
  cases value with
  | none => exact congruence.pure none
  | some value => exact congruence.lift fun _ _ => by simp

theorem related_runMpzToMpq (e : Ref) : related (runMpzToMpq self e) (runMpzToMpq self' e) := by
  rw [runMpzToMpq, runMpzToMpq]
  refine congruence.bind (congruence.lift fun _ _ => by simp) fun first => ?_
  refine congruence.bind (alike first) fun value => ?_
  cases value with
  | none => exact congruence.pure none
  | some value =>
      refine congruence.bind (congruence.lift fun _ _ => by simp) fun node => ?_
      cases node with
      | int n =>
          refine congruence.bind (congruence.lift fun _ _ => ?_) fun _ => congruence.pure _
          exact keeps_writes_new (by simp)
      | _ => exact congruence.stop .undefined

theorem related_runBranch (e : Ref) (first : Nat) (condition : Bool) :
    related (runBranch self e first condition) (runBranch self' e first condition) := by
  rw [runBranch, runBranch]
  cases condition with
  | true => exact congruence.bind (congruence.lift fun _ _ => by simp) alike
  | false => exact congruence.bind (congruence.lift fun _ _ => by simp) alike

theorem related_runIfNumeral (op : Op) (e : Ref) :
    related (runIfNumeral self op e) (runIfNumeral self' op e) := by
  rw [runIfNumeral, runIfNumeral]
  refine congruence.bind (congruence.lift fun _ _ => by simp) fun first => ?_
  refine congruence.bind (alike first) fun value => ?_
  cases value with
  | none => exact congruence.pure none
  | some value =>
      refine congruence.bind (congruence.lift fun _ _ => by simp) fun condition => ?_
      cases condition with
      | none => exact congruence.pure none
      | some condition => exact related_runBranch congruence alike e 1 condition

theorem related_runSymbol (r : Ref) : related (runSymbol self r) (runSymbol self' r) := by
  rw [runSymbol, runSymbol]
  refine congruence.bind (alike r) fun value => ?_
  cases value with
  | none => exact congruence.pure none
  | some value =>
      refine congruence.bind (congruence.lift fun _ _ => by simp) fun symbolic => ?_
      cases symbolic <;> exact congruence.pure _

/-- The mark is not asked for in a call whose result will be cached. -/
theorem related_runIfMarked (e : Ref) :
    related (runIfMarked self false e) (runIfMarked self' false e) := by
  rw [runIfMarked, runIfMarked]
  refine congruence.bind (congruence.lift fun _ _ => by simp) fun first => ?_
  refine congruence.bind (related_runSymbol congruence alike first) fun value => ?_
  cases value with
  | none => exact congruence.pure none
  | some value =>
      refine congruence.bind (congruence.lift fun _ _ => by simp) fun index => ?_
      refine congruence.bind (congruence.getMark value index) fun condition => ?_
      exact related_runBranch congruence alike e 2 condition

theorem related_runCompare (e : Ref) : related (runCompare self e) (runCompare self' e) := by
  rw [runCompare, runCompare]
  refine congruence.bind (congruence.lift fun _ _ => by simp) fun first => ?_
  refine congruence.bind (related_runSymbol congruence alike first) fun left => ?_
  cases left with
  | none => exact congruence.pure none
  | some left =>
      refine congruence.bind (congruence.lift fun _ _ => by simp) fun second => ?_
      refine congruence.bind (related_runSymbol congruence alike second) fun right => ?_
      cases right with
      | none => exact congruence.pure none
      | some right =>
          refine congruence.bind (congruence.lift fun _ _ => by simp) fun condition => ?_
          exact related_runBranch congruence alike e 2 condition

theorem related_runIfEqual {fuel : Nat} {compare : Ref → Ref → StoreM Bool}
    (compared : ∀ left right,
      related (liftM (defeq fuel left right)) (liftM (compare left right))) (e : Ref) :
    related (runIfEqual fuel self e) (runIfEqualWith compare self' e) := by
  rw [runIfEqual, runIfEqualWith]
  refine congruence.bind (congruence.lift fun _ _ => by simp) fun first => ?_
  refine congruence.bind (alike first) fun left => ?_
  cases left with
  | none => exact congruence.pure none
  | some left =>
      refine congruence.bind (congruence.lift fun _ _ => by simp) fun second => ?_
      refine congruence.bind (alike second) fun right => ?_
      cases right with
      | none => exact congruence.pure none
      | some right =>
          exact congruence.bind (compared left right) fun equal =>
            related_runBranch congruence alike e 2 equal

theorem related_runMarkVar (e : Ref) : related (runMarkVar self e) (runMarkVar self' e) := by
  rw [runMarkVar, runMarkVar]
  refine congruence.bind (congruence.lift fun _ _ => by simp) fun first => ?_
  refine congruence.bind (related_runSymbol congruence alike first) fun value => ?_
  cases value with
  | none => exact congruence.pure none
  | some value =>
      refine congruence.bind (congruence.lift fun _ _ => by simp) fun index => ?_
      exact congruence.bind (congruence.toggleMark value index) fun _ => congruence.pure _

theorem related_runCase (args : List Ref) (case pat : Ref) :
    related (runCase self args case pat) (runCase self' args case pat) := by
  rw [runCase, runCase]
  refine congruence.bind (congruence.lift fun _ _ => by simp) fun ⟨ctor, vars⟩ => ?_
  simp only
  split
  · exact congruence.stop .undefined
  · refine congruence.bind (congruence.lift fun _ _ => by simp) fun prevs => ?_
    refine congruence.bind (congruence.lift fun _ _ => by simp) fun body => ?_
    refine congruence.bind (alike body) fun result => ?_
    exact congruence.bind (congruence.lift fun _ _ => by simp) fun _ => congruence.pure result

theorem related_runCases (head : Ref) (args cases : List Ref) :
    related (runCases self head args cases) (runCases self' head args cases) := by
  induction cases with
  | nil => exact congruence.pure none
  | cons case rest hyp =>
      rw [runCases, runCases]
      refine congruence.bind (congruence.lift fun _ _ => by simp) fun op => ?_
      split
      · exact alike case
      · refine congruence.bind (congruence.lift fun _ _ => by simp) fun pat => ?_
        refine congruence.bind (congruence.lift fun _ _ => by simp) fun ctor => ?_
        split
        · exact related_runCase congruence alike args case pat
        · exact hyp

theorem related_runMatch {fuel fuel' : Nat}
    (reduced : ∀ value, related (liftM (reduceScrutinee fuel value))
      (liftM (reduceScrutinee fuel' value))) (e : Ref) :
    related (runMatch fuel self e) (runMatch fuel' self' e) := by
  rw [runMatch, runMatch]
  refine congruence.bind (congruence.lift fun _ _ => by simp) fun first => ?_
  refine congruence.bind (alike first) fun value => ?_
  cases value with
  | none => exact congruence.pure none
  | some value =>
      refine congruence.bind (reduced value) fun scrut => ?_
      refine congruence.bind (congruence.lift fun _ _ => by simp) fun parts => ?_
      exact congruence.bind (congruence.lift fun _ _ => by simp) fun heap =>
        related_runCases congruence alike _ _ _

theorem related_runArgs (args : List Ref) : related (runArgs self args) (runArgs self' args) := by
  induction args with
  | nil => exact congruence.pure (some [])
  | cons arg rest hyp =>
      rw [runArgs, runArgs]
      refine congruence.bind (alike arg) fun value => ?_
      cases value with
      | none => exact congruence.pure none
      | some value =>
          refine congruence.bind hyp fun values => ?_
          cases values <;> exact congruence.pure _

end Code

section Calls

variable {related : ∀ {α : Type}, RunM α → RunM α → Prop}
  {self self' : Ref → Bool → RunM (Option Ref)}
  (alike : ∀ r useCache, related (self r useCache) (self' r useCache))

include alike

theorem related_runBody (congruence : Congruence related) (useCache : Bool) (prog : Ref)
    (prevs : List (Ref × Option Ref)) :
    related (runBody self useCache prog prevs) (runBody self' useCache prog prevs) := by
  rw [runBody, runBody]
  refine congruence.bind (congruence.lift fun _ _ => by simp) fun body => ?_
  refine congruence.bind (alike body useCache) fun result => ?_
  exact congruence.bind (congruence.lift fun _ _ => by simp) fun _ => congruence.pure result

theorem related_runFunction (congruence : CallCongruence related) (key : List Ref) (prog : Ref)
    (prevs : List (Ref × Option Ref)) :
    related (runFunction self key prog prevs) (runFunction self' key prog prevs) := by
  rw [runFunction, runFunction]
  refine congruence.bind (congruence.cached key) fun answer => ?_
  cases answer with
  | some value => exact congruence.bind (congruence.noteEvent _) fun _ => congruence.pure _
  | none =>
      refine congruence.bind (related_runBody alike congruence.toCongruence true prog prevs)
        fun result => ?_
      cases result with
      | none => exact congruence.pure none
      | some value => exact congruence.bind (congruence.cacheResult key value) fun _ =>
        congruence.pure _

end Calls

/-- A congruence that also relates the calls of functions as a whole. -/
structure FunctionCongruence (related : ∀ {α : Type}, RunM α → RunM α → Prop) : Prop extends
    Congruence related where
  noteEvent (event : RunEvent) : related (noteEvent event) (noteEvent event)
  isFunction (name : Ref) : related (isFunction name) (isFunction name)
  runFunction {self self' : Ref → Bool → RunM (Option Ref)} :
    (∀ r useCache, related (self r useCache) (self' r useCache)) →
    ∀ (key : List Ref) (prog : Ref) (prevs : List (Ref × Option Ref)),
      related (runFunction self key prog prevs) (runFunction self' key prog prevs)

theorem CallCongruence.functions {related : ∀ {α : Type}, RunM α → RunM α → Prop}
    (congruence : CallCongruence related) : FunctionCongruence related where
  toCongruence := congruence.toCongruence
  noteEvent := congruence.noteEvent
  isFunction := congruence.isFunction
  runFunction alike := related_runFunction alike congruence

section Applications

variable {related : ∀ {α : Type}, RunM α → RunM α → Prop} (congruence : FunctionCongruence related)
  {self self' : Ref → Bool → RunM (Option Ref)}
  (alike : ∀ r useCache, related (self r useCache) (self' r useCache))

include congruence alike

theorem related_runCall (useCache : Bool) (name prog : Ref) (args : List Ref) :
    related (runCall self useCache name prog args) (runCall self' useCache name prog args) := by
  rw [runCall, runCall]
  refine congruence.bind (congruence.lift fun _ _ => by simp) fun vars => ?_
  refine congruence.bind (congruence.lift fun _ _ => by simp) fun prevs => ?_
  cases prevs with
  | none => exact congruence.pure none
  | some prevs =>
      refine congruence.bind (congruence.isFunction name) fun declared => ?_
      cases declared with
      | true => exact congruence.runFunction alike (name :: args) prog prevs
      | false =>
          cases useCache with
          | true => exact congruence.bind (congruence.noteEvent _) fun _ => congruence.pure none
          | false => exact related_runBody alike congruence.toCongruence false prog prevs

theorem related_runApp (useCache : Bool) (e : Ref) :
    related (runApp self useCache e) (runApp self' useCache e) := by
  rw [runApp, runApp]
  refine congruence.bind (congruence.lift fun _ _ => by simp) fun parts => ?_
  refine congruence.bind
    (related_runArgs congruence.toCongruence (alike · useCache) parts.2) fun values => ?_
  cases values with
  | none => exact congruence.pure none
  | some values =>
      refine congruence.bind (congruence.lift fun _ _ => by simp) fun op => ?_
      split
      · exact congruence.bind (congruence.lift fun _ _ => by simp) fun _ => congruence.pure _
      · exact congruence.bind (congruence.lift fun _ _ => by simp) fun name =>
          related_runCall congruence alike useCache name parts.1 values

end Applications

/-! ## Evaluators -/

/-- `run_code_internal` on an expression with an operator, with some comparison. -/
def runCExprWith (compare : Ref → Ref → StoreM Bool) (fuel : Nat)
    (self : Ref → Bool → RunM (Option Ref)) (useCache : Bool) (op : Op) (e : Ref) :
    RunM (Option Ref) :=
  match op with
  | .ifequal => runIfEqualWith compare (self · useCache) e
  | _ => runCExpr fuel self useCache op e

theorem runCExprWith_defeq (fuel : Nat) (self : Ref → Bool → RunM (Option Ref)) (useCache : Bool)
    (op : Op) (e : Ref) :
    runCExprWith (defeq fuel) fuel self useCache op e = runCExpr fuel self useCache op e := by
  cases op <;> rfl

theorem related_runCExpr {related : ∀ {α : Type}, RunM α → RunM α → Prop}
    (congruence : FunctionCongruence related) {self self' : Ref → Bool → RunM (Option Ref)}
    (alike : ∀ r useCache, related (self r useCache) (self' r useCache)) {fuel fuel' : Nat}
    {compare : Ref → Ref → StoreM Bool}
    (reduced : ∀ value, related (liftM (reduceScrutinee fuel value))
      (liftM (reduceScrutinee fuel' value)))
    (compared : ∀ left right,
      related (liftM (defeq fuel left right)) (liftM (compare left right)))
    (useCache : Bool) (op : Op) (e : Ref) :
    related (runCExpr fuel self useCache op e)
    (runCExprWith compare fuel' self' useCache op e) := by
  have steps := congruence.toCongruence
  have inner : ∀ r, related (self r useCache) (self' r useCache) := (alike · useCache)
  cases op with
  | do_ => exact related_runDo steps inner e
  | let_ => exact related_runLet steps inner e
  | add | mul | div => exact related_runArith steps inner _ e
  | neg => exact related_runNeg steps inner e
  | mpzToMpq => exact related_runMpzToMpq steps inner e
  | ifneg | ifzero => exact related_runIfNumeral steps inner _ e
  | ifmarked =>
      cases useCache with
      | true => exact congruence.bind (congruence.noteEvent _) fun _ => congruence.pure none
      | false => exact related_runIfMarked steps inner e
  | compare => exact related_runCompare steps inner e
  | ifequal => exact related_runIfEqual steps inner compared e
  | markvar => exact related_runMarkVar steps inner e
  | match_ => exact related_runMatch steps inner reduced e
  | app => exact related_runApp congruence alike useCache e
  | _ => exact congruence.pure none

/-- `run_code_internal`, with some comparison for `ifequal`. -/
def runCodeWith (compare : Nat → Ref → Ref → StoreM Bool) : Nat → Ref → Bool → RunM (Option Ref)
  | 0, _, _ => outOfFuel
  | fuel + 1, e, useCache => do
      match ← load e with
      | .cexpr op _ _ => runCExprWith (compare fuel) fuel (runCodeWith compare fuel) useCache op e
      | _ => runLeaf e

/-- Evaluators with related comparisons are related. -/
theorem related_runCodeWith {related : ∀ {α : Type}, RunM α → RunM α → Prop}
    (congruence : FunctionCongruence related) (compare : Nat → Ref → Ref → StoreM Bool)
    (compared : ∀ fuel left right,
      related (liftM (defeq fuel left right)) (liftM (compare fuel left right)))
    (fuel : Nat) (e : Ref) (useCache : Bool) :
    related (runCodeInternal fuel e useCache) (runCodeWith compare fuel e useCache) := by
  induction fuel generalizing e useCache with
  | zero => exact congruence.stop .fuel
  | succ fuel hyp =>
      rw [runCodeInternal, runCodeWith]
      refine congruence.bind (congruence.lift fun _ _ => by simp) fun node => ?_
      have reduced : ∀ value, related (liftM (reduceScrutinee fuel value))
          (liftM (reduceScrutinee fuel value)) := fun _ => congruence.lift fun _ _ => by simp
      cases node with
      | cexpr op kids flag => exact related_runCExpr congruence hyp reduced (compared fuel) _ op e
      | _ => exact congruence.lift fun _ _ => by simp

end Lfsc
