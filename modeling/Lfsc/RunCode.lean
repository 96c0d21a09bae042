import Lfsc.Expr

/-!
# Running side-condition code

`run_code_internal` evaluates code with the environment kept in the `val` fields of parameters,
pattern variables and `let` variables.  A null result, here `none`, is failure.  Compiled side
conditions (`run_scc`) and the printing of runs are left out.
-/

namespace Lfsc

/-! ## The state of the evaluator -/

/-- Branches of the evaluator that later results refer to.  The program itself keeps no such record
and nothing in the model reads it. -/
inductive RunEvent
  /-- A call was answered from the cache. -/
  | answered (key : List Ref)
  /-- Within a call whose result will be cached, an `ifmarked` or the call of a program that is not
  declared with `function` failed. -/
  | refused
  deriving DecidableEq, Repr

/-- The state that side conditions work on. -/
structure Runtime where
  /-- The expressions. -/
  store : Store
  /-- `mark_map`: which of the 32 marks of a symbol are set. -/
  marks : Ref → Nat → Bool
  /-- `progFunctions`: the programs declared with `function`. -/
  progFunctions : List Ref
  /-- The `ExprTrie` of the current call of `run_code`: keys with data. -/
  cache : List (List Ref × Ref)
  /-- The branches taken, latest last. -/
  events : List RunEvent

/-- Computations of the evaluator. -/
abbrev RunM (α : Type) : Type := Exec Runtime Stop α

/-- Run a computation on the expressions. -/
def inStore {α : Type} (m : StoreM α) : RunM α :=
  Exec.zoom Runtime.store (fun store runtime => { runtime with store }) m

instance : MonadLift (Exec Store Stop) (Exec Runtime Stop) := ⟨inStore⟩

/-- Record a branch. -/
def noteEvent (event : RunEvent) : RunM Unit :=
  modify fun runtime => { runtime with events := runtime.events ++ [event] }

/-! ## Values and marks -/

/-- Assign values back to symbols in the order given. -/
def restoreVals : List (Ref × Option Ref) → StoreM Unit
  | [] => return ()
  | (var, prev) :: rest => do
      setSymVal var prev
      restoreVals rest

/-- Whether an expression is a symbol, the operands `markvar`, `ifmarked` and `compare` accept. -/
def isSymbolic (r : Ref) : StoreM Bool := do
  match ← load r with
  | .sym _ _ => return true
  | _ => return false

/-- Assign variables in turn, returning the values they had. -/
def assignVars : List (Ref × Ref) → StoreM (List (Ref × Option Ref))
  | [] => return []
  | (var, value) :: rest => do
      let old ← symVal var
      setSymVal var (some value)
      return (var, old) :: (← assignVars rest)

/-- The index of a mark operation, `get_num` of its first child. -/
def markOf (e : Ref) : StoreM Nat := do
  match ← load (← kid e 0) with
  | .int value => return value.natAbs
  | _ => Exec.stop .undefined

/-- The comparison of two addresses in `compare`. -/
def precedes (left right : Ref) : StoreM Bool := do return (← get).before left right

/-- `getmark`. -/
def getMark (r : Ref) (index : Nat) : RunM Bool := do return (← get).marks r index

/-- `setmark` and `clearmark`: toggle a mark. -/
def toggleMark (r : Ref) (index : Nat) : RunM Unit :=
  modify fun runtime =>
    { runtime with
      marks := Function.update runtime.marks r
        (Function.update (runtime.marks r) index (!runtime.marks r index)) }

/-- A leaf in `run_code_internal`: its value, and an error on an unfilled hole. -/
def runLeaf (e : Ref) : StoreM (Option Ref) := do
  match ← load e with
  | .hole _ =>
      let value ← follow e
      if value = e then report "Encountered an unfilled hole running code."
      return some value
  | .sym _ _ => return some (← follow e)
  | _ => return some e

/-- The value of an arithmetic operation on integers, `none` for a division by zero. -/
def intArith (op : Op) (left right : Int) : Option Int :=
  match op with
  | .add => some (left + right)
  | .mul => some (left * right)
  | _ => if right = 0 then none else some (left.fdiv right)

/-- The value of an arithmetic operation on rationals, `none` for a division by zero. -/
def ratArith (op : Op) (left right : Rat) : Option Rat :=
  match op with
  | .add => some (left + right)
  | .mul => some (left * right)
  | _ => if right = 0 then none else some (left / right)

/-- An arithmetic operation of `run_code_internal` on two values. -/
def arithmetic (op : Op) (left right : Ref) : StoreM (Option Ref) := do
  match ← load left, ← load right with
  | .int m, .int n =>
      match intArith op m n with
      | some value => return some (← new (.int value))
      | none => return none
  | .rat p, .rat q =>
      match ratArith op p q with
      | some value => return some (← new (.rat value))
      | none => return none
  | _, _ => return none

/-- `mp_neg` of `run_code_internal` on a value. -/
def negation (r : Ref) : StoreM (Option Ref) := do
  match ← load r with
  | .int value => return some (← new (.int (-value)))
  | .rat value => return some (← new (.rat (-value)))
  | _ => return none

/-- The condition of `mp_ifneg` and `mp_ifzero` on a value, `none` if it is no numeral. -/
def numeralTest (op : Op) (r : Ref) : StoreM (Option Bool) := do
  match ← load r with
  | .int value => return some (if op = .ifneg then value < 0 else value = 0)
  | .rat value => return some (if op = .ifneg then value < 0 else value = 0)
  | _ => return none

/-- The body of a case that fires, with the variables of its pattern assigned to the arguments of
the scrutinee meanwhile; they get their old values back in the same order. -/
def runCase (self : Ref → RunM (Option Ref)) (args : List Ref) (case pat : Ref) :
    RunM (Option Ref) := do
  let (_, vars) ← collectArgs pat true
  if vars.length < args.length then Exec.stop .undefined
  else
    let prevs ← assignVars (vars.zip args)
    let result ← self (← kid case 1)
    restoreVals prevs
    return result

/-- The loop of `run_code_internal` over the cases of a `match`, on the head and the arguments of
the scrutinee. -/
def runCases (self : Ref → RunM (Option Ref)) (head : Ref) (args : List Ref) :
    List Ref → RunM (Option Ref)
  | [] => return none
  | case :: rest => do
      if (← getop case) ≠ some .case_ then self case
      else
        let pat ← kid case 0
        if head = (← getHead pat true) then runCase self args case pat
        else runCases self head args rest

/-- The scrutinee of a `match` in weak head normal form. -/
def reduceScrutinee (fuel : Nat) (value : Ref) : StoreM Ref := do
  match ← load value with
  | .cexpr _ _ _ => whr fuel value
  | _ => return value

/-- `run_code_internal` on a `match`. -/
def runMatch (fuel : Nat) (self : Ref → RunM (Option Ref)) (e : Ref) :
    RunM (Option Ref) := do
  match ← self (← kid e 0) with
  | none => return none
  | some value =>
      let (head, args) ← collectArgs (← reduceScrutinee fuel value) true
      runCases self head args ((kidsAt (← getHeap) e).drop 1)

/-- Evaluate arguments from left to right, failing at the first that fails. -/
def runArgs (self : Ref → RunM (Option Ref)) : List Ref → RunM (Option (List Ref))
  | [] => return some []
  | arg :: rest => do
      match ← self arg with
      | none => return none
      | some value =>
          match ← runArgs self rest with
          | none => return none
          | some values => return some (value :: values)

/-- The loop of `run_code_internal` that assigns the parameters of a program: the old values, or
`none` when the number of arguments is wrong, with the parameters assigned so far kept. -/
def assignParams : List Ref → List Ref → StoreM (Option (List (Ref × Option Ref)))
  | [], [] => return some []
  | var :: vars, arg :: args => do
      let old ← symVal var
      setSymVal var (some arg)
      match ← assignParams vars args with
      | none => return none
      | some prevs => return some ((var, old) :: prevs)
  | _, _ => return none

/-- `ExprTrie::get` and `getData`. -/
def cached (key : List Ref) : RunM (Option Ref) := do return (← get).cache.lookup key

/-- `ExprTrie::setData`. -/
def cacheResult (key : List Ref) (value : Ref) : RunM Unit :=
  modify fun runtime => { runtime with cache := (key, value) :: runtime.cache }

/-- The parameters of a program. -/
def paramsOf (prog : Ref) : StoreM (List Ref) := do
  match ← load (← kid prog 1) with
  | .cexpr _ kids _ => return kids
  | _ => Exec.stop .undefined

/-- The body of a program in `run_code_internal`, after which the parameters get their old values
back. -/
def runBody (self : Ref → Bool → RunM (Option Ref)) (useCache : Bool) (prog : Ref)
    (prevs : List (Ref × Option Ref)) : RunM (Option Ref) := do
  let result ← self (← kid prog 2) useCache
  restoreVals prevs
  return result

/-- Whether a program is declared with `function`. -/
def isFunction (name : Ref) : RunM Bool := do return name ∈ (← get).progFunctions

/-- The call of a function in `run_code_internal`.  A call answered from the cache returns at once,
with the parameters left assigned. -/
def runFunction (self : Ref → Bool → RunM (Option Ref)) (key : List Ref) (prog : Ref)
    (prevs : List (Ref × Option Ref)) : RunM (Option Ref) := do
  match ← cached key with
  | some value =>
      noteEvent (.answered key)
      return some value
  | none =>
      match ← runBody self true prog prevs with
      | some value =>
          cacheResult key value
          return some value
      | none => return none

/-- The call of a program in `run_code_internal` on evaluated arguments. -/
def runCall (self : Ref → Bool → RunM (Option Ref)) (useCache : Bool) (name prog : Ref)
    (args : List Ref) : RunM (Option Ref) := do
  match ← assignParams (← paramsOf prog) args with
  | none => return none
  | some prevs =>
      if ← isFunction name then runFunction self (name :: args) prog prevs
      else if useCache then
        noteEvent .refused
        return none
      else runBody self false prog prevs

/-- `run_code_internal` on an application. -/
def runApp (self : Ref → Bool → RunM (Option Ref)) (useCache : Bool) (e : Ref) :
    RunM (Option Ref) := do
  let (head, args) ← collectArgs e true
  match ← runArgs (self · useCache) args with
  | none => return none
  | some values =>
      if (← getop head) ≠ some .prog then return some (← buildApp head values)
      else runCall self useCache (← getHead e false) head values

/-- `run_code_internal` on a `do`. -/
def runDo (self : Ref → RunM (Option Ref)) (e : Ref) : RunM (Option Ref) := do
  match ← self (← kid e 0) with
  | none => return none
  | some _ => self (← kid e 1)

/-- `run_code_internal` on an `@`. -/
def runLet (self : Ref → RunM (Option Ref)) (e : Ref) : RunM (Option Ref) := do
  match ← self (← kid e 1) with
  | none => return none
  | some value =>
      let prevs ← assignVars [(← kid e 0, value)]
      let result ← self (← kid e 2)
      restoreVals prevs
      return result

/-- `run_code_internal` on an `mp_add`, `mp_mul` or `mp_div`. -/
def runArith (self : Ref → RunM (Option Ref)) (op : Op) (e : Ref) : RunM (Option Ref) := do
  match ← self (← kid e 0) with
  | none => return none
  | some left =>
      match ← self (← kid e 1) with
      | none => return none
      | some right => arithmetic op left right

/-- `run_code_internal` on an `mp_neg`. -/
def runNeg (self : Ref → RunM (Option Ref)) (e : Ref) : RunM (Option Ref) := do
  match ← self (← kid e 0) with
  | none => return none
  | some value => negation value

/-- `run_code_internal` on an `mpz_to_mpq`, which reads its operand as an integer. -/
def runMpzToMpq (self : Ref → RunM (Option Ref)) (e : Ref) : RunM (Option Ref) := do
  match ← self (← kid e 0) with
  | none => return none
  | some value =>
      match ← load value with
      | .int n => return some (← new (.rat n))
      | _ => Exec.stop .undefined

/-- One of two branches of a conditional. -/
def runBranch (self : Ref → RunM (Option Ref)) (e : Ref) (first : Nat) (condition : Bool) :
    RunM (Option Ref) := do
  if condition then self (← kid e first) else self (← kid e (first + 1))

/-- `run_code_internal` on an `mp_ifneg` or `mp_ifzero`. -/
def runIfNumeral (self : Ref → RunM (Option Ref)) (op : Op) (e : Ref) :
    RunM (Option Ref) := do
  match ← self (← kid e 0) with
  | none => return none
  | some value =>
      match ← numeralTest op value with
      | none => return none
      | some condition => runBranch self e 1 condition

/-- `run_code_internal` on an expression that has to evaluate to a symbol. -/
def runSymbol (self : Ref → RunM (Option Ref)) (r : Ref) : RunM (Option Ref) := do
  match ← self r with
  | none => return none
  | some value => if ← isSymbolic value then return some value else return none

/-- `run_code_internal` on an `ifmarked`, which fails in a call whose result will be cached. -/
def runIfMarked (self : Ref → RunM (Option Ref)) (useCache : Bool) (e : Ref) :
    RunM (Option Ref) := do
  if useCache then
    noteEvent .refused
    return none
  else
    match ← runSymbol self (← kid e 1) with
    | none => return none
    | some value => runBranch self e 2 (← getMark value (← markOf e))

/-- `run_code_internal` on a `compare`. -/
def runCompare (self : Ref → RunM (Option Ref)) (e : Ref) : RunM (Option Ref) := do
  match ← runSymbol self (← kid e 0) with
  | none => return none
  | some left =>
      match ← runSymbol self (← kid e 1) with
      | none => return none
      | some right => runBranch self e 2 (← precedes left right)

/-- `run_code_internal` on an `ifequal`. -/
def runIfEqual (fuel : Nat) (self : Ref → RunM (Option Ref)) (e : Ref) :
    RunM (Option Ref) := do
  match ← self (← kid e 0) with
  | none => return none
  | some left =>
      match ← self (← kid e 1) with
      | none => return none
      | some right => runBranch self e 2 (← defeq fuel left right)

/-- `run_code_internal` on a `markvar`. -/
def runMarkVar (self : Ref → RunM (Option Ref)) (e : Ref) : RunM (Option Ref) := do
  match ← runSymbol self (← kid e 1) with
  | none => return none
  | some value =>
      toggleMark value (← markOf e)
      return some value

/-- `run_code_internal` on an expression with an operator. -/
def runCExpr (fuel : Nat) (self : Ref → Bool → RunM (Option Ref)) (useCache : Bool) (op : Op)
    (e : Ref) : RunM (Option Ref) :=
  match op with
  | .do_ => runDo (self · useCache) e
  | .let_ => runLet (self · useCache) e
  | .add | .mul | .div => runArith (self · useCache) op e
  | .neg => runNeg (self · useCache) e
  | .mpzToMpq => runMpzToMpq (self · useCache) e
  | .ifneg | .ifzero => runIfNumeral (self · useCache) op e
  | .ifmarked => runIfMarked (self · useCache) useCache e
  | .compare => runCompare (self · useCache) e
  | .ifequal => runIfEqual fuel (self · useCache) e
  | .markvar => runMarkVar (self · useCache) e
  | .match_ => runMatch fuel (self · useCache) e
  | .app => runApp self useCache e
  | _ => return none

/-- `run_code_internal`. -/
def runCodeInternal : Nat → Ref → Bool → RunM (Option Ref)
  | 0, _, _ => outOfFuel
  | fuel + 1, e, useCache => do
      match ← load e with
      | .cexpr op _ _ => runCExpr fuel (runCodeInternal fuel) useCache op e
      | _ => runLeaf e

/-- `run_code`, with a cache of its own. -/
def runCode (fuel : Nat) (e : Ref) : RunM (Option Ref) := do
  modify fun runtime => { runtime with cache := [] }
  runCodeInternal fuel e false

/-! ## Returning runs -/

open Exec

/-- A computation on expressions that returns. -/
theorem run_lift_ok {α : Type} {m : StoreM α} {value : α} {before after : Runtime} :
    (liftM m : RunM α).run before = .ok (value, after) ↔
      ∃ store, m.run before.store = .ok (value, store) ∧ { before with store } = after :=
  run_zoom_ok

theorem run_isFunction_ok {name : Ref} {verdict : Bool} {before after : Runtime} :
    (isFunction name).run before = .ok (verdict, after) ↔
      before = after ∧ decide (name ∈ before.progFunctions) = verdict := by
  constructor
  · intro run
    obtain ⟨rfl, rfl⟩ : decide (name ∈ before.progFunctions) = verdict ∧ before = after := by
      simpa [isFunction, run_bind_ok] using run
    exact ⟨rfl, rfl⟩
  · rintro ⟨rfl, rfl⟩
    rfl

end Lfsc
