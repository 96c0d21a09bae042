import Lfsc.Store

/-!
# Expressions: heads, copies, reduction, comparison and occurrence

The functions of `expr.cpp` on the expression store.  A function that recurses in the source takes
a bound on the recursion depth first; where its body is long it is cut into definitions over the
recursive call `self`.
-/

namespace Lfsc

/-! ## Applications -/

/-- `Expr::collect_args`: the head of an application, through definitions if `followed`, and its
arguments.  An expression that is no application has no arguments. -/
def collectArgs (r : Ref) (followed : Bool) : StoreM (Ref × List Ref) := do
  let (head, args) ←
    match ← load r with
    | .cexpr .app kids _ => pure (← deref kids[0]?, kids.drop 1)
    | _ => pure (r, [])
  if followed then return (← follow head, args) else return (head, args)

/-- `Expr::get_head` through at most `steps` nested applications. -/
def headWithin (followed : Bool) : Nat → Ref → StoreM Ref
  | steps, r => do
      if (← getop r) = some .app then
        let first ← kid r 0
        let next ← if followed then follow first else pure first
        match steps with
        | 0 => outOfFuel
        | steps + 1 => headWithin followed steps next
      else return r

theorem headWithin_eq (followed : Bool) (steps : Nat) (r : Ref) :
    headWithin followed steps r = do
      if (← getop r) = some .app then
        let first ← kid r 0
        let next ← if followed then follow first else pure first
        match steps with
        | 0 => outOfFuel
        | steps + 1 => headWithin followed steps next
      else return r := by
  cases steps <;> rfl

/-- `Expr::get_head`.  Heads that do not come back to an application already passed end after at
most as many steps as there are objects; otherwise the function does not return. -/
def getHead (r : Ref) (followed : Bool) : StoreM Ref := do
  headWithin followed (← getHeap).length r

/-- `Expr::build_app` on the arguments from `start` on, which the caller has dropped already. -/
def buildApp (head : Ref) (args : List Ref) : StoreM Ref :=
  match args with
  | [] => return head
  | _ => new (.cexpr .app (head :: args) false)

/-- `Expr::make_app`: any `CExpr` is extended as if it were an application. -/
def makeApp (head : Ref) (arg : Option Ref) : StoreM Ref := do
  match ← load head with
  | .cexpr _ kids _ => newCExpr .app (kids.map some ++ [arg])
  | _ => newCExpr .app [some head, arg]

/-! ## Copying -/

/-- `Expr::clone` of an abstraction body: the binder stands for `newvar` meanwhile. -/
def cloneUnder (self : Ref → StoreM Ref) (var newvar body : Ref) : StoreM Ref := do
  let prev ← symVal var
  setSymVal var (some newvar)
  let copy ← self body
  setSymVal var prev
  return copy

/-- `Expr::clone`. -/
def clone : Nat → Ref → StoreM Ref
  | 0, _ => outOfFuel
  | fuel + 1, r => do
      match ← load r with
      | .int _ | .rat _ => return r
      | .sym _ (some val) =>
          if (← getop val) ≠ some .prog then clone fuel val else return r
      | .hole (some val) => clone fuel val
      | .sym _ none | .hole none => return r
      | .cexpr .lam _ flag =>
          let var ← kid r 0
          let newvar ← newSym (← symName var)
          let body ← cloneUnder (clone fuel) var newvar (← kid r 1)
          new (.cexpr .lam [newvar, body] flag)
      | .cexpr .pi _ flag =>
          let var ← kid r 0
          let newvar ← newSym (← symName var)
          let domain ← clone fuel (← kid r 1)
          let body ← cloneUnder (clone fuel) var newvar (← kid r 2)
          new (.cexpr .pi [newvar, domain, body] flag)
      | .cexpr op kids _ =>
          let copies ← kids.mapM (clone fuel)
          if copies ≠ kids then new (.cexpr op copies false) else return r

/-! ## Weak head reduction -/

/-- The loop of `CExpr::whr`: assign the binders of the head one argument after the other, and
return the remaining body with the remaining arguments. -/
def assignBinders (head : Ref) : List Ref → StoreM (Ref × List Ref)
  | [] => Exec.stop .undefined
  | arg :: rest => do
      let value ← follow arg
      setSymVal (← kid head 0) (some value)
      let body ← kid head 1
      if (← getop body) = some .lam ∧ rest ≠ [] then assignBinders body rest
      else return (body, rest)

/-- `CExpr::whr`: the head is reduced in place the first time it is met, and cloned from then on. -/
def whr (fuel : Nat) (r : Ref) : StoreM Ref := do
  if (← getop (← getHead r true)) = some .lam then
    let (head, args) ← collectArgs r true
    let head ← if ← getFlag head then clone fuel head
      else do
        setFlag head true
        pure head
    let (body, rest) ← assignBinders head args
    buildApp body rest
  else return r

/-! ## Definitional equality -/

/-- Fill an unfilled hole with an expression, followed through definitions. -/
def fillHole (hole value : Ref) : StoreM Unit := do setHoleVal hole (← follow value)

/-- The first switch of `Expr::defeq`, on the left operand: the result if it is decided there.
An application of a hole fills it only if every argument is of class `SYM_EXPR`, and no object
has that class. -/
def defeqLeft (fuel : Nat) (self : Ref → Ref → StoreM Bool) (this e : Ref) :
    StoreM (Option Bool) := do
  match ← load this with
  | .cexpr .ascribe _ _ => return some (← self (← kid this 0) e)
  | .cexpr .app _ _ =>
      let reduct ← whr fuel this
      if reduct ≠ this then return some (← self reduct e)
      else
        match ← load (← getHead this true) with
        | .hole _ =>
            let (head, args) ← collectArgs this true
            if args = [] then
              setHoleVal head e
              return some true
            else return some false
        | _ => return none
  | .hole (some val) => return some (← self val e)
  | .hole none =>
      fillHole this e
      return some true
  | .sym _ (some val) => return some (← self val e)
  | _ => return none

/-- The second switch of `Expr::defeq`, on the right operand. -/
def defeqRight (fuel : Nat) (self : Ref → Ref → StoreM Bool) (this e : Ref) :
    StoreM (Option Bool) := do
  match ← load e with
  | .cexpr .ascribe _ _ => return some (← self this (← kid e 0))
  | .cexpr .app _ _ =>
      let reduct ← whr fuel e
      if reduct ≠ e then return some (← self this reduct) else return none
  | .hole (some val) => return some (← self this val)
  | .hole none =>
      fillHole e this
      return some true
  | .sym _ (some val) => return some (← self this val)
  | _ => return none

/-- The comparison of two leaves in `Expr::defeq`, which looks at the class of the left one only:
a numeral read from an object of another class is undefined. -/
def defeqLeaves (this e : Ref) : StoreM Bool := do
  match ← load this, ← load e with
  | .int left, .int right => return left = right
  | .rat left, .rat right => return left = right
  | .sym _ _, _ => return this = e
  | .hole _, _ => Exec.stop .abort
  | _, _ => Exec.stop .undefined

/-- The comparison of two abstraction bodies in `Expr::defeq`: the binder of the left operand stands
for that of the right one meanwhile. -/
def defeqUnder (self : Ref → Ref → StoreM Bool) (this e : Ref) (last : Nat) : StoreM Bool := do
  let var ← kid this 0
  let prev ← symVal var
  setSymVal var (some (← follow (← kid e 0)))
  let equal ← self (← kid this last) (← kid e last)
  setSymVal var prev
  return equal

/-- The optimization of `Expr::defeq` after two children compared equal: one replaces the other. -/
def shareKid (this e : Ref) (counter : Nat) : StoreM Unit := do
  let left ← kid this counter
  let right ← kid e counter
  let symbolic : Node → Bool := fun node => node matches .sym ..
  let keepRight ←
    if symbolic (← load right) then pure true
    else if symbolic (← load left) then pure false
    else hasFewerRefs
  if keepRight then setKid this counter right else setKid e counter left

/-- The loop of `Expr::defeq` over the children of two applications; `remaining` children of the
left one are still to be compared. -/
def defeqKids (self : Ref → Ref → StoreM Bool) (this e : Ref) : Nat → Nat → StoreM Bool
  | 0, counter => return (← kid? e counter) = none
  | remaining + 1, counter => do
      let left ← kid this counter
      match ← kid? e counter with
      | none => return false
      | some right =>
          if left = right then defeqKids self this e remaining (counter + 1)
          else if ← self left right then
            shareKid this e counter
            defeqKids self this e remaining (counter + 1)
          else return false

/-- The end of `Expr::defeq`, once both operands are known to have the same operator. -/
def defeqSame (self : Ref → Ref → StoreM Bool) (this e : Ref) : StoreM Bool := do
  match ← getop this with
  | none => defeqLeaves this e
  | some .pi =>
      if ← self (← kid this 1) (← kid e 1) then defeqUnder self this e 2 else return false
  | some .lam => defeqUnder self this e 1
  | some .app => defeqKids self this e (kidsAt (← getHeap) this).length 0
  | some .type | some .kind | some .mpz => return true
  | some _ => Exec.stop .abort

/-- `Expr::defeq`. -/
def defeq : Nat → Ref → Ref → StoreM Bool
  | 0, _, _ => outOfFuel
  | fuel + 1, this, e => do
      if this = e then return true
      match ← defeqLeft fuel (defeq fuel) this e with
      | some decided => return decided
      | none =>
          match ← defeqRight fuel (defeq fuel) this e with
          | some decided => return decided
          | none =>
              if (← getop this) ≠ (← getop e) then return false
              else defeqSame (defeq fuel) this e

/-! ## Occurrence -/

/-- The loop of `Expr::_free_in` over the children, with the set of visited objects. -/
def anyFreeIn (self : Ref → List Ref → StoreM (Bool × List Ref)) :
    List Ref → List Ref → StoreM (Bool × List Ref)
  | [], visited => return (false, visited)
  | kid :: rest, visited => do
      let (found, visited) ← self kid visited
      if found then return (true, visited) else anyFreeIn self rest visited

/-- `Expr::_free_in`, which answers false on an object visited before. -/
def freeInFrom (x : Ref) : Nat → Ref → List Ref → StoreM (Bool × List Ref)
  | 0, _, _ => outOfFuel
  | fuel + 1, r, visited => do
      if r ∈ visited then return (false, visited)
      match ← load r with
      | .hole (some val) => freeInFrom x fuel val visited
      | .hole none => return (r = x, visited)
      | .sym _ (some val) =>
          match ← load val with
          | .hole _ => freeInFrom x fuel val visited
          | _ => return (r = x, visited)
      | .sym _ none => return (r = x, visited)
      | .int _ | .rat _ => return (false, visited)
      | .cexpr op kids _ =>
          if (op = .lam ∨ op = .pi) ∧ kids[0]? = some x then return (false, visited)
          else anyFreeIn (freeInFrom x fuel) kids (r :: visited)

/-- `Expr::free_in`. -/
def freeIn (fuel : Nat) (r x : Ref) : StoreM Bool := do return (← freeInFrom x fuel r []).1

open Exec

theorem keeps_anyFreeIn {self : Ref → List Ref → StoreM (Bool × List Ref)}
    (step : ∀ r visited, Keeps Eq (self r visited)) (kids visited : List Ref) :
    Keeps Eq (anyFreeIn self kids visited) := by
  induction kids generalizing visited with
  | nil =>
      intro before result after run
      exact (run_pure_ok.mp run).2
  | cons kid rest hyp =>
      unfold anyFreeIn
      refine keeps_bind (step kid visited) fun result => ?_
      exact keeps_ite (keeps_pure _) (hyp _)

/-- Testing for an occurrence leaves the store as it is. -/
theorem keeps_freeInFrom (x : Ref) (fuel : Nat) (r : Ref) (visited : List Ref) :
    Keeps Eq (freeInFrom x fuel r visited) := by
  induction fuel generalizing r visited with
  | zero => exact keeps_stop _
  | succ fuel hyp =>
      unfold freeInFrom
      refine keeps_ite (keeps_pure _) ?_
      refine keeps_bind keeps_load fun node => ?_
      split
      · exact hyp _ _
      · exact keeps_pure _
      · refine keeps_bind keeps_load fun value => ?_
        split
        · exact hyp _ _
        · exact keeps_pure _
      · exact keeps_pure _
      · exact keeps_pure _
      · exact keeps_pure _
      · split
        · exact keeps_pure _
        · exact keeps_anyFreeIn hyp _ _

theorem keeps_freeIn (fuel : Nat) (r x : Ref) : Keeps Eq (freeIn fuel r x) := by
  unfold freeIn
  exact keeps_bind (keeps_freeInFrom x fuel r []) fun _ => keeps_pure _

/-- `Expr::calc_free_in`: the flag of a pi tells whether its variable occurs in its range. -/
def calcFreeIn (fuel : Nat) (r : Ref) : StoreM Unit := do
  let range ← kid r 2
  setFlag r (← freeIn fuel range (← kid r 0))

/-- The loop of `Expr::isType` through at most `steps` pi abstractions. -/
def isTypeWithin (statType : Ref) : Nat → Ref → StoreM Bool
  | steps, r => do
      if r = statType then return true
      if (← getop r) = some .pi then
        let range ← kid r 2
        match steps with
        | 0 => outOfFuel
        | steps + 1 => isTypeWithin statType steps range
      else return false

/-- `Expr::isType`, with the expression for `type`. -/
def isType (r statType : Ref) : StoreM Bool := do isTypeWithin statType (← getHeap).length r

end Lfsc
