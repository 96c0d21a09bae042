import Lfsc.Rationals

/-!
# Runs of code over canonical fractions

The evaluator of code with every rational kept as a canonical `mpq_t` and every operation of GMP
written out.  It runs exactly as the one over rational numbers does: no operation divides by zero,
and every object that it makes is canonical.
-/

namespace Lfsc

open Exec

namespace Gmp

/-! ## Comparisons -/

/-- The end of `Expr::defeq`, once both operands are known to have the same operator. -/
def defeqSame (self : Ref → Ref → StoreM Bool) (this e : Ref) : StoreM Bool := do
  match ← getop this with
  | none => defeqLeaves this e
  | some .pi =>
      if ← self (← kid this 1) (← kid e 1) then defeqUnder self this e 2 else return false
  | some .lam => defeqUnder self this e 1
  | some .app => defeqKids self this e (kidsAt (← getHeap) this).length 0
  | some .type | some .kind | some .mpz => return true
  | some _ => Exec.stop .abort

/-- `Expr::defeq`. -/
def defeq : Nat → Ref → Ref → StoreM Bool
  | 0, _, _ => outOfFuel
  | fuel + 1, this, e => do
      if this = e then return true
      match ← defeqLeft fuel (defeq fuel) this e with
      | some decided => return decided
      | none =>
          match ← defeqRight fuel (defeq fuel) this e with
          | some decided => return decided
          | none =>
              if (← getop this) ≠ (← getop e) then return false
              else defeqSame (defeq fuel) this e

theorem defeqSame_eq (self : Ref → Ref → StoreM Bool) (this e : Ref) :
    defeqSame self this e = Lfsc.defeqSame self this e := by
  unfold defeqSame Lfsc.defeqSame
  rw [defeqLeaves_eq]
  try rfl

theorem defeq_eq (fuel : Nat) : defeq fuel = Lfsc.defeq fuel := by
  induction fuel with
  | zero => rfl
  | succ fuel hyp =>
      funext this e
      rw [defeq, Lfsc.defeq, hyp]
      simp only [defeqSame_eq]
      try rfl

/-! ## Code -/

/-- `run_code_internal` on an `mp_add`, `mp_mul` or `mp_div`. -/
def runArith (self : Ref → RunM (Option Ref)) (op : Op) (e : Ref) : RunM (Option Ref) := do
  match ← self (← kid e 0) with
  | none => return none
  | some left =>
      match ← self (← kid e 1) with
      | none => return none
      | some right => arithmetic op left right

/-- `run_code_internal` on an `mp_neg`. -/
def runNeg (self : Ref → RunM (Option Ref)) (e : Ref) : RunM (Option Ref) := do
  match ← self (← kid e 0) with
  | none => return none
  | some value => negation value

/-- `run_code_internal` on an `mp_ifneg` or `mp_ifzero`. -/
def runIfNumeral (self : Ref → RunM (Option Ref)) (op : Op) (e : Ref) :
    RunM (Option Ref) := do
  match ← self (← kid e 0) with
  | none => return none
  | some value =>
      match ← numeralTest op value with
      | none => return none
      | some condition => runBranch self e 1 condition

/-- `run_code_internal` on an `ifequal`. -/
def runIfEqual (fuel : Nat) (self : Ref → RunM (Option Ref)) (e : Ref) :
    RunM (Option Ref) := do
  match ← self (← kid e 0) with
  | none => return none
  | some left =>
      match ← self (← kid e 1) with
      | none => return none
      | some right => runBranch self e 2 (← defeq fuel left right)

/-- `run_code_internal` on an expression with an operator. -/
def runCExpr (fuel : Nat) (self : Ref → Bool → RunM (Option Ref)) (useCache : Bool) (op : Op)
    (e : Ref) : RunM (Option Ref) :=
  match op with
  | .add | .mul | .div => runArith (self · useCache) op e
  | .neg => runNeg (self · useCache) e
  | .mpzToMpq => runMpzToMpq (self · useCache) e
  | .ifneg | .ifzero => runIfNumeral (self · useCache) op e
  | .ifequal => runIfEqual fuel (self · useCache) e
  | _ => Lfsc.runCExpr fuel self useCache op e

/-- `run_code_internal`. -/
def runCodeInternal : Nat → Ref → Bool → RunM (Option Ref)
  | 0, _, _ => outOfFuel
  | fuel + 1, e, useCache => do
      match ← load e with
      | .cexpr op _ _ => runCExpr fuel (runCodeInternal fuel) useCache op e
      | _ => runLeaf e

/-- `run_code`, with a cache of its own. -/
def runCode (fuel : Nat) (e : Ref) : RunM (Option Ref) := do
  modify fun runtime => { runtime with cache := [] }
  runCodeInternal fuel e false

theorem runCExpr_eq (fuel : Nat) (self : Ref → Bool → RunM (Option Ref)) (useCache : Bool) (op : Op)
    (e : Ref) : runCExpr fuel self useCache op e = Lfsc.runCExpr fuel self useCache op e := by
  cases op
  case add | mul | div =>
    simp only [runCExpr, Lfsc.runCExpr, runArith, Lfsc.runArith, arithmetic_eq]
    try rfl
  case neg =>
    simp only [runCExpr, Lfsc.runCExpr, runNeg, Lfsc.runNeg, negation_eq]
    try rfl
  case ifneg | ifzero =>
    simp only [runCExpr, Lfsc.runCExpr, runIfNumeral, Lfsc.runIfNumeral, numeralTest_eq]
    try rfl
  case mpzToMpq => exact runMpzToMpq_eq _ e
  case ifequal =>
    simp only [runCExpr, Lfsc.runCExpr, runIfEqual, Lfsc.runIfEqual, defeq_eq]
    try rfl
  all_goals rfl

/-- Code runs over canonical fractions as it does over rational numbers. -/
theorem runCodeInternal_eq (fuel : Nat) : runCodeInternal fuel = Lfsc.runCodeInternal fuel := by
  induction fuel with
  | zero => rfl
  | succ fuel hyp =>
      funext e useCache
      rw [runCodeInternal, Lfsc.runCodeInternal, hyp]
      simp only [runCExpr_eq]
      try rfl

end Gmp

end Lfsc
