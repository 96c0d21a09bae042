import Lfsc.Fraction
import Lfsc.Lexer
import Lfsc.RunCode

/-!
# Rational objects

An object of the class `RatExpr` holds a canonical fraction.  The functions that compute with
numerals are given again with the operations on fractions that they call, each of which may divide
by zero, and are the functions on numbers.  Only the constructor of a literal may divide by zero:
the others have canonical operands, and `mp_div` tests its divisor.
-/

namespace Lfsc

open Exec

/-- A `RatExpr`, whose fraction is canonical. -/
structure RatExpr where
  /-- The `mpq_t`. -/
  n : Fraction
  canonical : n.Canonical

namespace RatExpr

/-- The number that an object denotes. -/
def value (r : RatExpr) : Rat := r.n.value

/-- The object that denotes a number. -/
def ofRat (q : Rat) : RatExpr := ⟨.ofRat q, Fraction.canonical_ofRat q⟩

/-- The constructor, which canonicalizes a fraction; `none` for a division by zero. -/
def make (n : Fraction) : Option RatExpr :=
  n.canonicalize.pmap RatExpr.mk fun _ result => Fraction.canonical_of_canonicalize result

@[simp]
theorem value_ofRat (q : Rat) : (ofRat q).value = q := Fraction.value_ofRat q

@[simp]
theorem ofRat_value (r : RatExpr) : ofRat r.value = r := by
  obtain ⟨n, canonical⟩ := r
  simpa [ofRat, value] using canonical.ofRat_value

/-- Objects are compared by the numbers that they denote. -/
theorem cmp_eq_zero {left right : RatExpr} :
    left.n.cmp right.n = 0 ↔ left.value = right.value := by
  have compared := Fraction.cmp_ofRat_eq_zero (p := left.value) (q := right.value)
  rwa [value, value, left.canonical.ofRat_value, right.canonical.ofRat_value] at compared

theorem make_of_canonicalize {n : Fraction} {q : Rat}
    (result : n.canonicalize = some (.ofRat q)) : make n = some (ofRat q) := by
  simp [make, result, ofRat]

theorem make_eq_none {n : Fraction} : make n = none ↔ n.den = 0 := by
  rw [make, Option.pmap_eq_none_iff, Fraction.canonicalize_eq_none]

theorem make_ofRat (q : Rat) : make (.ofRat q) = some (ofRat q) :=
  make_of_canonicalize (Fraction.canonicalize_ofRat q)

end RatExpr

/-! ## The functions that compute with numerals -/

namespace Gmp

/-- Go on with the result of an operation that may divide by zero. -/
def returned {α : Type} : Option α → StoreM α
  | some result => pure result
  | none => Exec.stop .undefined

/-- A new `RatExpr`. -/
def newRat (n : Fraction) : StoreM Ref := do new (.rat (← returned (RatExpr.make n)).value)

/-- `mpz_fdiv_q`. -/
def fdivQ (left right : Int) : Option Int := if right = 0 then none else some (left.fdiv right)

/-- `mp_add`, `mp_mul` and `mp_div` of `run_code_internal` on two values. -/
def arithmetic (op : Op) (left right : Ref) : StoreM (Option Ref) := do
  match ← load left, ← load right with
  | .int m, .int n =>
      match op with
      | .add => return some (← new (.int (m + n)))
      | .mul => return some (← new (.int (m * n)))
      | _ =>
          if n.sign = 0 then return none
          else return some (← new (.int (← returned (fdivQ m n))))
  | .rat p, .rat q =>
      let p := RatExpr.ofRat p
      let q := RatExpr.ofRat q
      match op with
      | .add => return some (← newRat (← returned (p.n.add q.n)))
      | .mul => return some (← newRat (← returned (p.n.mul q.n)))
      | _ =>
          if q.n.sgn = 0 then return none
          else return some (← newRat (← returned (p.n.div q.n)))
  | _, _ => return none

/-- `mp_neg` of `run_code_internal` on a value. -/
def negation (r : Ref) : StoreM (Option Ref) := do
  match ← load r with
  | .int value => return some (← new (.int (-value)))
  | .rat value => return some (← newRat (RatExpr.ofRat value).n.neg)
  | _ => return none

/-- `run_code_internal` on an `mpz_to_mpq`. -/
def runMpzToMpq (self : Ref → RunM (Option Ref)) (e : Ref) : RunM (Option Ref) := do
  match ← self (← kid e 0) with
  | none => return none
  | some value =>
      match ← load value with
      | .int n => return some (← newRat (Fraction.init.setNum n))
      | _ => Exec.stop .undefined

/-- The condition of `mp_ifneg` and `mp_ifzero` on a value. -/
def numeralTest (op : Op) (r : Ref) : StoreM (Option Bool) := do
  match ← load r with
  | .int value => return some (if op = .ifneg then value.sign < 0 else value.sign = 0)
  | .rat value =>
      let sign := (RatExpr.ofRat value).n.sgn
      return some (if op = .ifneg then sign < 0 else sign = 0)
  | _ => return none

/-- The comparison of two leaves in `Expr::defeq`. -/
def defeqLeaves (this e : Ref) : StoreM Bool := do
  match ← load this, ← load e with
  | .int left, .int right => return left = right
  | .rat left, .rat right => return (RatExpr.ofRat left).n.cmp (RatExpr.ofRat right).n = 0
  | .sym _ _, _ => return this = e
  | .hole _, _ => Exec.stop .abort
  | _, _ => Exec.stop .undefined

/-- The constructor where nothing divides by zero. -/
theorem newRat_of_canonicalize {n : Fraction} {q : Rat}
    (result : n.canonicalize = some (.ofRat q)) :
    newRat n = new (.rat q) := by
  rw [newRat, RatExpr.make_of_canonicalize result, returned, pure_bind, RatExpr.value_ofRat]

theorem newRat_ofRat (q : Rat) : newRat (.ofRat q) = new (.rat q) :=
  newRat_of_canonicalize (Fraction.canonicalize_ofRat q)

/-- The constructor of a literal divides by zero where its denominator is zero. -/
theorem newRat_eq (numerator denominator : Nat) :
    newRat ⟨numerator, denominator⟩ = Lfsc.newRat numerator denominator := by
  rw [Lfsc.newRat]
  split
  case isTrue zero =>
    have stops : RatExpr.make ⟨numerator, denominator⟩ = none :=
      RatExpr.make_eq_none.mpr (congrArg Nat.cast zero)
    rw [newRat, stops]
    rfl
  case isFalse nonzero =>
    exact newRat_of_canonicalize (Fraction.canonicalize_eq (Int.natCast_ne_zero.mpr nonzero))

/-- The arithmetic of code divides by zero nowhere. -/
theorem arithmetic_eq (op : Op) (left right : Ref) :
    arithmetic op left right = Lfsc.arithmetic op left right := by
  unfold arithmetic Lfsc.arithmetic
  congr
  funext first
  congr
  funext second
  cases first <;> cases second <;> try rfl
  case int.int m n =>
    cases op <;> try rfl
    all_goals
      by_cases zero : n = 0
      · simp [intArith, zero]
      · simp [intArith, fdivQ, returned, zero]
  case rat.rat p q =>
    have sum : Fraction.add _ _ = _ := Fraction.add_ofRat p q
    have product : Fraction.mul _ _ = _ := Fraction.mul_ofRat p q
    cases op
    case add | mul => simp [ratArith, RatExpr.ofRat, sum, product, returned, newRat_ofRat]
    all_goals
      by_cases zero : q = 0
      · simp [ratArith, RatExpr.ofRat, zero]
      · have quotient : Fraction.div _ _ = _ := Fraction.div_ofRat p zero
        simp [ratArith, RatExpr.ofRat, quotient, returned, newRat_ofRat, zero]

/-- The negative of a canonical fraction is canonical. -/
theorem negation_eq (r : Ref) : negation r = Lfsc.negation r := by
  unfold negation Lfsc.negation
  congr
  funext node
  cases node <;> try rfl
  case rat value => simp [RatExpr.ofRat, Fraction.neg_ofRat, newRat_ofRat]

theorem runMpzToMpq_eq (self : Ref → RunM (Option Ref)) (e : Ref) :
    runMpzToMpq self e = Lfsc.runMpzToMpq self e := by
  unfold runMpzToMpq Lfsc.runMpzToMpq
  simp only [Fraction.setNum_init, newRat_ofRat]
  try rfl

theorem numeralTest_eq (op : Op) (r : Ref) : numeralTest op r = Lfsc.numeralTest op r := by
  unfold numeralTest Lfsc.numeralTest
  congr
  funext node
  cases node <;> try rfl
  case int value => simp
  case rat value => simp [RatExpr.ofRat]

/-- The comparison of rationals is equality of the numbers that they denote. -/
theorem defeqLeaves_eq (this e : Ref) : defeqLeaves this e = Lfsc.defeqLeaves this e := by
  unfold defeqLeaves Lfsc.defeqLeaves
  congr
  funext first
  congr
  funext second
  cases first <;> cases second <;> try rfl
  case rat.rat left right => simp [RatExpr.ofRat]

end Gmp

end Lfsc
