import Mathlib.Algebra.Field.Rat
import Mathlib.Data.Rat.Cast.CharZero
import Mathlib.Data.Rat.Lemmas
import Mathlib.Data.Int.Cast.Field
import Mathlib.Tactic.FieldSimp
import Mathlib.Tactic.Ring

/-!
# Fractions of integers

Exact rational arithmetic on pairs of integers.  A fraction is canonical if its denominator is
positive and it is in lowest terms.  The operations expect canonical operands and canonicalize their
results, which divides by zero where the denominator is zero.
-/

/-- A numerator and a denominator. -/
structure Fraction where
  /-- The numerator. -/
  num : Int
  /-- The denominator, of either sign. -/
  den : Int
  deriving DecidableEq, Repr

namespace Fraction

/-- The denominator is positive, and no factor is common. -/
def Canonical (q : Fraction) : Prop := 0 < q.den ∧ Int.gcd q.num q.den = 1

instance (q : Fraction) : Decidable q.Canonical := inferInstanceAs (Decidable (_ ∧ _))

/-- The number that a fraction denotes. -/
def value (q : Fraction) : Rat := q.num / q.den

/-- The canonical fraction of a number. -/
def ofRat (q : Rat) : Fraction := ⟨q.num, q.den⟩

/-- The greatest common divisor, with the sign of the denominator. -/
def divisor (q : Fraction) : Int := q.den.sign * Int.gcd q.num q.den

/-- Make the denominator positive and remove the common factors; `none` for a division by zero. -/
def canonicalize (q : Fraction) : Option Fraction :=
  if q.den = 0 then none else some ⟨q.num / q.divisor, q.den / q.divisor⟩

/-- The sum. -/
def add (p q : Fraction) : Option Fraction :=
  canonicalize ⟨p.num * q.den + q.num * p.den, p.den * q.den⟩

/-- The product. -/
def mul (p q : Fraction) : Option Fraction := canonicalize ⟨p.num * q.num, p.den * q.den⟩

/-- The quotient. -/
def div (p q : Fraction) : Option Fraction := canonicalize ⟨p.num * q.den, p.den * q.num⟩

/-- The negative, which needs no canonicalization. -/
def neg (q : Fraction) : Fraction := ⟨-q.num, q.den⟩

/-- Zero, which a number is at first. -/
def init : Fraction := ⟨0, 1⟩

/-- Another numerator, with the denominator as it was. -/
def setNum (q : Fraction) (num : Int) : Fraction := ⟨num, q.den⟩

/-- The sign. -/
def sgn (q : Fraction) : Int := q.num.sign

/-- The sign of the difference. -/
def cmp (p q : Fraction) : Int := (p.num * q.den - q.num * p.den).sign

/-! ## Canonical fractions are the numbers -/

theorem canonical_ofRat (q : Rat) : (ofRat q).Canonical :=
  ⟨Int.natCast_pos.mpr q.pos, q.reduced⟩

@[simp]
theorem value_ofRat (q : Rat) : (ofRat q).value = q := Rat.num_div_den q

theorem Canonical.ofRat_value {q : Fraction} (canonical : q.Canonical) : ofRat q.value = q := by
  obtain ⟨num, den⟩ := q
  obtain ⟨positive, coprime⟩ := canonical
  have num_eq : (value ⟨num, den⟩).num = num := Rat.num_div_eq_of_coprime positive coprime
  have den_eq : ((value ⟨num, den⟩).den : Int) = den := Rat.den_div_eq_of_coprime positive coprime
  rw [ofRat, num_eq, den_eq]

/-- Canonical fractions of the same number are the same. -/
theorem Canonical.value_inj {p q : Fraction} (left : p.Canonical) (right : q.Canonical) :
    p.value = q.value ↔ p = q := by
  constructor
  · intro same
    rw [← left.ofRat_value, ← right.ofRat_value, same]
  · rintro rfl
    rfl

/-! ## Canonicalization -/

section Canonicalize

variable {q : Fraction}

theorem canonicalize_eq_none : q.canonicalize = none ↔ q.den = 0 := by
  simp [canonicalize]

theorem divisor_ne_zero (nonzero : q.den ≠ 0) : q.divisor ≠ 0 := by
  have sign : q.den.sign ≠ 0 := Int.sign_eq_zero_iff_zero.not.mpr nonzero
  have common : Int.gcd q.num q.den ≠ 0 := by simp [Int.gcd_eq_zero_iff, nonzero]
  exact mul_ne_zero sign (Int.natCast_ne_zero.mpr common)

theorem natAbs_divisor (nonzero : q.den ≠ 0) : q.divisor.natAbs = Int.gcd q.num q.den := by
  rw [divisor, Int.natAbs_mul, Int.natAbs_sign_of_ne_zero nonzero, one_mul, Int.natAbs_natCast]

theorem divisor_dvd (nonzero : q.den ≠ 0) : q.divisor ∣ q.num ∧ q.divisor ∣ q.den := by
  have common : (q.divisor.natAbs : Int) = Int.gcd q.num q.den := by rw [natAbs_divisor nonzero]
  constructor
  · exact Int.natAbs_dvd.mp (common ▸ Int.gcd_dvd_left ..)
  · exact Int.natAbs_dvd.mp (common ▸ Int.gcd_dvd_right ..)

/-- What remains after the division is canonical. -/
theorem canonical_div_divisor (nonzero : q.den ≠ 0) :
    Canonical ⟨q.num / q.divisor, q.den / q.divisor⟩ := by
  obtain ⟨left, right⟩ := divisor_dvd nonzero
  have common : 0 < Int.gcd q.num q.den := Int.gcd_pos_of_ne_zero_right q.num nonzero
  constructor
  · rcases Int.lt_or_gt_of_ne nonzero with negative | positive
    · have below : q.divisor < 0 := by
        rw [divisor, Int.sign_eq_neg_one_of_neg negative]
        omega
      exact Int.ediv_pos_of_neg_of_neg negative below
    · have above : 0 ≤ q.divisor := by
        rw [divisor, Int.sign_eq_one_of_pos positive]
        omega
      exact Int.ediv_pos_of_pos_of_dvd positive above right
  · rw [Int.gcd_div left right, natAbs_divisor nonzero]
    exact Nat.div_self common

theorem canonicalize_eq (nonzero : q.den ≠ 0) : q.canonicalize = some (ofRat q.value) := by
  obtain ⟨left, right⟩ := divisor_dvd nonzero
  have divisor : (q.divisor : Rat) ≠ 0 := Int.cast_ne_zero.mpr (divisor_ne_zero nonzero)
  have same : value ⟨q.num / q.divisor, q.den / q.divisor⟩ = q.value := by
    rw [value, value, Int.cast_div left divisor, Int.cast_div right divisor,
      div_div_div_cancel_right₀ divisor]
  rw [canonicalize, if_neg nonzero, ← same, (canonical_div_divisor nonzero).ofRat_value]

theorem canonical_of_canonicalize {result : Fraction} (run : q.canonicalize = some result) :
    result.Canonical := by
  have nonzero : q.den ≠ 0 := fun zero => by simp [canonicalize_eq_none.mpr zero] at run
  obtain rfl := Option.some.inj ((canonicalize_eq nonzero).symm.trans run)
  exact canonical_ofRat q.value

end Canonicalize

/-! ## Canonical operands -/

theorem den_ofRat_ne_zero (q : Rat) : (ofRat q).den ≠ 0 := Int.natCast_ne_zero.mpr q.den_nz

theorem add_ofRat (p q : Rat) : add (ofRat p) (ofRat q) = some (ofRat (p + q)) := by
  have left : (p.den : Rat) ≠ 0 := Nat.cast_ne_zero.mpr p.den_nz
  have right : (q.den : Rat) ≠ 0 := Nat.cast_ne_zero.mpr q.den_nz
  rw [add, canonicalize_eq (mul_ne_zero (den_ofRat_ne_zero p) (den_ofRat_ne_zero q))]
  congr 2
  calc (((p.num * q.den + q.num * p.den : Int) : Rat) / ((p.den * q.den : Int) : Rat))
      = p.num / p.den + q.num / q.den := by
        push_cast
        field_simp
    _ = p + q := by rw [Rat.num_div_den, Rat.num_div_den]

theorem mul_ofRat (p q : Rat) : mul (ofRat p) (ofRat q) = some (ofRat (p * q)) := by
  rw [mul, canonicalize_eq (mul_ne_zero (den_ofRat_ne_zero p) (den_ofRat_ne_zero q))]
  congr 2
  calc (((p.num * q.num : Int) : Rat) / ((p.den * q.den : Int) : Rat))
      = p.num / p.den * (q.num / q.den) := by
        push_cast
        rw [div_mul_div_comm]
    _ = p * q := by rw [Rat.num_div_den, Rat.num_div_den]

theorem div_ofRat (p : Rat) {q : Rat} (nonzero : q ≠ 0) :
    div (ofRat p) (ofRat q) = some (ofRat (p / q)) := by
  have num : (ofRat q).num ≠ 0 := Rat.num_ne_zero.mpr nonzero
  rw [div, canonicalize_eq (mul_ne_zero (den_ofRat_ne_zero p) num)]
  congr 2
  calc (((p.num * q.den : Int) : Rat) / ((p.den * q.num : Int) : Rat))
      = p.num / p.den / (q.num / q.den) := by
        push_cast
        rw [div_div_div_eq]
    _ = p / q := by rw [Rat.num_div_den, Rat.num_div_den]

/-- A quotient by zero divides by zero. -/
theorem div_ofRat_zero (p : Fraction) : div p (ofRat 0) = none :=
  canonicalize_eq_none.mpr (Int.mul_zero p.den)

theorem neg_ofRat (q : Rat) : neg (ofRat q) = ofRat (-q) := rfl

theorem setNum_init (num : Int) : init.setNum num = ofRat num := by
  rw [setNum, init, ofRat, Rat.num_intCast, Rat.den_intCast]
  rfl

@[simp]
theorem sgn_ofRat_eq_zero {q : Rat} : sgn (ofRat q) = 0 ↔ q = 0 :=
  Int.sign_eq_zero_iff_zero.trans Rat.num_eq_zero

@[simp]
theorem sgn_ofRat_neg {q : Rat} : sgn (ofRat q) < 0 ↔ q < 0 :=
  Int.sign_neg_iff.trans Rat.num_neg

/-- Comparison of canonical fractions is equality of the numbers. -/
@[simp]
theorem cmp_ofRat_eq_zero {p q : Rat} : cmp (ofRat p) (ofRat q) = 0 ↔ p = q := by
  rw [cmp, Int.sign_eq_zero_iff_zero, sub_eq_zero]
  exact Rat.eq_iff_mul_eq_mul.symm

/-- What is canonical is left alone. -/
theorem canonicalize_ofRat (q : Rat) : canonicalize (ofRat q) = some (ofRat q) := by
  rw [canonicalize_eq (den_ofRat_ne_zero q), value_ofRat]

end Fraction
