import Mathlib.Data.Rat.Floor
import Mathlib.Logic.Function.Basic

/-!
# Exact arithmetic with symbols

Numeric code over integers, rationals and names.  A name stands for a number or for a symbol without
a value.  The result of code is exact; an operation on a symbol or with the divisor zero blocks it.
-/

namespace Numeric

variable {Name : Type}

/-- The two types of numbers. -/
inductive NumberSort
  | integer
  | rational
  deriving DecidableEq

/-- The results of numeric code. -/
inductive Number (Name : Type) where
  | int (value : Int)
  | rat (value : Rat)
  | symbol (name : Name)

/-- The binary operations. -/
inductive Operation
  | add
  | mul
  | div
  deriving DecidableEq

/-- Numeric code. -/
inductive Term (Name : Type) where
  | int (value : Int)
  | rat (value : Rat)
  | name (x : Name)
  | arith (op : Operation) (left right : Term Name)
  | neg (operand : Term Name)
  | toRat (operand : Term Name)
  | test (negative : Bool) (operand yes no : Term Name)
  | bind (x : Name) (value body : Term Name)
  | seq (first second : Term Name)

/-- The names that code binds, in order. -/
def Term.binders : Term Name → List Name
  | .int _ | .rat _ | .name _ => []
  | .arith _ left right => left.binders ++ right.binders
  | .neg operand | .toRat operand => operand.binders
  | .test _ operand yes no => operand.binders ++ yes.binders ++ no.binders
  | .bind x value body => value.binders ++ x :: body.binders
  | .seq first second => first.binders ++ second.binders

/-- How deep code is nested. -/
def Term.height : Term Name → Nat
  | .int _ | .rat _ | .name _ => 0
  | .arith _ left right => max left.height right.height + 1
  | .neg operand | .toRat operand => operand.height + 1
  | .test _ operand yes no => max operand.height (max yes.height no.height) + 1
  | .bind _ value body => max value.height body.height + 1
  | .seq first second => max first.height second.height + 1

/-! ## Results -/

/-- An operation on integers; a quotient is rounded towards minus infinity. -/
def Operation.onInt : Operation → Int → Int → Option Int
  | .add, m, n => some (m + n)
  | .mul, m, n => some (m * n)
  | .div, m, n => if n = 0 then none else some ⌊(m : ℚ) / n⌋

/-- An operation on rationals. -/
def Operation.onRat : Operation → Rat → Rat → Option Rat
  | .add, p, q => some (p + q)
  | .mul, p, q => some (p * q)
  | .div, p, q => if q = 0 then none else some (p / q)

/-- An operation on results. -/
def Operation.apply (op : Operation) : Number Name → Number Name → Option (Number Name)
  | .int m, .int n => (op.onInt m n).map .int
  | .rat p, .rat q => (op.onRat p q).map .rat
  | _, _ => none

/-- The negative of a result. -/
def Number.negate : Number Name → Option (Number Name)
  | .int n => some (.int (-n))
  | .rat q => some (.rat (-q))
  | .symbol _ => none

/-- An integer as a rational. -/
def Number.toRat : Number Name → Option (Number Name)
  | .int n => some (.rat n)
  | _ => none

/-- Whether a result is negative, or whether it is zero. -/
def Number.test (negative : Bool) : Number Name → Option Bool
  | .int n => some (if negative then n < 0 else n = 0)
  | .rat q => some (if negative then q < 0 else q = 0)
  | .symbol _ => none

/-- A symbol without a value. -/
def Number.IsSymbol : Number Name → Prop
  | .symbol _ => True
  | _ => False

/-- The number zero. -/
def Number.IsZero : Number Name → Prop
  | .int n => n = 0
  | .rat q => q = 0
  | .symbol _ => False

section Evaluation

variable [DecidableEq Name]

/-- The exact result of code, if nothing blocks it. -/
def Term.eval (env : Name → Number Name) : Term Name → Option (Number Name)
  | .int n => some (.int n)
  | .rat q => some (.rat q)
  | .name x => some (env x)
  | .arith op left right =>
      match left.eval env, right.eval env with
      | some u, some v => op.apply u v
      | _, _ => none
  | .neg operand => (operand.eval env).bind Number.negate
  | .toRat operand => (operand.eval env).bind Number.toRat
  | .test negative operand yes no =>
      match (operand.eval env).bind (Number.test negative) with
      | none => none
      | some true => yes.eval env
      | some false => no.eval env
  | .bind x value body =>
      match value.eval env with
      | none => none
      | some u => body.eval (Function.update env x u)
  | .seq first second =>
      match first.eval env with
      | none => none
      | some _ => second.eval env

/-- An operation that is evaluated has a symbol as an operand or the divisor zero. -/
def Term.Blocked (env : Name → Number Name) : Term Name → Prop
  | .int _ | .rat _ | .name _ => False
  | .arith op left right =>
      left.Blocked env ∨ ∃ u, left.eval env = some u ∧ (right.Blocked env ∨
        ∃ v, right.eval env = some v ∧ (u.IsSymbol ∨ v.IsSymbol ∨ (op = .div ∧ v.IsZero)))
  | .neg operand | .toRat operand =>
      operand.Blocked env ∨ ∃ u, operand.eval env = some u ∧ u.IsSymbol
  | .test negative operand yes no =>
      operand.Blocked env ∨ ∃ u, operand.eval env = some u ∧ (u.IsSymbol ∨
        (u.test negative = some true ∧ yes.Blocked env) ∨
        (u.test negative = some false ∧ no.Blocked env))
  | .bind x value body =>
      value.Blocked env ∨ ∃ u, value.eval env = some u ∧ body.Blocked (Function.update env x u)
  | .seq first second => first.Blocked env ∨ ∃ u, first.eval env = some u ∧ second.Blocked env

/-- A conversion to a rational that is evaluated has a symbol as its operand. -/
def Term.ConvertsSymbol (env : Name → Number Name) : Term Name → Prop
  | .int _ | .rat _ | .name _ => False
  | .arith _ left right =>
      left.ConvertsSymbol env ∨ ∃ u, left.eval env = some u ∧ right.ConvertsSymbol env
  | .neg operand => operand.ConvertsSymbol env
  | .toRat operand => operand.ConvertsSymbol env ∨ ∃ u, operand.eval env = some u ∧ u.IsSymbol
  | .test negative operand yes no =>
      operand.ConvertsSymbol env ∨ ∃ u, operand.eval env = some u ∧
        ((u.test negative = some true ∧ yes.ConvertsSymbol env) ∨
        (u.test negative = some false ∧ no.ConvertsSymbol env))
  | .bind x value body =>
      value.ConvertsSymbol env ∨
        ∃ u, value.eval env = some u ∧ body.ConvertsSymbol (Function.update env x u)
  | .seq first second =>
      first.ConvertsSymbol env ∨ ∃ u, first.eval env = some u ∧ second.ConvertsSymbol env

theorem Term.ConvertsSymbol.blocked {term : Term Name} {env : Name → Number Name}
    (converts : term.ConvertsSymbol env) : term.Blocked env := by
  induction term generalizing env with
  | int | rat | name => exact converts
  | arith op left right first_hyp second_hyp =>
      rcases converts with inner | ⟨u, value, inner⟩
      · exact .inl (first_hyp inner)
      · exact .inr ⟨u, value, .inl (second_hyp inner)⟩
  | neg operand hyp => exact .inl (hyp converts)
  | toRat operand hyp => exact converts.imp_left hyp
  | test negative operand yes no hyp first_hyp second_hyp =>
      rcases converts with inner | ⟨u, value, ⟨holds, inner⟩ | ⟨fails, inner⟩⟩
      · exact .inl (hyp inner)
      · exact .inr ⟨u, value, .inr (.inl ⟨holds, first_hyp inner⟩)⟩
      · exact .inr ⟨u, value, .inr (.inr ⟨fails, second_hyp inner⟩)⟩
  | bind x value body first_hyp second_hyp =>
      rcases converts with inner | ⟨u, result, inner⟩
      · exact .inl (first_hyp inner)
      · exact .inr ⟨u, result, second_hyp inner⟩
  | seq first second first_hyp second_hyp =>
      rcases converts with inner | ⟨u, value, inner⟩
      · exact .inl (first_hyp inner)
      · exact .inr ⟨u, value, second_hyp inner⟩

/-! ## Sorts -/

/-- A number of a sort; a symbol may be of both. -/
def Number.HasSort : Number Name → NumberSort → Prop
  | .int _, sort => sort = .integer
  | .rat _, sort => sort = .rational
  | .symbol _, _ => True

/-- Code of a sort, when names have sorts. -/
inductive Term.HasSort : (Name → NumberSort) → Term Name → NumberSort → Prop
  | int {sorts : Name → NumberSort} (n : Int) : Term.HasSort sorts (.int n) .integer
  | rat {sorts : Name → NumberSort} (q : Rat) : Term.HasSort sorts (.rat q) .rational
  | name {sorts : Name → NumberSort} (x : Name) : Term.HasSort sorts (.name x) (sorts x)
  | arith {sorts : Name → NumberSort} {sort : NumberSort} {left right : Term Name} (op : Operation)
      (first : Term.HasSort sorts left sort) (second : Term.HasSort sorts right sort) :
      Term.HasSort sorts (.arith op left right) sort
  | neg {sorts : Name → NumberSort} {sort : NumberSort} {operand : Term Name}
      (inner : Term.HasSort sorts operand sort) : Term.HasSort sorts (.neg operand) sort
  | toRat {sorts : Name → NumberSort} {operand : Term Name}
      (inner : Term.HasSort sorts operand .integer) : Term.HasSort sorts (.toRat operand) .rational
  | test {sorts : Name → NumberSort} {sort operandSort : NumberSort} {operand yes no : Term Name}
      (negative : Bool) (inner : Term.HasSort sorts operand operandSort)
      (first : Term.HasSort sorts yes sort) (second : Term.HasSort sorts no sort) :
      Term.HasSort sorts (.test negative operand yes no) sort
  | bind {sorts : Name → NumberSort} {sort valueSort : NumberSort} {value body : Term Name}
      (x : Name) (first : Term.HasSort sorts value valueSort)
      (second : Term.HasSort (Function.update sorts x valueSort) body sort) :
      Term.HasSort sorts (.bind x value body) sort
  | seq {sorts : Name → NumberSort} {sort firstSort : NumberSort} {first second : Term Name}
      (left : Term.HasSort sorts first firstSort) (right : Term.HasSort sorts second sort) :
      Term.HasSort sorts (.seq first second) sort

end Evaluation

theorem Operation.apply_hasSort {op : Operation} {u v w : Number Name} {sort : NumberSort}
    (left : u.HasSort sort) (run : op.apply u v = some w) : w.HasSort sort := by
  cases u <;> cases v <;> simp only [apply, Option.map_eq_some_iff, reduceCtorEq] at run
  all_goals
    obtain ⟨result, -, rfl⟩ := run
    exact left

/-- An operation on results of one sort has a result, unless a symbol or a zero divisor blocks
it. -/
theorem Operation.apply_eq_none {op : Operation} {u v : Number Name} {sort : NumberSort}
    (left : u.HasSort sort) (right : v.HasSort sort) :
    op.apply u v = none ↔ u.IsSymbol ∨ v.IsSymbol ∨ (op = .div ∧ v.IsZero) := by
  cases u with
  | symbol c => simp [apply, Number.IsSymbol]
  | int m =>
      obtain rfl : sort = .integer := left
      cases v with
      | symbol c => simp [apply, Number.IsSymbol]
      | rat q => cases right
      | int n => cases op <;> simp [apply, onInt, Number.IsSymbol, Number.IsZero]
  | rat p =>
      obtain rfl : sort = .rational := left
      cases v with
      | symbol c => simp [apply, Number.IsSymbol]
      | int n => cases right
      | rat q => cases op <;> simp [apply, onRat, Number.IsSymbol, Number.IsZero]

theorem Number.negate_eq_none {u : Number Name} : u.negate = none ↔ u.IsSymbol := by
  cases u <;> simp [negate, IsSymbol]

theorem Number.test_eq_none {negative : Bool} {u : Number Name} :
    u.test negative = none ↔ u.IsSymbol := by
  cases u <;> simp [test, IsSymbol]

theorem Number.toRat_eq_none {u : Number Name} (sort : u.HasSort .integer) :
    u.toRat = none ↔ u.IsSymbol := by
  cases u with
  | rat q => cases sort
  | int n => simp [toRat, IsSymbol]
  | symbol c => simp [toRat, IsSymbol]

section Soundness

variable [DecidableEq Name]

/-- Names stand for numbers of their sorts. -/
def Sorted (sorts : Name → NumberSort) (env : Name → Number Name) : Prop :=
  ∀ x, (env x).HasSort (sorts x)

theorem Sorted.update {sorts : Name → NumberSort} {env : Name → Number Name}
    (sorted : Sorted sorts env) {x : Name} {u : Number Name} {sort : NumberSort}
    (here : u.HasSort sort) : Sorted (Function.update sorts x sort) (Function.update env x u) := by
  intro y
  by_cases same : y = x
  · subst same
    simpa using here
  · simpa [Function.update_of_ne same] using sorted y

/-- The result of sorted code has its sort. -/
theorem Term.HasSort.eval {sorts : Name → NumberSort} {term : Term Name} {sort : NumberSort}
    (typed : term.HasSort sorts sort) {env : Name → Number Name} (sorted : Sorted sorts env)
    {u : Number Name} (result : term.eval env = some u) : u.HasSort sort := by
  induction typed generalizing env u with
  | int n =>
      obtain rfl := Option.some.inj result
      rfl
  | rat q =>
      obtain rfl := Option.some.inj result
      rfl
  | name x =>
      obtain rfl := Option.some.inj result
      exact sorted x
  | arith op first second first_hyp second_hyp =>
      rw [Term.eval] at result
      split at result
      case h_1 left right left_eval right_eval =>
          exact Operation.apply_hasSort (first_hyp sorted left_eval) result
      case h_2 => cases result
  | neg inner hyp =>
      rw [Term.eval, Option.bind_eq_some_iff] at result
      obtain ⟨v, operand, negated⟩ := result
      have before := hyp sorted operand
      cases v <;> simp only [Number.negate, Option.some.injEq, reduceCtorEq] at negated
      all_goals
        subst negated
        exact before
  | toRat inner hyp =>
      rw [Term.eval, Option.bind_eq_some_iff] at result
      obtain ⟨v, -, converted⟩ := result
      cases v <;> simp only [Number.toRat, Option.some.injEq, reduceCtorEq] at converted
      subst converted
      rfl
  | test negative inner first second _ first_hyp second_hyp =>
      rw [Term.eval] at result
      split at result
      · cases result
      · exact first_hyp sorted result
      · exact second_hyp sorted result
  | bind x first second first_hyp second_hyp =>
      rw [Term.eval] at result
      split at result
      case h_1 => cases result
      case h_2 v value_eval => exact second_hyp (sorted.update (first_hyp sorted value_eval)) result
  | seq left right _ second_hyp =>
      rw [Term.eval] at result
      split at result
      · cases result
      · exact second_hyp sorted result

/-- Sorted code has no result exactly where an operation on a symbol or with a zero divisor blocks
it. -/
theorem Term.HasSort.eval_eq_none {sorts : Name → NumberSort} {term : Term Name} {sort : NumberSort}
    (typed : term.HasSort sorts sort) {env : Name → Number Name} (sorted : Sorted sorts env) :
    term.eval env = none ↔ term.Blocked env := by
  induction typed generalizing env with
  | int | rat | name => simp [Term.eval, Term.Blocked]
  | @arith _ _ left_term right_term op first second first_hyp second_hyp =>
      rw [Term.eval, Term.Blocked, ← first_hyp sorted, ← second_hyp sorted]
      cases left : left_term.eval env with
      | none => simp
      | some u =>
          cases right : right_term.eval env with
          | none => simp
          | some v =>
              have blocked : op.apply u v = none ↔
                  u.IsSymbol ∨ v.IsSymbol ∨ (op = .div ∧ v.IsZero) :=
                Operation.apply_eq_none (first.eval sorted left) (second.eval sorted right)
              simp [blocked]
  | @neg _ _ operand inner hyp =>
      rw [Term.eval, Term.Blocked, ← hyp sorted]
      cases operand.eval env <;> simp [Number.negate_eq_none]
  | @toRat _ operand inner hyp =>
      rw [Term.eval, Term.Blocked, ← hyp sorted]
      cases value : operand.eval env with
      | none => simp
      | some u => simp [Number.toRat_eq_none (inner.eval sorted value)]
  | @test _ _ _ operand yes no negative inner first second hyp first_hyp second_hyp =>
      rw [Term.eval, Term.Blocked, ← hyp sorted, ← first_hyp sorted, ← second_hyp sorted]
      cases value : operand.eval env with
      | none => simp
      | some u =>
          have symbol : u.test negative = none ↔ u.IsSymbol := Number.test_eq_none
          cases condition : u.test negative with
          | none => simp [← symbol, condition]
          | some holds => cases holds <;> simp [← symbol, condition]
  | @bind _ _ _ value body x first second first_hyp second_hyp =>
      rw [Term.eval, Term.Blocked, ← first_hyp sorted]
      cases result : value.eval env with
      | none => simp
      | some u => simp [second_hyp (sorted.update (first.eval sorted result))]
  | @seq _ _ _ first second left right first_hyp second_hyp =>
      rw [Term.eval, Term.Blocked, ← first_hyp sorted, ← second_hyp sorted]
      cases first.eval env <;> simp

end Soundness

end Numeric
