import Mathlib.Logic.Relation

/-!
# Lambda terms

Terms with de Bruijn indices over arbitrary constants, substitution of closed terms for the outer
variables, and contraction of the head redex of an application with its arguments in order.
-/

namespace Lambda

variable {α : Type*}

/-- A lambda term over constants. -/
inductive Term (α : Type*)
  /-- A variable, counted from the innermost binder around it. -/
  | bvar (index : Nat)
  /-- A constant. -/
  | leaf (name : α)
  /-- An application. -/
  | app (fn arg : Term α)
  /-- An abstraction. -/
  | lam (body : Term α)

namespace Term

/-! ## Substitution -/

/-- Make room for a binder below `cutoff` others. -/
def lift (cutoff : Nat) : Term α → Term α
  | bvar index => bvar (if index < cutoff then index else index + 1)
  | leaf name => leaf name
  | app fn arg => app (fn.lift cutoff) (arg.lift cutoff)
  | lam body => lam (body.lift (cutoff + 1))

/-- Substitute a term for a variable, whose binder is removed. -/
def inst : Term α → Nat → Term α → Term α
  | bvar index, depth, value =>
      if index < depth then bvar index else if index = depth then value else bvar (index - 1)
  | leaf name, _, _ => leaf name
  | app fn arg, depth, value => app (fn.inst depth value) (arg.inst depth value)
  | lam body, depth, value => lam (body.inst (depth + 1) (value.lift 0))

/-- Substitute closed terms for the variables from `depth` on. -/
def fill (depth : Nat) (values : List (Term α)) : Term α → Term α
  | bvar index =>
      if index < depth then bvar index
      else (values[index - depth]?).getD (bvar (index - values.length))
  | leaf name => leaf name
  | app fn arg => app (fn.fill depth values) (arg.fill depth values)
  | lam body => lam (body.fill (depth + 1) values)

/-- Every variable is bound inside the term or below `depth`. -/
def ClosedBelow (depth : Nat) : Term α → Prop
  | bvar index => index < depth
  | leaf _ => True
  | app fn arg => fn.ClosedBelow depth ∧ arg.ClosedBelow depth
  | lam body => body.ClosedBelow (depth + 1)

/-- A term without free variables. -/
abbrev Closed (t : Term α) : Prop := t.ClosedBelow 0

theorem ClosedBelow.lift_eq {depth cutoff : Nat} (le : depth ≤ cutoff) {t : Term α}
    (closed : t.ClosedBelow depth) : t.lift cutoff = t := by
  induction t generalizing depth cutoff with
  | bvar index => simp [lift, Nat.lt_of_lt_of_le closed le]
  | leaf name => rfl
  | app fn arg hypFn hypArg => rw [lift, hypFn le closed.1, hypArg le closed.2]
  | lam body hyp => rw [lift, hyp (Nat.succ_le_succ le) closed]

@[simp]
theorem fill_nil (depth : Nat) (t : Term α) : t.fill depth [] = t := by
  induction t generalizing depth with
  | bvar index => simp [fill]
  | leaf name => rfl
  | app fn arg hypFn hypArg => rw [fill, hypFn, hypArg]
  | lam body hyp => rw [fill, hyp]

theorem ClosedBelow.fill_eq {depth index : Nat} (le : depth ≤ index) {t : Term α}
    (closed : t.ClosedBelow depth) (values : List (Term α)) : t.fill index values = t := by
  induction t generalizing depth index with
  | bvar i => simp [fill, Nat.lt_of_lt_of_le closed le]
  | leaf name => rfl
  | app fn arg hypFn hypArg => rw [fill, hypFn le closed.1, hypArg le closed.2]
  | lam body hyp => rw [fill, hyp (Nat.succ_le_succ le) closed]

/-- A closed term for the outermost variable may be substituted first. -/
theorem fill_concat {value : Term α} (closed : value.Closed) (values : List (Term α)) (depth : Nat)
    (t : Term α) : t.fill depth (values ++ [value]) =
      (t.inst (depth + values.length) value).fill depth values := by
  induction t generalizing depth with
  | bvar index =>
      rcases Nat.lt_trichotomy index (depth + values.length) with below | rfl | above
      · simp only [inst, below, if_true, fill]
        split
        · rfl
        · have inside : index - depth < values.length := by omega
          simp [List.getElem?_append_left inside, List.getElem?_eq_getElem inside]
      · have outside : ¬ depth + values.length < depth := by omega
        simp [fill, inst, outside, closed.fill_eq (Nat.zero_le depth)]
      · have outside : ¬ index < depth := by omega
        have outside' : ¬ index - 1 < depth := by omega
        have notBelow : ¬ index < depth + values.length := by omega
        have other : index ≠ depth + values.length := by omega
        have beyond : (values ++ [value]).length ≤ index - depth := by simp; omega
        have beyond' : values.length ≤ index - 1 - depth := by omega
        simp only [inst, notBelow, other, if_false, fill, outside, outside',
          List.getElem?_eq_none beyond, List.getElem?_eq_none beyond', Option.getD_none,
          List.length_append, List.length_singleton]
        congr 1
        omega
  | leaf name => rfl
  | app fn arg hypFn hypArg => rw [fill, hypFn, hypArg, inst, fill]
  | lam body hyp =>
      rw [fill, hyp, inst, fill, closed.lift_eq (Nat.le_refl 0), Nat.add_right_comm]

/-! ## Applications and their contraction -/

/-- An application to arguments in order. -/
def apps (fn : Term α) (args : List (Term α)) : Term α := args.foldl app fn

/-- One contraction of the head redex. -/
inductive Contracts : Term α → Term α → Prop
  | beta (body arg : Term α) : Contracts (app (lam body) arg) (body.inst 0 arg)
  | head {fn fn' : Term α} (contracts : Contracts fn fn') (arg : Term α) :
      Contracts (app fn arg) (app fn' arg)

/-- One contraction of a redex anywhere. -/
inductive Beta : Term α → Term α → Prop
  | beta (body arg : Term α) : Beta (app (lam body) arg) (body.inst 0 arg)
  | fn {fn fn' : Term α} (step : Beta fn fn') (arg : Term α) : Beta (app fn arg) (app fn' arg)
  | arg (fn : Term α) {arg arg' : Term α} (step : Beta arg arg') : Beta (app fn arg) (app fn arg')
  | body {body body' : Term α} (step : Beta body body') : Beta (lam body) (lam body')

/-- Equality up to beta-reduction. -/
def BetaEq : Term α → Term α → Prop := Relation.EqvGen Beta

/-- A function is contracted with each of some arguments in order. -/
inductive Feeds : Term α → List (Term α) → Term α → Prop
  | done (t : Term α) : Feeds t [] t
  | next {body arg result : Term α} {args : List (Term α)}
      (feeds : Feeds (body.inst 0 arg) args result) : Feeds (lam body) (arg :: args) result

theorem Contracts.beta_step {t t' : Term α} (contracts : Contracts t t') : Beta t t' := by
  induction contracts with
  | beta body arg => exact .beta body arg
  | head contracts arg hyp => exact .fn hyp arg

theorem Contracts.apps {t t' : Term α} (contracts : Contracts t t') (args : List (Term α)) :
    Contracts (t.apps args) (t'.apps args) := by
  induction args generalizing t t' with
  | nil => exact contracts
  | cons arg args hyp => exact hyp (contracts.head arg)

/-- Feeding arguments to a function contracts the head redex of its application. -/
theorem Feeds.contracts {fn result : Term α} {args : List (Term α)}
    (feeds : Feeds fn args result) (rest : List (Term α)) :
    Relation.ReflTransGen Contracts (fn.apps (args ++ rest)) (result.apps rest) := by
  induction feeds with
  | done t => exact .refl
  | @next body arg result args feeds hyp =>
      have first : Contracts ((lam body).apps (arg :: args ++ rest))
          ((body.inst 0 arg).apps (args ++ rest)) := (Contracts.beta body arg).apps _
      exact .head first hyp

theorem betaEq_of_contracts {left right : Term α}
    (contracts : Relation.ReflTransGen Contracts left right) : BetaEq left right := by
  induction contracts with
  | refl => exact .refl _
  | tail _ step hyp => exact .trans _ _ _ hyp (.rel _ _ step.beta_step)

theorem Feeds.betaEq {fn result : Term α} {args : List (Term α)} (feeds : Feeds fn args result)
    (rest : List (Term α)) : BetaEq (fn.apps (args ++ rest)) (result.apps rest) :=
  betaEq_of_contracts (feeds.contracts rest)

/-- Abstractions over as many variables as counted. -/
def lams : Nat → Term α → Term α
  | 0, body => body
  | count + 1, body => lam (lams count body)

theorem inst_lams {value : Term α} (closed : value.Closed) (count depth : Nat) (body : Term α) :
    (lams count body).inst depth value = lams count (body.inst (depth + count) value) := by
  induction count generalizing depth with
  | zero => rfl
  | succ count hyp =>
      rw [lams, inst, closed.lift_eq (Nat.le_refl 0), hyp, lams, Nat.add_assoc,
        Nat.add_comm 1 count]

/-- Abstractions fed with closed values: the values are substituted for the variables, the last one
for the innermost. -/
theorem feeds_lams {values : List (Term α)} (allClosed : ∀ value ∈ values, value.Closed)
    (body : Term α) : Feeds (lams values.length body) values (body.fill 0 values.reverse) := by
  induction values generalizing body with
  | nil =>
      rw [List.reverse_nil, fill_nil]
      exact .done body
  | cons value values hyp =>
      have closed : value.Closed := allClosed value List.mem_cons_self
      have rest := hyp (fun other member => allClosed other (List.mem_cons_of_mem _ member))
        (body.inst values.length value)
      have filled : body.fill 0 (value :: values).reverse =
          (body.inst values.length value).fill 0 values.reverse := by
        rw [List.reverse_cons, fill_concat closed, Nat.zero_add, List.length_reverse]
      rw [filled]
      refine .next ?_
      rw [inst_lams closed, Nat.zero_add]
      exact rest

end Term

end Lambda
