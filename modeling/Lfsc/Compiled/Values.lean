import Lfsc.SideCondition.Evaluator

/-!
# Values of side conditions

What it says of the parts of code that the evaluator gives it a value, for code without marks and
comparisons, and the values in which every constructor has exactly its arguments.
-/

namespace Lfsc

open Exec

/-! ## Exact values -/

/-- Every constructor in a value has exactly its arguments. -/
inductive Val.Exact (sig : Signature) : Val → Prop
  | sym {name : Ref} (role : sig name = .constructor 0) : Exact sig (.sym name)
  | int (value : Int) : Exact sig (.int value)
  | rat (value : Rat) : Exact sig (.rat value)
  | apply {name : Ref} {args : List Val} (role : sig name = .constructor args.length)
      (applied : args ≠ []) (each : ∀ arg ∈ args, Exact sig arg) :
      Exact sig (.app (.sym name) args)

section Exact

variable {sig : Signature}

theorem Val.Exact.spine_length_eq {value : Val} (exact : value.Exact sig) {name : Ref}
    {arity : Nat} (headed : value.spine.1 = .sym name) (role : sig name = .constructor arity) :
    value.spine.2.length = arity := by
  cases exact with
  | sym role' =>
      cases headed
      cases role.symm.trans role'
      rfl
  | int | rat => cases headed
  | apply role' =>
      cases headed
      cases role.symm.trans role'
      rfl

theorem Val.Exact.spine_exact {value : Val} (exact : value.Exact sig) :
    ∀ arg ∈ value.spine.2, arg.Exact sig := by
  cases exact with
  | sym | int | rat => simp [Val.spine]
  | apply _ _ each => exact each

theorem Val.Exact.apply_exact {name : Ref} {values : List Val}
    (role : sig name = .constructor values.length) (each : ∀ arg ∈ values, arg.Exact sig) :
    ((Val.sym name).apply values).Exact sig := by
  unfold Val.apply
  split
  · rename_i empty
    subst empty
    exact .sym role
  · rename_i applied
    exact .apply role applied each

theorem Val.arith_exact {op : Op} {left right value : Val}
    (result : left.arith op right = some value) : value.Exact sig := by
  cases left <;> cases right <;> simp [Val.arith] at result
  · obtain ⟨number, -, rfl⟩ := result
    exact .int number
  · obtain ⟨number, -, rfl⟩ := result
    exact .rat number

theorem Val.neg_exact {operand value : Val} (result : operand.neg = some value) :
    value.Exact sig := by
  cases operand <;> simp [Val.neg] at result <;> subst result
  · exact .int _
  · exact .rat _

end Exact

namespace Compiled

/-! ## What the evaluator yields -/

/-- A variable that is bound was bound before or is one of the new ones. -/
theorem bind_cases {env : Env} {pairs : List (Ref × Val)} {var : Ref} {value : Val}
    (found : env.bind pairs var = some value) :
    var ∈ pairs.map Prod.fst ∨ env var = some value := by
  induction pairs generalizing env with
  | nil => exact .inr found
  | cons pair pairs hyp =>
      obtain ⟨other, inner⟩ := pair
      rw [List.map_cons, List.mem_cons]
      by_cases same : var = other
      · exact .inl (.inl same)
      · rcases hyp found with member | old
        · exact .inl (.inr member)
        · rw [Function.update_of_ne same] at old
          exact .inr old

section Yields

variable {sig : Signature} {order : Ref → Ref → Bool} {fuel : Nat} {env : Env} {value : Val}

/-- Some code has a value, from some marks. -/
def Yields (sig : Signature) (order : Ref → Ref → Bool) (fuel : Nat) (env : Env) (code : Code)
    (value : Val) : Prop :=
  ∃ marks final, (eval sig order fuel env code).run marks = .ok (some value, final)

theorem not_yields_zero {code : Code} : ¬ Yields sig order 0 env code value := by
  rintro ⟨_, _, run⟩
  exact run_stop_ok.mp run

theorem yields_int {number : Int} (yields : Yields sig order (fuel + 1) env (.int number) value) :
    value = .int number := by
  obtain ⟨_, _, run⟩ := yields
  obtain ⟨same, -⟩ := run_pure_ok.mp run
  exact (Option.some.inj same).symm

theorem yields_rat {number : Rat} (yields : Yields sig order (fuel + 1) env (.rat number) value) :
    value = .rat number := by
  obtain ⟨_, _, run⟩ := yields
  obtain ⟨same, -⟩ := run_pure_ok.mp run
  exact (Option.some.inj same).symm

theorem not_yields_fail : ¬ Yields sig order (fuel + 1) env .fail value := by
  rintro ⟨_, _, run⟩
  obtain ⟨same, -⟩ := run_pure_ok.mp run
  cases same

theorem yields_sym {name : Ref} (yields : Yields sig order (fuel + 1) env (.sym name) value) :
    (sig name = .var → env name = some value) ∧
      ∀ arity, sig name = .constructor arity → value = .sym name := by
  obtain ⟨_, _, run⟩ := yields
  obtain ⟨_, found, lookupRun, rest⟩ := run_bind_ok.mp run
  obtain ⟨same, -⟩ := run_pure_ok.mp rest
  cases same
  unfold lookup at lookupRun
  refine ⟨fun role => ?_, fun arity role => ?_⟩
  · simp only [role] at lookupRun
    cases bound : env name with
    | none =>
        rw [bound] at lookupRun
        exact (run_stop_ok.mp lookupRun).elim
    | some inner =>
        rw [bound] at lookupRun
        obtain ⟨rfl, -⟩ := run_pure_ok.mp lookupRun
        rfl
  · simp only [role] at lookupRun
    obtain ⟨rfl, -⟩ := run_pure_ok.mp lookupRun
    rfl

theorem yields_do {first second : Code}
    (yields : Yields sig order (fuel + 1) env (.do_ first second) value) :
    (∃ ignored, Yields sig order fuel env first ignored) ∧
      Yields sig order fuel env second value := by
  obtain ⟨marks, final, run⟩ := yields
  obtain ⟨middle, ignored, firstRun, rest⟩ := run_bind_ok.mp run
  cases ignored with
  | none => cases (run_pure_ok.mp rest).1
  | some ignored => exact ⟨⟨ignored, marks, middle, firstRun⟩, middle, final, rest⟩

theorem yields_let {var : Ref} {bound body : Code}
    (yields : Yields sig order (fuel + 1) env (.let_ var bound body) value) :
    ∃ inner, Yields sig order fuel env bound inner ∧
      Yields sig order fuel (Function.update env var (some inner)) body value := by
  obtain ⟨marks, final, run⟩ := yields
  obtain ⟨middle, inner, firstRun, rest⟩ := run_bind_ok.mp run
  cases inner with
  | none => cases (run_pure_ok.mp rest).1
  | some inner => exact ⟨inner, ⟨marks, middle, firstRun⟩, middle, final, rest⟩

theorem yields_arith {op : Op} {left right : Code}
    (yields : Yields sig order (fuel + 1) env (.arith op left right) value) :
    ∃ first second, Yields sig order fuel env left first ∧ Yields sig order fuel env right second ∧
      first.arith op second = some value := by
  obtain ⟨marks, final, run⟩ := yields
  obtain ⟨middle, first, firstRun, rest⟩ := run_bind_ok.mp run
  cases first with
  | none => cases (run_pure_ok.mp rest).1
  | some first =>
      obtain ⟨last, second, secondRun, rest⟩ := run_bind_ok.mp rest
      cases second with
      | none => cases (run_pure_ok.mp rest).1
      | some second =>
          exact ⟨first, second, ⟨marks, middle, firstRun⟩, ⟨middle, last, secondRun⟩,
            (run_pure_ok.mp rest).1⟩

theorem yields_neg {operand : Code}
    (yields : Yields sig order (fuel + 1) env (.neg operand) value) :
    ∃ inner, Yields sig order fuel env operand inner ∧ inner.neg = some value := by
  obtain ⟨marks, final, run⟩ := yields
  obtain ⟨middle, inner, innerRun, rest⟩ := run_bind_ok.mp run
  cases inner with
  | none => cases (run_pure_ok.mp rest).1
  | some inner => exact ⟨inner, ⟨marks, middle, innerRun⟩, (run_pure_ok.mp rest).1⟩

theorem yields_mpzToMpq {operand : Code}
    (yields : Yields sig order (fuel + 1) env (.mpzToMpq operand) value) :
    ∃ number : Int, Yields sig order fuel env operand (.int number) ∧ value = .rat number := by
  obtain ⟨marks, final, run⟩ := yields
  obtain ⟨middle, inner, innerRun, rest⟩ := run_bind_ok.mp run
  cases inner with
  | none => cases (run_pure_ok.mp rest).1
  | some inner =>
      cases inner with
      | int number =>
          obtain ⟨same, -⟩ := run_pure_ok.mp rest
          exact ⟨number, ⟨marks, middle, innerRun⟩, (Option.some.inj same).symm⟩
      | _ => exact (run_stop_ok.mp rest).elim

theorem yields_ifNumeral {op : Op} {operand yes no : Code}
    (yields : Yields sig order (fuel + 1) env (.ifNumeral op operand yes no) value) :
    ∃ inner condition, Yields sig order fuel env operand inner ∧ inner.test op = some condition ∧
      Yields sig order fuel env (if condition then yes else no) value := by
  obtain ⟨marks, final, run⟩ := yields
  obtain ⟨middle, inner, innerRun, rest⟩ := run_bind_ok.mp run
  cases inner with
  | none => cases (run_pure_ok.mp rest).1
  | some inner =>
      simp only at rest
      cases tested : inner.test op with
      | none =>
          rw [tested] at rest
          cases (run_pure_ok.mp rest).1
      | some condition =>
          rw [tested] at rest
          refine ⟨inner, condition, ⟨marks, middle, innerRun⟩, tested, middle, final, ?_⟩
          cases condition <;> exact rest

theorem yields_args {args : List Code} {values : List Val} {marks final : Marks}
    (run : (evalArgs (eval sig order fuel env) args).run marks = .ok (some values, final)) :
    List.Forall₂ (Yields sig order fuel env) args values := by
  induction args generalizing marks values with
  | nil =>
      obtain ⟨same, -⟩ := run_pure_ok.mp run
      cases same
      exact .nil
  | cons arg rest hyp =>
      obtain ⟨middle, value, argRun, more⟩ := run_bind_ok.mp run
      cases value with
      | none => cases (run_pure_ok.mp more).1
      | some value =>
          obtain ⟨last, others, restRun, more⟩ := run_bind_ok.mp more
          cases others with
          | none => cases (run_pure_ok.mp more).1
          | some others =>
              obtain ⟨same, rfl⟩ := run_pure_ok.mp more
              cases same
              exact .cons ⟨marks, middle, argRun⟩ (hyp restRun)

theorem yields_apply {head : Ref} {args : List Code}
    (yields : Yields sig order (fuel + 1) env (.apply head args) value) :
    ∃ values, List.Forall₂ (Yields sig order fuel env) args values ∧
      (∀ params body, sig head = .program params body → params.length = values.length →
        Yields sig order fuel (Env.bind (fun _ => none) (params.zip values)) body value) ∧
      ∀ arity, sig head = .constructor arity → value = (Val.sym head).apply values := by
  obtain ⟨marks, final, run⟩ := yields
  obtain ⟨middle, values, argsRun, rest⟩ := run_bind_ok.mp run
  cases values with
  | none => cases (run_pure_ok.mp rest).1
  | some values =>
      refine ⟨values, yields_args argsRun, fun params body role length => ?_, fun arity role => ?_⟩
      · simp only [evalApply, role, length, if_true] at rest
        exact ⟨middle, final, rest⟩
      · simp only [evalApply, role] at rest
        obtain ⟨_, found, lookupRun, rest⟩ := run_bind_ok.mp rest
        simp only [lookup, role] at lookupRun
        obtain ⟨rfl, -⟩ := run_pure_ok.mp lookupRun
        exact (Option.some.inj (run_pure_ok.mp rest).1).symm

theorem yields_match {scrutinee : Code} {branches : List (Pattern × Code)}
    (yields : Yields sig order (fuel + 1) env (.match_ scrutinee branches) value) :
    ∃ inner, Yields sig order fuel env scrutinee inner ∧ ∃ marks final,
      (evalBranches (eval sig order fuel) env inner branches).run marks =
        .ok (some value, final) := by
  obtain ⟨marks, final, run⟩ := yields
  obtain ⟨middle, inner, innerRun, rest⟩ := run_bind_ok.mp run
  cases inner with
  | none => cases (run_pure_ok.mp rest).1
  | some inner => exact ⟨inner, ⟨marks, middle, innerRun⟩, middle, final, rest⟩

end Yields

end Compiled

end Lfsc
