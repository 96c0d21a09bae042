import Lfsc.SideCondition.ValueEquality

/-!
# First-order code

Code in which constructors and programs are applied to all their arguments, so that every value is a
first-order term, and the assignments by which `run_code_internal` binds variables.
-/

namespace Lfsc

open Exec

/-! ## First-order values and code -/

/-- Every constructor in a value has at least its arguments. -/
inductive Val.Saturated (sig : Signature) : Val → Prop
  | sym {name : Ref} (role : sig name = .constructor 0) : Saturated sig (.sym name)
  | int (value : Int) : Saturated sig (.int value)
  | rat (value : Rat) : Saturated sig (.rat value)
  | apply {name : Ref} {arity : Nat} {args : List Val} (role : sig name = .constructor arity)
      (enough : arity ≤ args.length) (each : ∀ arg ∈ args, Saturated sig arg) :
      Saturated sig (.app (.sym name) args)
  | nested {head : Val} {args : List Val} (headed : Saturated sig head)
      (each : ∀ arg ∈ args, Saturated sig arg) : Saturated sig (.app head args)

/-- A symbol that code may mention without arguments: no constructor that takes any, and a variable
only in its scope. -/
def Signature.Mentions (sig : Signature) (scope : List Ref) (name : Ref) : Prop :=
  match sig name with
  | .var => name ∈ scope
  | .constructor arity => arity = 0
  | .program _ _ => False

/-- A symbol that code may apply to so many arguments. -/
def Signature.Applies (sig : Signature) (scope : List Ref) (name : Ref) (count : Nat) : Prop :=
  match sig name with
  | .var => name ∈ scope
  | .constructor arity => arity ≤ count
  | .program params _ => params.length = count

/-- The variables of a pattern. -/
def Pattern.vars : Pattern → List Ref
  | .ctor _ vars => vars
  | .default => []

/-- A constructor pattern is fully applied to distinct variables. -/
def Pattern.FullyApplied (sig : Signature) : Pattern → Prop
  | .ctor name vars => sig name = .constructor vars.length ∧ vars.Nodup ∧
      ∀ var ∈ vars, sig var = .var
  | .default => True

/-- Code in which constructors, programs and patterns are fully applied and variables occur in their
scope. -/
inductive FirstOrder (sig : Signature) : List Ref → Code → Prop
  | int {scope : List Ref} (value : Int) : FirstOrder sig scope (.int value)
  | rat {scope : List Ref} (value : Rat) : FirstOrder sig scope (.rat value)
  | sym {scope : List Ref} {name : Ref} (mentioned : sig.Mentions scope name) :
      FirstOrder sig scope (.sym name)
  | apply {scope : List Ref} {head : Ref} {args : List Code}
      (applied : sig.Applies scope head args.length)
      (each : ∀ arg ∈ args, FirstOrder sig scope arg) : FirstOrder sig scope (.apply head args)
  | fail {scope : List Ref} : FirstOrder sig scope .fail
  | do_ {scope : List Ref} {first second : Code} (left : FirstOrder sig scope first)
      (right : FirstOrder sig scope second) : FirstOrder sig scope (.do_ first second)
  | let_ {scope : List Ref} {var : Ref} {value body : Code} (role : sig var = .var)
      (left : FirstOrder sig scope value) (right : FirstOrder sig (var :: scope) body) :
      FirstOrder sig scope (.let_ var value body)
  | arith {scope : List Ref} {op : Op} {left right : Code} (first : FirstOrder sig scope left)
      (second : FirstOrder sig scope right) : FirstOrder sig scope (.arith op left right)
  | neg {scope : List Ref} {operand : Code} (first : FirstOrder sig scope operand) :
      FirstOrder sig scope (.neg operand)
  | mpzToMpq {scope : List Ref} {operand : Code} (first : FirstOrder sig scope operand) :
      FirstOrder sig scope (.mpzToMpq operand)
  | ifNumeral {scope : List Ref} {op : Op} {operand yes no : Code}
      (first : FirstOrder sig scope operand) (second : FirstOrder sig scope yes)
      (third : FirstOrder sig scope no) : FirstOrder sig scope (.ifNumeral op operand yes no)
  | ifMarked {scope : List Ref} {index : Nat} {operand yes no : Code}
      (first : FirstOrder sig scope operand) (second : FirstOrder sig scope yes)
      (third : FirstOrder sig scope no) : FirstOrder sig scope (.ifMarked index operand yes no)
  | compare {scope : List Ref} {left right yes no : Code} (first : FirstOrder sig scope left)
      (second : FirstOrder sig scope right) (third : FirstOrder sig scope yes)
      (fourth : FirstOrder sig scope no) : FirstOrder sig scope (.compare left right yes no)
  | ifEqual {scope : List Ref} {left right yes no : Code} (first : FirstOrder sig scope left)
      (second : FirstOrder sig scope right) (third : FirstOrder sig scope yes)
      (fourth : FirstOrder sig scope no) : FirstOrder sig scope (.ifEqual left right yes no)
  | markVar {scope : List Ref} {index : Nat} {operand : Code}
      (first : FirstOrder sig scope operand) : FirstOrder sig scope (.markVar index operand)
  | match_ {scope : List Ref} {scrutinee : Code} {branches : List (Pattern × Code)}
      (first : FirstOrder sig scope scrutinee)
      (patterns : ∀ branch ∈ branches, branch.1.FullyApplied sig)
      (each : ∀ branch ∈ branches, FirstOrder sig (branch.1.vars ++ scope) branch.2) :
      FirstOrder sig scope (.match_ scrutinee branches)

/-- Every program is first-order code over its distinct parameters. -/
def Signature.FirstOrder (sig : Signature) : Prop :=
  ∀ name params body, sig name = .program params body →
    params.Nodup ∧ (∀ var ∈ params, sig var = .var) ∧ Lfsc.FirstOrder sig params body

/-! ## Assignments -/

/-- Values assigned to symbols in turn. -/
def assigned : (Ref → Option Ref) → List (Ref × Option Ref) → (Ref → Option Ref)
  | vals, [] => vals
  | vals, (var, val) :: rest => assigned (Function.update vals var val) rest

/-- Giving symbols their old values back undoes whatever was assigned to them. -/
theorem assigned_restore {vals vals' : Ref → Option Ref} {vars : List Ref}
    (same : ∀ r, r ∉ vars → vals' r = vals r) :
    assigned vals' (vars.map fun var => (var, vals var)) = vals := by
  induction vars generalizing vals' with
  | nil =>
      funext r
      exact same r List.not_mem_nil
  | cons var vars hyp =>
      refine hyp fun r outside => ?_
      by_cases here : r = var
      · simp [here]
      · rw [Function.update_of_ne here]
        exact same r (by simp [here, outside])

theorem assigned_of_notMem {vals : Ref → Option Ref} {pairs : List (Ref × Option Ref)} {r : Ref}
    (outside : r ∉ pairs.map Prod.fst) : assigned vals pairs r = vals r := by
  induction pairs generalizing vals with
  | nil => rfl
  | cons pair pairs hyp =>
      obtain ⟨var, val⟩ := pair
      simp only [List.map_cons, List.mem_cons, not_or] at outside
      rw [assigned, hyp outside.2, Function.update_of_ne outside.1]

/-- The slots of variables hold objects for their values. -/
def Slots (held : Ref → Val → Prop) (vals : Ref → Option Ref) (env : Env) : Prop :=
  ∀ var value, env var = some value → ∃ r, vals var = some r ∧ held r value

theorem slots_bind {held : Ref → Val → Prop} {vals : Ref → Option Ref} {env : Env}
    (slots : Slots held vals env) {vars args : List Ref} {values : List Val}
    (all : List.Forall₂ held args values) :
    Slots held (assigned vals ((vars.zip args).map fun pair => (pair.1, some pair.2)))
      (env.bind (vars.zip values)) := by
  induction all generalizing vars vals env with
  | nil => simpa [assigned, Env.bind] using slots
  | cons here _ hyp =>
      cases vars with
      | nil => simpa [assigned, Env.bind] using slots
      | cons var vars =>
          refine hyp fun other value found => ?_
          by_cases same : other = var
          · subst same
            obtain rfl : _ = value := by simpa using found
            exact ⟨_, by simp, here⟩
          · rw [Function.update_of_ne same] at found ⊢
            exact slots other value found

/-- Binding variables keeps every variable bound and binds the new ones. -/
theorem bound_bind {env : Env} {vars scope : List Ref} {values : List Val}
    (length : vars.length = values.length) (bound : ∀ var ∈ scope, ∃ value, env var = some value) :
    ∀ var ∈ vars ++ scope, ∃ value, env.bind (vars.zip values) var = some value := by
  induction vars generalizing env scope values with
  | nil => simpa [Env.bind] using bound
  | cons first vars hyp =>
      cases values with
      | nil => simp at length
      | cons value values =>
          intro var member
          have wider : ∀ var ∈ first :: scope,
              ∃ found, Function.update env first (some value) var = some found := by
            intro var member
            by_cases same : var = first
            · exact ⟨value, by simp [same]⟩
            · obtain ⟨found, here⟩ := bound var (by simpa [same] using member)
              exact ⟨found, by rw [Function.update_of_ne same, here]⟩
          refine hyp (by simpa using length) wider var ?_
          simp only [List.cons_append, List.mem_cons, List.mem_append] at member ⊢
          tauto

section Assignments

variable {sig : Signature}

theorem valOf_set_sym {heap : List Node} {r : Ref} {text : String} {old val : Option Ref}
    (loaded : heap[r]? = some (.sym text old)) :
    valOf (heap.set r (.sym text val)) = Function.update (valOf heap) r val := by
  funext r'
  by_cases same : r' = r
  · subst same
    rw [valOf, List.getElem?_set_self (List.getElem?_eq_some_iff.mp loaded).1, Function.update_self]
  · rw [valOf, List.getElem?_set_ne (Ne.symm same), Function.update_of_ne same, valOf]

/-- Assigning a variable keeps what objects stand for. -/
theorem evolves_setSymVal {var : Ref} {val : Option Ref} {result : Unit} {before after : Store}
    (role : sig var = .var) (run : (setSymVal var val).run before = .ok (result, after)) :
    Evolves sig before after ∧ valOf after.heap = Function.update (valOf before.heap) var val := by
  obtain ⟨text, old, loaded, rfl⟩ := run_setSymVal_ok.mp run
  exact ⟨(rearranges_assign loaded role).evolves rfl, valOf_set_sym loaded⟩

theorem evolves_restoreVals {prevs : List (Ref × Option Ref)} {result : Unit} {before after : Store}
    (roles : ∀ pair ∈ prevs, sig pair.1 = .var)
    (run : (restoreVals prevs).run before = .ok (result, after)) :
    Evolves sig before after ∧ valOf after.heap = assigned (valOf before.heap) prevs := by
  induction prevs generalizing before with
  | nil =>
      obtain ⟨-, rfl⟩ := run_pure_ok.mp run
      exact ⟨Std.Refl.refl before, rfl⟩
  | cons pair prevs hyp =>
      obtain ⟨var, prev⟩ := pair
      obtain ⟨middle, _, setRun, rest⟩ := run_bind_ok.mp run
      obtain ⟨first, vals⟩ := evolves_setSymVal (roles _ List.mem_cons_self) setRun
      obtain ⟨second, vals'⟩ :=
        hyp (fun pair member => roles pair (List.mem_cons_of_mem _ member)) rest
      exact ⟨IsTrans.trans _ _ _ first second, by rw [vals', vals, assigned]⟩

/-- Assigning distinct variables returns the values that they had. -/
theorem evolves_assignVars {pairs : List (Ref × Ref)} {prevs : List (Ref × Option Ref)}
    {before after : Store} (roles : ∀ pair ∈ pairs, sig pair.1 = .var)
    (distinct : (pairs.map Prod.fst).Nodup)
    (run : (assignVars pairs).run before = .ok (prevs, after)) :
    Evolves sig before after ∧
      valOf after.heap =
        assigned (valOf before.heap) (pairs.map fun pair => (pair.1, some pair.2)) ∧
      prevs = (pairs.map Prod.fst).map fun var => (var, valOf before.heap var) := by
  induction pairs generalizing before prevs with
  | nil =>
      obtain ⟨rfl, rfl⟩ := run_pure_ok.mp run
      exact ⟨Std.Refl.refl before, rfl, rfl⟩
  | cons pair pairs hyp =>
      obtain ⟨var, value⟩ := pair
      obtain ⟨_, old, readRun, rest⟩ := run_bind_ok.mp run
      obtain ⟨⟨text, loaded⟩, rfl⟩ := run_symVal_ok.mp readRun
      obtain ⟨middle, _, setRun, rest⟩ := run_bind_ok.mp rest
      obtain ⟨first, vals⟩ := evolves_setSymVal (roles _ List.mem_cons_self) setRun
      obtain ⟨last, others, assignRun, rest⟩ := run_bind_ok.mp rest
      obtain ⟨rfl, rfl⟩ := run_pure_ok.mp rest
      rw [List.map_cons, List.nodup_cons] at distinct
      obtain ⟨second, vals', rfl⟩ :=
        hyp (fun pair member => roles pair (List.mem_cons_of_mem _ member)) distinct.2 assignRun
      refine ⟨IsTrans.trans _ _ _ first second, by rw [vals', vals]; rfl, ?_⟩
      have here : valOf before.heap var = old := by rw [valOf, loaded]
      simp only [List.map_cons, here, List.cons.injEq, true_and]
      refine List.map_congr_left fun other member => ?_
      rw [vals, Function.update_of_ne]
      rintro rfl
      exact distinct.1 member

/-- The parameters of a program are assigned like other variables. -/
theorem run_assignParams_ok {vars args : List Ref} {result : Option (List (Ref × Option Ref))}
    {before after : Store} (length : vars.length = args.length)
    (run : (assignParams vars args).run before = .ok (result, after)) :
    ∃ prevs, result = some prevs ∧
      (assignVars (vars.zip args)).run before = .ok (prevs, after) := by
  induction vars generalizing args before result after with
  | nil =>
      obtain rfl : args = [] := List.length_eq_zero_iff.mp length.symm
      obtain ⟨rfl, rfl⟩ := run_pure_ok.mp run
      exact ⟨[], rfl, rfl⟩
  | cons var vars hyp =>
      cases args with
      | nil => simp at length
      | cons arg args =>
          obtain ⟨_, old, readRun, rest⟩ := run_bind_ok.mp run
          obtain ⟨middle, _, setRun, rest⟩ := run_bind_ok.mp rest
          obtain ⟨last, others, assignRun, rest⟩ := run_bind_ok.mp rest
          obtain ⟨prevs, rfl, zipRun⟩ := hyp (by simpa using length) assignRun
          obtain ⟨rfl, rfl⟩ := run_pure_ok.mp rest
          refine ⟨_, rfl, run_bind_ok.mpr ⟨_, old, readRun,
            run_bind_ok.mpr ⟨middle, (), setRun, ?_⟩⟩⟩
          exact run_bind_ok.mpr ⟨_, prevs, zipRun, run_pure_ok.mpr ⟨rfl, rfl⟩⟩

end Assignments

end Lfsc
