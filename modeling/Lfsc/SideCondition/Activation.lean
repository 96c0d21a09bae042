import Lfsc.SideCondition.FirstOrder

/-!
# Activations

`run_code_internal` keeps the environment in one mutable slot for each variable.  Code may run where
the slots of the variables in scope hold their values; a body runs with further variables assigned,
and restoring them leaves every slot as it was.
-/

namespace Lfsc

open Exec

/-! ## Activations -/

/-- An object for a value in which every constructor is applied. -/
def Held (sig : Signature) (heap : List Node) (r : Ref) (value : Val) : Prop :=
  Represents sig heap r value ∧ value.Saturated sig

/-- A run leaves every slot as it was, and whatever stands for something still does. -/
structure Settles (sig : Signature) (before after : Runtime) : Prop where
  retains : Retains sig before.store after.store
  functions : after.progFunctions = before.progFunctions

instance {sig : Signature} : Std.Refl (Settles sig) :=
  ⟨fun runtime => ⟨Std.Refl.refl runtime.store, rfl⟩⟩

instance {sig : Signature} : IsTrans Runtime (Settles sig) :=
  ⟨fun _ _ _ first second =>
    ⟨IsTrans.trans _ _ _ first.retains second.retains, second.functions.trans first.functions⟩⟩

/-- A state in which code with some variables in scope may run: the programs are there, none of them
keeps its results, and the slots of the variables in scope hold their values. -/
structure Ready (sig : Signature) (order : Ref → Ref → Bool) (env : Env) (scope : List Ref)
    (start : Runtime) : Prop where
  defined : Defines sig start.store.heap
  plain : ∀ name params body, sig name = .program params body → name ∉ start.progFunctions
  ordered : start.store.before = order
  slots : Slots (Held sig start.store.heap) (valOf start.store.heap) env
  bound : ∀ var ∈ scope, ∃ value, env var = some value

/-- A result of the interpreter stands for a result of the evaluator. -/
inductive Answers (sig : Signature) (heap : List Node) : Option Ref → Option Val → Prop
  | fails : Answers sig heap none none
  | returns {r : Ref} {value : Val} (held : Held sig heap r value) :
      Answers sig heap (some r) (some value)

/-- Results of the interpreter that stand for values. -/
inductive AnswersAll (sig : Signature) (heap : List Node) (count : Nat) :
    Option (List Ref) → Option (List Val) → Prop
  | fails : AnswersAll sig heap count none none
  | returns {refs : List Ref} {values : List Val} (held : List.Forall₂ (Held sig heap) refs values)
      (length : values.length = count) : AnswersAll sig heap count (some refs) (some values)

/-- The same symbol, or none. -/
structure AnswersSymbol (sig : Signature) (heap : List Node) (result answer : Option Ref) :
    Prop where
  same : result = answer
  held : ∀ name, answer = some name → Held sig heap name (.sym name)

/-- A run of the interpreter that the evaluator matches, with a relation between the results. -/
abbrev Matches {α β : Type} (sig : Signature) (post : List Node → α → β → Prop) (start : Runtime)
    (m : RunM α) (spec : EvalM β) : Prop :=
  Refines Runtime.marks (Settles sig) (fun final => post final.store.heap) start m spec

/-- Wherever code may run, an interpreter matches an evaluator. -/
def Computes (sig : Signature) (order : Ref → Ref → Bool) (self : Ref → RunM (Option Ref))
    (spec : Env → Code → EvalM (Option Val)) : Prop :=
  ∀ start e code env scope, Ready sig order env scope start → Encodes sig start.store.heap e code →
    FirstOrder sig scope code → Matches sig (Answers sig) start (self e) (spec env code)

section Activations

variable {sig : Signature} {order : Ref → Ref → Bool} {env : Env} {scope : List Ref}
  {start : Runtime}

theorem Held.evolves {before after : Store} (evolves : Evolves sig before after) {r : Ref}
    {value : Val} (held : Held sig before.heap r value) : Held sig after.heap r value :=
  ⟨evolves.represents _ _ held.1, held.2⟩

theorem Ready.settles (ready : Ready sig order env scope start) {after : Runtime}
    (settled : Settles sig start after) : Ready sig order env scope after where
  defined := settled.retains.defines ready.defined
  plain := settled.functions.symm ▸ ready.plain
  ordered := settled.retains.order.trans ready.ordered
  slots := by
    intro var value found
    obtain ⟨r, slot, held⟩ := ready.slots var value found
    exact ⟨r, by rw [settled.retains.vals, slot], held.evolves settled.retains.toEvolves⟩
  bound := ready.bound

variable {α β : Type} {post : List Node → α → β → Prop}

/-- A computation on expressions that gives an answer. -/
theorem matches_lift {m : StoreM α} {answer : β}
    (each : ∀ value store, m.run start.store = .ok (value, store) →
      Retains sig start.store store ∧ post store.heap value answer) :
    Matches sig post start (liftM m) (pure answer) := by
  intro value final run
  obtain ⟨store, inner, rfl⟩ := run_lift_ok.mp run
  obtain ⟨kept, related⟩ := each value store inner
  exact ⟨answer, rfl, ⟨kept, rfl⟩, related⟩

/-- A computation on expressions that the evaluator does not see. -/
theorem matches_step {γ : Type} {m : StoreM γ} {k : γ → RunM α} {spec : EvalM β}
    (each : ∀ value store, m.run start.store = .ok (value, store) →
      Retains sig start.store store ∧ Matches sig post { start with store } (k value) spec) :
    Matches sig post start (liftM m >>= k) spec := by
  refine refines_step fun value middle run => ?_
  obtain ⟨store, inner, rfl⟩ := run_lift_ok.mp run
  obtain ⟨kept, rest⟩ := each value store inner
  exact ⟨rfl, ⟨kept, rfl⟩, rest⟩

/-- A computation on expressions that only reads. -/
theorem matches_read {γ : Type} {m : StoreM γ} {k : γ → RunM α} {spec : EvalM β}
    (each : ∀ value store, m.run start.store = .ok (value, store) →
      start.store = store ∧ Matches sig post start (k value) spec) :
    Matches sig post start (liftM m >>= k) spec := by
  refine refines_read fun value middle run => ?_
  obtain ⟨store, inner, rfl⟩ := run_lift_ok.mp run
  obtain ⟨rfl, rest⟩ := each value store inner
  exact ⟨rfl, rest⟩

/-- A child of an object is read. -/
theorem matches_kid {e : Ref} {op : Op} {kids : List Ref} {flag : Bool} {index : Nat} {child : Ref}
    {k : Ref → RunM α} {spec : EvalM β}
    (loaded : start.store.heap[e]? = some (.cexpr op kids flag)) (found : kids[index]? = some child)
    (rest : Matches sig post start (k child) spec) :
    Matches sig post start ((liftM (kid e index) : RunM Ref) >>= k) spec := by
  refine matches_read fun value store run => ?_
  obtain ⟨⟨_, _, _, again, here⟩, rfl⟩ := run_kid_ok.mp run
  rw [loaded] at again
  cases again
  obtain rfl : child = value := by simpa [found] using here
  exact ⟨rfl, rest⟩

end Activations

/-! ## Bodies -/

section Binders

variable {sig : Signature} {order : Ref → Ref → Bool} {env : Env} {scope : List Ref}
  {start : Runtime}

/-- The state in which a body runs, with its variables assigned. -/
theorem Ready.assigns (ready : Ready sig order env scope start) {vars args : List Ref}
    {values : List Val} {prevs : List (Ref × Option Ref)} {store : Store}
    (roles : ∀ var ∈ vars, sig var = .var) (distinct : vars.Nodup)
    (length : vars.length = args.length)
    (held : List.Forall₂ (Held sig start.store.heap) args values)
    (run : (assignVars (vars.zip args)).run start.store = .ok (prevs, store)) :
    Evolves sig start.store store ∧
      Ready sig order (env.bind (vars.zip values)) (vars ++ scope) { start with store } ∧
      (∀ r, r ∉ vars → valOf store.heap r = valOf start.store.heap r) ∧
      prevs = vars.map fun var => (var, valOf start.store.heap var) := by
  have names := List.map_fst_zip (Nat.le_of_eq length)
  obtain ⟨evolved, vals, rfl⟩ := evolves_assignVars
    (fun pair member => roles _ (names ▸ List.mem_map_of_mem member)) (names.symm ▸ distinct) run
  rw [names]
  refine ⟨evolved, ?_, ?_, rfl⟩
  · refine ⟨evolved.defines ready.defined, ready.plain, evolved.order.trans ready.ordered, ?_, ?_⟩
    · rw [vals]
      refine slots_bind (fun var value found => ?_) (held.imp fun _ _ => Held.evolves evolved)
      obtain ⟨r, slot, heldVar⟩ := ready.slots var value found
      exact ⟨r, slot, heldVar.evolves evolved⟩
    · exact bound_bind (length.trans held.length_eq) ready.bound
  · intro r outside
    rw [vals]
    refine assigned_of_notMem ?_
    rw [List.map_map]
    change r ∉ (vars.zip args).map Prod.fst
    rwa [names]

variable {self : Ref → RunM (Option Ref)} {spec : Env → Code → EvalM (Option Val)}
  (computes : Computes sig order self spec)

include computes

/-- A body runs with its variables assigned, and they get their old values back: the slots are as
before, and only the environment of the evaluator knows the new variables. -/
theorem activation {env' : Env} {scope' : List Ref} (ready : Ready sig order env' scope' start)
    {vars args : List Ref} {values : List Val} {prevs : List (Ref × Option Ref)}
    {store last : Store}
    {middle : Runtime} {body : Ref} {code : Code} {result : Option Ref}
    (roles : ∀ var ∈ vars, sig var = .var) (distinct : vars.Nodup)
    (length : vars.length = args.length)
    (held : List.Forall₂ (Held sig start.store.heap) args values)
    (assignRun : (assignVars (vars.zip args)).run start.store = .ok (prevs, store))
    (encoded : Encodes sig store.heap body code) (ordered : FirstOrder sig (vars ++ scope') code)
    (bodyRun : (self body).run { start with store } = .ok (result, middle))
    (restoreRun : (restoreVals prevs).run middle.store = .ok ((), last)) :
    ∃ answer, (spec (env'.bind (vars.zip values)) code).run start.marks =
      .ok (answer, middle.marks) ∧
      Settles sig start { middle with store := last } ∧ Answers sig last.heap result answer := by
  obtain ⟨evolved, inner, others, rfl⟩ := ready.assigns roles distinct length held assignRun
  obtain ⟨answer, evalRun, settled, answers⟩ := computes _ _ _ _ _ inner encoded ordered _ _ bodyRun
  obtain ⟨restored, vals⟩ := evolves_restoreVals (by simpa using roles) restoreRun
  refine ⟨answer, evalRun, ⟨⟨?_, ?_⟩, settled.functions⟩, ?_⟩
  · exact IsTrans.trans _ _ _ evolved (IsTrans.trans _ _ _ settled.retains.toEvolves restored)
  · rw [vals, settled.retains.vals]
    exact assigned_restore others
  · cases answers with
    | fails => exact .fails
    | returns heldResult => exact .returns (heldResult.evolves restored)

end Binders

end Lfsc
