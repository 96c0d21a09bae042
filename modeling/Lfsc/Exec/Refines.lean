import Lfsc.Exec.Basic

/-!
# Refinement of a computation by a specification

A computation over a concrete state refines a specification over a view of that state if every
returning run is matched by a run of the specification, with related values and the view of the
final state.  A frame relation says what the concrete run may change besides.
-/

namespace Exec

variable {σ τ ε ε' α β α' β' : Type}

/-- From a given state, every returning run is matched by the specification. -/
def Refines (view : σ → τ) (frame : σ → σ → Prop) (post : σ → α → β → Prop) (start : σ)
    (m : Exec σ ε α) (spec : Exec τ ε' β) : Prop :=
  ∀ value final, m.run start = .ok (value, final) →
    ∃ answer, spec.run (view start) = .ok (answer, view final) ∧ frame start final ∧
      post final value answer

section Refines

variable {view : σ → τ} {frame : σ → σ → Prop} {post : σ → α → β → Prop}
  {post' : σ → α' → β' → Prop} {start : σ}

theorem refines_pure [Std.Refl frame] {value : α} {answer : β} (related : post start value answer) :
    Refines view frame post start (pure value : Exec σ ε α) (pure answer : Exec τ ε' β) := by
  intro result final run
  obtain ⟨rfl, rfl⟩ := run_pure_ok.mp run
  exact ⟨answer, rfl, Std.Refl.refl start, related⟩

theorem refines_stop {why : ε} {spec : Exec τ ε' β} :
    Refines view frame post start (stop why : Exec σ ε α) spec := by
  intro result final run
  exact (run_stop_ok.mp run).elim

/-- Both sides go on from related values. -/
theorem refines_bind [IsTrans σ frame] {m : Exec σ ε α} {spec : Exec τ ε' β}
    {k : α → Exec σ ε α'} {k' : β → Exec τ ε' β'}
    (first : Refines view frame post start m spec)
    (rest : ∀ middle value answer, frame start middle → post middle value answer →
      Refines view frame post' middle (k value) (k' answer)) :
    Refines view frame post' start (m >>= k) (spec >>= k') := by
  intro result final run
  obtain ⟨middle, value, firstRun, restRun⟩ := run_bind_ok.mp run
  obtain ⟨answer, firstSpec, firstFrame, related⟩ := first _ _ firstRun
  obtain ⟨last, restSpec, restFrame, final⟩ :=
    rest middle value answer firstFrame related _ _ restRun
  exact ⟨last, run_bind_ok.mpr ⟨_, answer, firstSpec, restSpec⟩,
    IsTrans.trans _ _ _ firstFrame restFrame, final⟩

/-- A step that the specification does not see. -/
theorem refines_step [IsTrans σ frame] {m : Exec σ ε α'} {k : α' → Exec σ ε α}
    {spec : Exec τ ε' β}
    (step : ∀ value middle, m.run start = .ok (value, middle) →
      view middle = view start ∧ frame start middle ∧
        Refines view frame post middle (k value) spec) :
    Refines view frame post start (m >>= k) spec := by
  intro result final run
  obtain ⟨middle, value, firstRun, restRun⟩ := run_bind_ok.mp run
  obtain ⟨same, firstFrame, rest⟩ := step value middle firstRun
  obtain ⟨answer, restSpec, restFrame, related⟩ := rest _ _ restRun
  exact ⟨answer, same ▸ restSpec, IsTrans.trans _ _ _ firstFrame restFrame, related⟩

/-- A step that only reads. -/
theorem refines_read {m : Exec σ ε α'} {k : α' → Exec σ ε α} {spec : Exec τ ε' β}
    (step : ∀ value middle, m.run start = .ok (value, middle) →
      middle = start ∧ Refines view frame post start (k value) spec) :
    Refines view frame post start (m >>= k) spec := by
  intro result final run
  obtain ⟨middle, value, firstRun, restRun⟩ := run_bind_ok.mp run
  obtain ⟨rfl, rest⟩ := step value middle firstRun
  exact rest _ _ restRun

theorem refines_ite {condition condition' : Prop} [Decidable condition] [Decidable condition']
    {yes no : Exec σ ε α} {yes' no' : Exec τ ε' β} (same : condition ↔ condition')
    (first : condition → Refines view frame post start yes yes')
    (second : ¬ condition → Refines view frame post start no no') :
    Refines view frame post start (if condition then yes else no)
      (if condition' then yes' else no') := by
  by_cases holds : condition
  · rw [if_pos holds, if_pos (same.mp holds)]
    exact first holds
  · rw [if_neg holds, if_neg fun holds' => holds (same.mpr holds')]
    exact second holds

end Refines

/-! ## More runs of a specification -/

/-- Every returning run of the first computation is a run of the second one. -/
def Extends (m m' : Exec σ ε α) : Prop :=
  ∀ start value final, m.run start = .ok (value, final) → m'.run start = .ok (value, final)

theorem extends_refl (m : Exec σ ε α) : Extends m m := fun _ _ _ run => run

theorem extends_stop {why : ε} {m : Exec σ ε α} : Extends (stop why) m := by
  intro start value final run
  exact (run_stop_ok.mp run).elim

theorem extends_bind {m m' : Exec σ ε α} {k k' : α → Exec σ ε β} (first : Extends m m')
    (rest : ∀ value, Extends (k value) (k' value)) : Extends (m >>= k) (m' >>= k') := by
  intro start result final run
  obtain ⟨middle, value, firstRun, restRun⟩ := run_bind_ok.mp run
  exact run_bind_ok.mpr ⟨middle, value, first _ _ _ firstRun, rest value _ _ _ restRun⟩

theorem extends_map {m m' : Exec σ ε α} (f : α → β) (inner : Extends m m') :
    Extends (f <$> m) (f <$> m') := by
  rw [map_eq_pure_bind, map_eq_pure_bind]
  exact extends_bind inner fun _ => extends_refl _

theorem extends_ite {condition : Prop} [Decidable condition] {yes no yes' no' : Exec σ ε α}
    (first : Extends yes yes') (second : Extends no no') :
    Extends (if condition then yes else no) (if condition then yes' else no') := by
  split
  · exact first
  · exact second

theorem extends_zoom {υ : Type} {view : σ → υ} {update : υ → σ → σ} {m m' : Exec υ ε α}
    (inner : Extends m m') : Extends (zoom view update m) (zoom view update m') := by
  intro start value final run
  obtain ⟨part, innerRun, rfl⟩ := run_zoom_ok.mp run
  exact run_zoom_ok.mpr ⟨part, inner _ _ _ innerRun, rfl⟩

theorem extends_mapM {γ : Type} {f f' : γ → Exec σ ε α} (each : ∀ item, Extends (f item) (f' item))
    (items : List γ) : Extends (items.mapM f) (items.mapM f') := by
  induction items with
  | nil => exact extends_refl _
  | cons item items hyp =>
      rw [List.mapM_cons, List.mapM_cons]
      exact extends_bind (each item) fun _ => extends_bind hyp fun _ => extends_refl _

/-- Runs of two members of a growing family from one state are the same. -/
theorem Extends.unique {m : Nat → Exec σ ε α}
    (wider : ∀ {fuel more}, fuel ≤ more → Extends (m fuel) (m more)) {left right : Nat}
    {start first second : σ} {value other : α} (run : (m left).run start = .ok (value, first))
    (run' : (m right).run start = .ok (other, second)) : value = other ∧ first = second := by
  have lifted := wider (Nat.le_max_left left right) _ _ _ run
  have lifted' := wider (Nat.le_max_right left right) _ _ _ run'
  rw [lifted] at lifted'
  cases lifted'
  exact ⟨rfl, rfl⟩

end Exec
