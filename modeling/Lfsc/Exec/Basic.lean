import Mathlib.Order.Defs.Unbundled

/-!
# Stateful computations that may stop

`Exec σ ε α` threads a state `σ` and either returns or stops for a reason `ε`.  A
frame condition `Exec.Keeps` relates the states before and after every returning run by a reflexive
and transitive relation.
-/

/-- Computations over a state `σ` that return a value or stop for a reason `ε`. -/
abbrev Exec (σ ε α : Type) : Type := StateT σ (Except ε) α

namespace Exec

variable {σ ε α β : Type}

/-- Stop for a reason. -/
def stop (why : ε) : Exec σ ε α := fun _ => .error why

/-- Lift a computation on one component of the state to the whole state. -/
def zoom {τ : Type} (view : σ → τ) (update : τ → σ → σ) (m : Exec τ ε α) : Exec σ ε α :=
  fun state =>
    match m.run (view state) with
    | .ok (value, part) => .ok (value, update part state)
    | .error why => .error why

@[simp]
theorem pure_eq_ok {value result : α} :
    (pure value : Except ε α) = .ok result ↔ value = result := by
  change Except.ok value = Except.ok result ↔ _
  exact Except.ok.injEq value result ▸ Iff.rfl

theorem run_bind_ok {m : Exec σ ε α} {k : α → Exec σ ε β} {before after : σ} {value : β} :
    (m >>= k).run before = .ok (value, after) ↔
      ∃ middle inner, m.run before = .ok (inner, middle) ∧
        (k inner).run middle = .ok (value, after) := by
  simp only [StateT.run_bind]
  cases m.run before with
  | error why => simp [bind, Except.bind]
  | ok pair =>
      obtain ⟨inner, middle⟩ := pair
      constructor
      · intro rest
        exact ⟨middle, inner, rfl, rest⟩
      · rintro ⟨_, _, same, rest⟩
        cases same
        exact rest

theorem exists_of_isOk {outcome : Except ε (α × σ)} (ok : outcome.isOk = true) :
    ∃ value after, outcome = .ok (value, after) := by
  cases outcome with
  | error why => cases ok
  | ok pair => exact ⟨pair.1, pair.2, rfl⟩

/-- After a run that returned, the rest goes on. -/
theorem run_bind_of_ok {m : Exec σ ε α} {k : α → Exec σ ε β} {before middle : σ} {value : α}
    (run : m.run before = .ok (value, middle)) : (m >>= k).run before = (k value).run middle := by
  rw [StateT.run_bind, run]
  rfl

theorem run_pure_ok {value result : α} {before after : σ} :
    (pure value : Exec σ ε α).run before = .ok (result, after) ↔
      value = result ∧ before = after := by
  change (Except.ok (value, before) : Except ε (α × σ)) = .ok (result, after) ↔ _
  simp

theorem run_stop_ok {why : ε} {value : α} {before after : σ} :
    (stop why : Exec σ ε α).run before = .ok (value, after) ↔ False := by
  simp [stop, StateT.run]

theorem run_modify_ok {f : σ → σ} {value : Unit} {before after : σ} :
    (modify f : Exec σ ε Unit).run before = .ok (value, after) ↔ f before = after := by
  change (Except.ok ((), f before) : Except ε (Unit × σ)) = .ok (value, after) ↔ _
  simp

theorem run_zoom_ok {τ : Type} {view : σ → τ} {update : τ → σ → σ} {m : Exec τ ε α}
    {before after : σ} {value : α} :
    (zoom view update m).run before = .ok (value, after) ↔
      ∃ part, m.run (view before) = .ok (value, part) ∧ update part before = after := by
  unfold zoom
  change (match m.run (view before) with
    | .ok (value, part) => Except.ok (value, update part before)
    | .error why => .error why) = .ok (value, after) ↔ _
  cases m.run (view before) with
  | error why => simp
  | ok pair =>
      obtain ⟨inner, part⟩ := pair
      simp only [Except.ok.injEq, Prod.mk.injEq]
      constructor
      · rintro ⟨rfl, rfl⟩
        exact ⟨part, ⟨rfl, rfl⟩, rfl⟩
      · rintro ⟨_, ⟨rfl, rfl⟩, rfl⟩
        exact ⟨rfl, rfl⟩

/-! ## Frame relations -/

/-- Every returning run relates its initial state to its final state. -/
def Keeps (frame : σ → σ → Prop) (m : Exec σ ε α) : Prop :=
  ∀ before value after, m.run before = .ok (value, after) → frame before after

section Keeps

variable {frame : σ → σ → Prop}

theorem keeps_pure [Std.Refl frame] (value : α) : Keeps frame (pure value : Exec σ ε α) := by
  intro before result after run
  obtain ⟨_, rfl⟩ := run_pure_ok.mp run
  exact Std.Refl.refl before

theorem keeps_stop (why : ε) : Keeps frame (stop why : Exec σ ε α) := by
  intro before result after run
  exact (run_stop_ok.mp run).elim

theorem keeps_bind [IsTrans σ frame] {m : Exec σ ε α} {k : α → Exec σ ε β}
    (first : Keeps frame m) (rest : ∀ value, Keeps frame (k value)) : Keeps frame (m >>= k) := by
  intro before result after run
  obtain ⟨middle, value, firstRun, restRun⟩ := run_bind_ok.mp run
  exact IsTrans.trans _ _ _ (first _ _ _ firstRun) (rest _ _ _ _ restRun)

theorem keeps_ite {condition : Prop} [Decidable condition] {yes no : Exec σ ε α}
    (first : Keeps frame yes) (second : Keeps frame no) :
    Keeps frame (if condition then yes else no) := by
  split
  · exact first
  · exact second

theorem keeps_zoom {τ : Type} {view : σ → τ} {update : τ → σ → σ} {m : Exec τ ε α}
    (framed : ∀ part state, frame state (update part state)) :
    Keeps frame (zoom view update m) := by
  intro before value after run
  obtain ⟨part, -, rfl⟩ := run_zoom_ok.mp run
  exact framed part before

theorem Keeps.mono {wider : σ → σ → Prop} (le : ∀ before after, frame before after →
    wider before after) {m : Exec σ ε α} (kept : Keeps frame m) : Keeps wider m :=
  fun before value after run => le before after (kept before value after run)

theorem keeps_mapM [Std.Refl frame] [IsTrans σ frame] {γ : Type} {f : γ → Exec σ ε α}
    (each : ∀ item, Keeps frame (f item)) (items : List γ) : Keeps frame (items.mapM f) := by
  induction items with
  | nil =>
      rw [List.mapM_nil]
      exact keeps_pure []
  | cons item items hyp =>
      rw [List.mapM_cons]
      exact keeps_bind (each item) fun _ => keeps_bind hyp fun _ => keeps_pure _

end Keeps

/-! ## Frame relations with a condition on the result -/

/-- Every returning run relates its initial state to its final state, and its result satisfies a
condition. -/
def Ensures (frame : σ → σ → Prop) (post : α → Prop) (m : Exec σ ε α) : Prop :=
  ∀ before value after, m.run before = .ok (value, after) → frame before after ∧ post value

section Ensures

variable {frame : σ → σ → Prop} {mid : α → Prop} {post : β → Prop}

theorem Ensures.keeps {m : Exec σ ε β} (ensured : Ensures frame post m) : Keeps frame m :=
  fun before value after run => (ensured before value after run).1

theorem ensures_pure [Std.Refl frame] {value : β} (holds : post value) :
    Ensures frame post (pure value : Exec σ ε β) := by
  intro before result after run
  obtain ⟨rfl, rfl⟩ := run_pure_ok.mp run
  exact ⟨Std.Refl.refl before, holds⟩

theorem ensures_stop {why : ε} : Ensures frame post (stop why : Exec σ ε β) := by
  intro before result after run
  exact (run_stop_ok.mp run).elim

theorem ensures_bind [IsTrans σ frame] {m : Exec σ ε α} {k : α → Exec σ ε β}
    (first : Ensures frame mid m) (rest : ∀ value, mid value → Ensures frame post (k value)) :
    Ensures frame post (m >>= k) := by
  intro before result after run
  obtain ⟨middle, value, firstRun, restRun⟩ := run_bind_ok.mp run
  obtain ⟨firstFrame, holds⟩ := first _ _ _ firstRun
  obtain ⟨restFrame, final⟩ := rest value holds _ _ _ restRun
  exact ⟨IsTrans.trans _ _ _ firstFrame restFrame, final⟩

/-- The result of the first part does not matter. -/
theorem ensures_step [IsTrans σ frame] {m : Exec σ ε α} {k : α → Exec σ ε β}
    (first : Keeps frame m) (rest : ∀ value, Ensures frame post (k value)) :
    Ensures frame post (m >>= k) := by
  intro before result after run
  obtain ⟨middle, value, firstRun, restRun⟩ := run_bind_ok.mp run
  obtain ⟨restFrame, final⟩ := rest value _ _ _ restRun
  exact ⟨IsTrans.trans _ _ _ (first _ _ _ firstRun) restFrame, final⟩

theorem ensures_ite {condition : Prop} [Decidable condition] {yes no : Exec σ ε β}
    (first : Ensures frame post yes) (second : Ensures frame post no) :
    Ensures frame post (if condition then yes else no) := by
  split
  · exact first
  · exact second

end Ensures

end Exec
