import Lfsc.Exec.Basic

/-!
# Computations in lockstep

Two computations over different states run in lockstep if every returning run of the first one that
passes no observed branch is matched by a run of the second one with the same value.  Passing an
observed branch is seen in the state as the growth of a number.
-/

namespace Exec

variable {σ τ ε α β : Type}

/-- Every returning run of the first computation that passes no observed branch is matched by a run
of the second one from any related state. -/
structure Lockstep (passed : σ → Nat) (related : σ → τ → Prop) (m : Exec σ ε α) (m' : Exec τ ε α) :
    Prop where
  mono : ∀ before value after, m.run before = .ok (value, after) → passed before ≤ passed after
  matched : ∀ before other value after, related before other →
    m.run before = .ok (value, after) → passed after = passed before →
      ∃ final, m'.run other = .ok (value, final) ∧ related after final

section Lockstep

variable {passed : σ → Nat} {related : σ → τ → Prop}

theorem lockstep_pure (value : α) :
    Lockstep passed related (pure value : Exec σ ε α) (pure value : Exec τ ε α) := by
  constructor
  · intro before result after run
    obtain ⟨-, rfl⟩ := run_pure_ok.mp run
    exact Nat.le_refl _
  · intro before other result after same run _
    obtain ⟨rfl, rfl⟩ := run_pure_ok.mp run
    exact ⟨other, rfl, same⟩

theorem lockstep_stop {why : ε} {m' : Exec τ ε α} : Lockstep passed related (stop why) m' := by
  constructor
  · intro before result after run
    exact (run_stop_ok.mp run).elim
  · intro before other result after _ run _
    exact (run_stop_ok.mp run).elim

/-- A computation that always passes an observed branch. -/
theorem lockstep_passed {m : Exec σ ε α} {m' : Exec τ ε α}
    (grows : ∀ before value after, m.run before = .ok (value, after) →
      passed before < passed after) : Lockstep passed related m m' := by
  constructor
  · intro before value after run
    exact Nat.le_of_lt (grows before value after run)
  · intro before other value after _ run quiet
    have grown := grows before value after run
    omega

theorem lockstep_bind {m : Exec σ ε α} {m' : Exec τ ε α} {k : α → Exec σ ε β}
    {k' : α → Exec τ ε β} (first : Lockstep passed related m m')
    (rest : ∀ value, Lockstep passed related (k value) (k' value)) :
    Lockstep passed related (m >>= k) (m' >>= k') := by
  constructor
  · intro before result after run
    obtain ⟨middle, value, firstRun, restRun⟩ := run_bind_ok.mp run
    exact Nat.le_trans (first.mono _ _ _ firstRun) ((rest value).mono _ _ _ restRun)
  · intro before other result after same run quiet
    obtain ⟨middle, value, firstRun, restRun⟩ := run_bind_ok.mp run
    have firstLe := first.mono _ _ _ firstRun
    have restLe := (rest value).mono _ _ _ restRun
    obtain ⟨reached, firstMatch, sameMiddle⟩ :=
      first.matched _ _ _ _ same firstRun (by omega)
    obtain ⟨final, restMatch, sameFinal⟩ :=
      (rest value).matched _ _ _ _ sameMiddle restRun (by omega)
    exact ⟨final, run_bind_ok.mpr ⟨reached, value, firstMatch, restMatch⟩, sameFinal⟩

theorem lockstep_ite {condition : Prop} [Decidable condition] {yes no : Exec σ ε α}
    {yes' no' : Exec τ ε α} (first : Lockstep passed related yes yes')
    (second : Lockstep passed related no no') :
    Lockstep passed related (if condition then yes else no) (if condition then yes' else no') := by
  split
  · exact first
  · exact second

/-- A computation on a component that related states share runs in lockstep with itself. -/
theorem lockstep_zoom {υ : Type} {view : σ → υ} {update : υ → σ → σ} {view' : τ → υ}
    {update' : υ → τ → τ} (m : Exec υ ε α)
    (unseen : ∀ part state, passed (update part state) = passed state)
    (shared : ∀ before other, related before other → view before = view' other)
    (kept : ∀ part before other, related before other →
      related (update part before) (update' part other)) :
    Lockstep passed related (zoom view update m) (zoom view' update' m) := by
  constructor
  · intro before result after run
    obtain ⟨part, -, rfl⟩ := run_zoom_ok.mp run
    exact Nat.le_of_eq (unseen part before).symm
  · intro before other result after same run _
    obtain ⟨part, inner, rfl⟩ := run_zoom_ok.mp run
    exact ⟨update' part other, run_zoom_ok.mpr ⟨part, shared _ _ same ▸ inner, rfl⟩,
      kept part before other same⟩

end Lockstep

end Exec
