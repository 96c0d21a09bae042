import Lfsc.Exec.Basic

/-!
# How a computation ends

From a given state a computation returns with a postcondition or stops for one of the reasons
allowed.  Unlike a frame condition, this says something about the runs that do not return.
-/

namespace Exec

variable {σ ε α β : Type}

/-- The run from a state returns with a postcondition or stops for a reason that is allowed. -/
def Ends (allowed : ε → Prop) (post : α → σ → Prop) (m : Exec σ ε α) (before : σ) : Prop :=
  match m.run before with
  | .ok (value, after) => post value after
  | .error why => allowed why

section Ends

variable {allowed : ε → Prop} {mid : α → σ → Prop} {post : β → σ → Prop} {before : σ}

theorem ends_pure {value : β} (holds : post value before) :
    Ends allowed post (pure value : Exec σ ε β) before := holds

theorem ends_stop {why : ε} (fine : allowed why) :
    Ends allowed post (stop why : Exec σ ε β) before := fine

/-- A run that is known to return. -/
theorem ends_of_ok {m : Exec σ ε β} {value : β} {after : σ}
    (run : m.run before = .ok (value, after)) (holds : post value after) :
    Ends allowed post m before := by
  rw [Ends, run]
  exact holds

theorem Ends.ok {m : Exec σ ε β} (ends : Ends allowed post m before) {value : β} {after : σ}
    (run : m.run before = .ok (value, after)) : post value after := by
  rwa [Ends, run] at ends

theorem Ends.error {m : Exec σ ε β} (ends : Ends allowed post m before) {why : ε}
    (run : m.run before = .error why) : allowed why := by
  rwa [Ends, run] at ends

theorem ends_bind {m : Exec σ ε α} {k : α → Exec σ ε β} (first : Ends allowed mid m before)
    (rest : ∀ value middle, mid value middle → Ends allowed post (k value) middle) :
    Ends allowed post (m >>= k) before := by
  rw [Ends, StateT.run_bind]
  rw [Ends] at first
  cases run : m.run before with
  | error why =>
      rw [run] at first
      exact first
  | ok pair =>
      rw [run] at first
      exact rest _ _ first

/-- A first step that is known to return. -/
theorem ends_bind_of_ok {m : Exec σ ε α} {k : α → Exec σ ε β} {value : α} {middle : σ}
    (run : m.run before = .ok (value, middle)) (rest : Ends allowed post (k value) middle) :
    Ends allowed post (m >>= k) before := by
  rw [Ends, run_bind_of_ok run]
  exact rest

theorem Ends.imp {weaker : β → σ → Prop} {m : Exec σ ε β} (ends : Ends allowed post m before)
    (imp : ∀ value after, post value after → weaker value after) :
    Ends allowed weaker m before := by
  rw [Ends] at ends ⊢
  split at ends <;> simp_all

theorem Ends.weaken {more : ε → Prop} {m : Exec σ ε β} (ends : Ends allowed post m before)
    (imp : ∀ why, allowed why → more why) : Ends more post m before := by
  rw [Ends] at ends ⊢
  split at ends <;> simp_all

theorem ends_ite {condition : Prop} [Decidable condition] {yes no : Exec σ ε β}
    (first : condition → Ends allowed post yes before)
    (second : ¬ condition → Ends allowed post no before) :
    Ends allowed post (if condition then yes else no) before := by
  split
  case isTrue holds => exact first holds
  case isFalse fails => exact second fails

/-- A computation on a component of the state. -/
theorem ends_zoom {τ : Type} {view : σ → τ} {update : τ → σ → σ} {m : Exec τ ε β}
    (ends : Ends allowed (fun value part => post value (update part before)) m (view before)) :
    Ends allowed post (zoom view update m) before := by
  rw [Ends] at ends
  cases run : m.run (view before) with
  | error why =>
      have stopped : (zoom view update m).run before = .error why := by
        simp [zoom, StateT.run, show m (view before) = .error why from run]
      rw [run] at ends
      rw [Ends, stopped]
      exact ends
  | ok pair =>
      have returned : (zoom view update m).run before = .ok (pair.1, update pair.2 before) :=
        run_zoom_ok.mpr ⟨pair.2, run, rfl⟩
      rw [run] at ends
      rw [Ends, returned]
      exact ends

end Ends

end Exec
