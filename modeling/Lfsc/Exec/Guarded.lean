import Lfsc.Exec.Basic

/-!
# Guarded computations

A guarded computation stops where the computation that it guards would break what is to be kept.  It
returns if and only if the other one returns and keeps it, and then with the same result.
-/

namespace Exec

variable {σ τ ε α β : Type}

/-- What is kept between the ends of two framed runs is kept by both of them. -/
class Steady (frame kept : σ → σ → Prop) : Prop where
  split {first middle last : σ} : frame first middle → frame middle last → kept first last →
    kept first middle ∧ kept middle last

/-- From a state, a computation is guarded by another one. -/
structure GuardedAt (frame kept : σ → σ → Prop) (m guarded : Exec σ ε α) (before : σ) : Prop where
  framed : ∀ value after, m.run before = .ok (value, after) → frame before after
  passes : ∀ value after, m.run before = .ok (value, after) → kept before after →
    guarded.run before = .ok (value, after)
  sound : ∀ value after, guarded.run before = .ok (value, after) →
    m.run before = .ok (value, after) ∧ kept before after

/-- A computation is guarded by another one. -/
def Guarded (frame kept : σ → σ → Prop) (m guarded : Exec σ ε α) : Prop :=
  ∀ before, GuardedAt frame kept m guarded before

section Guarded

variable {frame kept : σ → σ → Prop} {before : σ}

/-- A run that returns keeps what is to be kept exactly if the guarded one returns. -/
theorem GuardedAt.kept_iff {m guarded : Exec σ ε α} (guards : GuardedAt frame kept m guarded before)
    {value : α} {after : σ} (run : m.run before = .ok (value, after)) :
    kept before after ↔ ∃ result, guarded.run before = .ok result := by
  constructor
  · intro keeps
    exact ⟨_, guards.passes value after run keeps⟩
  · rintro ⟨⟨value', after'⟩, other⟩
    obtain ⟨run', keeps⟩ := guards.sound value' after' other
    rw [run] at run'
    cases run'
    exact keeps

/-- A computation that keeps what is to be kept guards itself. -/
theorem guarded_self {m : Exec σ ε α} (framed : Keeps frame m) (keeps : Keeps kept m) :
    Guarded frame kept m m := by
  intro before
  exact ⟨framed before, fun _ _ run _ => run, fun value after run =>
    ⟨run, keeps before value after run⟩⟩

theorem guarded_pure [Std.Refl frame] [Std.Refl kept] (value : α) :
    Guarded frame kept (pure value : Exec σ ε α) (pure value) :=
  guarded_self (keeps_pure value) (keeps_pure value)

theorem guarded_stop (why : ε) : Guarded frame kept (stop why : Exec σ ε α) (stop why) :=
  guarded_self (keeps_stop why) (keeps_stop why)

/-- A computation is stopped where it breaks what is to be kept. -/
theorem guardedAt_broken {m : Exec σ ε α} {why : ε}
    (framed : ∀ value after, m.run before = .ok (value, after) → frame before after)
    (breaks : ∀ value after, m.run before = .ok (value, after) → ¬ kept before after) :
    GuardedAt frame kept m (stop why) before := by
  refine ⟨framed, fun value after run keeps => (breaks value after run keeps).elim, ?_⟩
  exact fun value after run => (run_stop_ok.mp run).elim

theorem guardedAt_bind [IsTrans σ frame] [IsTrans σ kept] [Steady frame kept] {m m' : Exec σ ε α}
    {k k' : α → Exec σ ε β} (first : GuardedAt frame kept m m' before)
    (rest : ∀ value middle, m.run before = .ok (value, middle) →
      GuardedAt frame kept (k value) (k' value) middle) :
    GuardedAt frame kept (m >>= k) (m' >>= k') before := by
  constructor
  · intro result after run
    obtain ⟨middle, value, firstRun, restRun⟩ := run_bind_ok.mp run
    exact IsTrans.trans _ _ _ (first.framed _ _ firstRun)
      ((rest value middle firstRun).framed _ _ restRun)
  · intro result after run keeps
    obtain ⟨middle, value, firstRun, restRun⟩ := run_bind_ok.mp run
    have later := rest value middle firstRun
    obtain ⟨keepsFirst, keepsRest⟩ := Steady.split (first.framed _ _ firstRun)
      (later.framed _ _ restRun) keeps
    exact run_bind_ok.mpr ⟨middle, value, first.passes _ _ firstRun keepsFirst,
      later.passes _ _ restRun keepsRest⟩
  · intro result after run
    obtain ⟨middle, value, firstRun, restRun⟩ := run_bind_ok.mp run
    obtain ⟨firstRun', keepsFirst⟩ := first.sound _ _ firstRun
    obtain ⟨restRun', keepsRest⟩ := (rest value middle firstRun').sound _ _ restRun
    exact ⟨run_bind_ok.mpr ⟨middle, value, firstRun', restRun'⟩,
      IsTrans.trans _ _ _ keepsFirst keepsRest⟩

theorem guarded_bind [IsTrans σ frame] [IsTrans σ kept] [Steady frame kept] {m m' : Exec σ ε α}
    {k k' : α → Exec σ ε β} (first : Guarded frame kept m m')
    (rest : ∀ value, Guarded frame kept (k value) (k' value)) :
    Guarded frame kept (m >>= k) (m' >>= k') :=
  fun before => guardedAt_bind (first before) fun value middle _ => rest value middle

/-- A computation on a component is guarded by guarding it on the component. -/
theorem guarded_zoom {view : τ → σ} {update : σ → τ → τ} {m guarded : Exec σ ε α}
    (seen : ∀ part state, view (update part state) = part)
    (guards : Guarded frame kept m guarded) :
    Guarded (fun before after => frame (view before) (view after))
      (fun before after => kept (view before) (view after)) (zoom view update m)
      (zoom view update guarded) := by
  intro before
  constructor
  · intro value after run
    obtain ⟨part, inner, rfl⟩ := run_zoom_ok.mp run
    rw [seen]
    exact (guards _).framed _ _ inner
  · intro value after run keeps
    obtain ⟨part, inner, rfl⟩ := run_zoom_ok.mp run
    rw [seen] at keeps
    exact run_zoom_ok.mpr ⟨part, (guards _).passes _ _ inner keeps, rfl⟩
  · intro value after run
    obtain ⟨part, inner, rfl⟩ := run_zoom_ok.mp run
    obtain ⟨inner', keeps⟩ := (guards _).sound _ _ inner
    rw [seen]
    exact ⟨run_zoom_ok.mpr ⟨part, inner', rfl⟩, keeps⟩

end Guarded

end Exec
