import Lfsc.Exec.Basic

/-!
# Computations that emit events

A traced computation emits events while it runs, and they stay where it stops.  Erasing the events
leaves a plain computation.  A recorder accepts a trace or rejects it; a traced computation is
followed by a recorder if every event of every run is accepted.
-/

/-- Computations over a state `σ` that emit events `ω` and return a value or stop for a reason. -/
def Traced (ω σ ε α : Type) : Type := σ → List ω × Except ε (α × σ)

namespace Traced

open Exec

variable {ω σ ε α β : Type}

/-- One computation after the other, with the events of both unless the first one stops. -/
def andThen (m : Traced ω σ ε α) (k : α → Traced ω σ ε β) : Traced ω σ ε β := fun state =>
  match m state with
  | (events, .error why) => (events, .error why)
  | (events, .ok (value, middle)) => (events ++ (k value middle).1, (k value middle).2)

instance : Monad (Traced ω σ ε) where
  pure value := fun state => ([], .ok (value, state))
  bind := andThen

/-- A computation that emits nothing. -/
def silent (m : Exec σ ε α) : Traced ω σ ε α := fun state => ([], m.run state)

/-- A computation that emits an event, which depends on the state before it. -/
def emitting (event : σ → ω) (m : Exec σ ε α) : Traced ω σ ε α :=
  fun state => ([event state], m.run state)

/-- The computation without its events. -/
def erase (m : Traced ω σ ε α) : Exec σ ε α := fun state => (m state).2

/-- The events of a run. -/
def events (m : Traced ω σ ε α) (state : σ) : List ω := (m state).1

instance : MonadLift (Exec σ ε) (Traced ω σ ε) := ⟨silent⟩

instance : MonadStateOf σ (Traced ω σ ε) where
  get := silent get
  set state := silent (set state)
  modifyGet f := silent (modifyGet f)

theorem bind_of_error {m : Traced ω σ ε α} {k : α → Traced ω σ ε β} {state : σ} {events : List ω}
    {why : ε} (run : m state = (events, .error why)) :
    (m >>= k) state = (events, .error why) := by
  change andThen m k state = _
  rw [andThen, run]

theorem bind_of_ok {m : Traced ω σ ε α} {k : α → Traced ω σ ε β} {state middle : σ}
    {events : List ω} {value : α} (run : m state = (events, .ok (value, middle))) :
    (m >>= k) state = (events ++ (k value middle).1, (k value middle).2) := by
  change andThen m k state = _
  rw [andThen, run]

theorem erase_bind (m : Traced ω σ ε α) (k : α → Traced ω σ ε β) :
    (m >>= k).erase = m.erase >>= fun value => (k value).erase := by
  funext state
  change ((m >>= k) state).2 = (m state).2 >>= fun pair => (k pair.1 pair.2).2
  match run : m state with
  | (events, .error why) =>
      rw [bind_of_error run]
      rfl
  | (events, .ok (value, middle)) =>
      rw [bind_of_ok run]
      rfl

/-! ## Recorders -/

variable {W : Type} {record : W → ω → Option W}

/-- From the states of a precondition a traced computation erases to a plain one, every event is
recorded, and where the run returns it leaves a postcondition. -/
structure Records (record : W → ω → Option W) (pre : W → σ → Prop) (m : Traced ω σ ε α)
    (plain : Exec σ ε α) (post : α → W → σ → Prop) : Prop where
  same : m.erase = plain
  recorded : ∀ book state, pre book state → ∃ after, (m.events state).foldlM record book = some after ∧
    ∀ value next, (m state).2 = .ok (value, next) → post value after next

section Records

variable {pre : W → σ → Prop} {mid : α → W → σ → Prop} {post : β → W → σ → Prop}

theorem records_pure {value : β} (holds : ∀ book state, pre book state → post value book state) :
    Records record pre (pure value : Traced ω σ ε β) (pure value) post := by
  refine ⟨rfl, fun book state start => ⟨book, rfl, ?_⟩⟩
  intro result next run
  obtain ⟨rfl, rfl⟩ := Prod.mk.inj (Except.ok.inj run)
  exact holds book state start

/-- A silent computation records nothing. -/
theorem records_silent {plain : Exec σ ε β} (holds : ∀ book state value next, pre book state →
      plain.run state = .ok (value, next) → post value book next) :
    Records record pre (silent plain) plain post :=
  ⟨rfl, fun book state start => ⟨book, rfl, fun value next run => holds book state value next start run⟩⟩

theorem records_emitting {event : σ → ω} {plain : Exec σ ε β} (holds : ∀ book state, pre book state →
      ∃ after, record book (event state) = some after ∧
        ∀ value next, plain.run state = .ok (value, next) → post value after next) :
    Records record pre (emitting event plain) plain post := by
  refine ⟨rfl, fun book state start => ?_⟩
  obtain ⟨after, recorded, returns⟩ := holds book state start
  refine ⟨after, ?_, returns⟩
  change [event state].foldlM record book = some after
  simp [recorded]

theorem records_bind {m : Traced ω σ ε α} {k : α → Traced ω σ ε β} {plain : Exec σ ε α}
    {rest : α → Exec σ ε β} (first : Records record pre m plain mid)
    (second : ∀ value, Records record (mid value) (k value) (rest value) post) :
    Records record pre (m >>= k) (plain >>= rest) post := by
  constructor
  · rw [erase_bind, first.same]
    exact congrArg (plain >>= ·) (funext fun value => (second value).same)
  · intro book state start
    obtain ⟨between, recorded, returns⟩ := first.recorded book state start
    rw [events] at recorded
    match run : m state with
    | (events, .error why) =>
        rw [run] at recorded
        rw [Traced.events, bind_of_error run]
        exact ⟨between, recorded, by simp⟩
    | (events, .ok (value, middle)) =>
        rw [run] at recorded returns
        obtain ⟨after, more, ends⟩ :=
          (second value).recorded between middle (returns value middle rfl)
        rw [Traced.events, bind_of_ok run]
        refine ⟨after, ?_, ends⟩
        rw [List.foldlM_append, recorded]
        exact more

theorem records_map {m : Traced ω σ ε α} {plain : Exec σ ε α} {f : α → β}
    (records : Records record pre m plain fun value => post (f value)) :
    Records record pre (f <$> m) (f <$> plain) post := by
  rw [map_eq_pure_bind f plain]
  exact records_bind records fun value => records_pure fun _ _ holds => holds

theorem records_ite {condition : Prop} [Decidable condition] {yes no : Traced ω σ ε β}
    {plainYes plainNo : Exec σ ε β} (first : condition → Records record pre yes plainYes post)
    (second : ¬ condition → Records record pre no plainNo post) :
    Records record pre (if condition then yes else no) (if condition then plainYes else plainNo)
      post := by
  split
  · exact first ‹_›
  · exact second ‹_›

theorem Records.imp {stronger : W → σ → Prop} {weaker : β → W → σ → Prop} {m : Traced ω σ ε β}
    {plain : Exec σ ε β} (records : Records record pre m plain post)
    (before : ∀ book state, stronger book state → pre book state)
    (after : ∀ value book state, post value book state → weaker value book state) :
    Records record stronger m plain weaker := by
  refine ⟨records.same, fun book state start => ?_⟩
  obtain ⟨last, recorded, returns⟩ := records.recorded book state (before book state start)
  exact ⟨last, recorded, fun value next run => after value last next (returns value next run)⟩

/-- A computation for each item of a list, each of which leaves the precondition as it was. -/
theorem records_mapM {γ : Type} {m : γ → Traced ω σ ε β} {plain : γ → Exec σ ε β}
    (each : ∀ item, Records record pre (m item) (plain item) fun _ => pre) (items : List γ) :
    Records record pre (items.mapM m) (items.mapM plain) fun _ => pre := by
  have loop : ∀ found : List β, Records record pre (List.mapM.loop m items found)
      (List.mapM.loop plain items found) fun _ => pre := by
    induction items with
    | nil => exact fun found => records_pure fun _ _ start => start
    | cons item rest hyp => exact fun found => records_bind (each item) fun value => hyp (value :: found)
  exact loop []

end Records

/-! ## Runs with recorded events -/

/-- From the states of a precondition, a run whose events are all recorded leaves a postcondition
where it returns. -/
structure Establishes (record : W → ω → Option W) (pre : W → σ → Prop) (m : Traced ω σ ε α)
    (post : α → W → σ → Prop) : Prop where
  along : ∀ book state, pre book state → ∀ after, (m.events state).foldlM record book = some after →
    ∀ value next, (m state).2 = .ok (value, next) → post value after next

section Establishes

variable {pre : W → σ → Prop} {mid : α → W → σ → Prop} {post : β → W → σ → Prop}

theorem establishes_pure {value : β} (holds : ∀ book state, pre book state → post value book state) :
    Establishes record pre (pure value : Traced ω σ ε β) post := by
  constructor
  intro book state start after recorded result next run
  obtain rfl := Option.some.inj recorded
  obtain ⟨rfl, rfl⟩ := Prod.mk.inj (Except.ok.inj run)
  exact holds book state start

theorem establishes_silent {plain : Exec σ ε β} (holds : ∀ book state value next, pre book state →
      plain.run state = .ok (value, next) → post value book next) :
    Establishes record pre (silent plain) post := by
  constructor
  intro book state start after recorded value next run
  obtain rfl := Option.some.inj recorded
  exact holds book state value next start run

theorem establishes_emitting {event : σ → ω} {plain : Exec σ ε β}
    (holds : ∀ book state after value next, pre book state → record book (event state) = some after →
      plain.run state = .ok (value, next) → post value after next) :
    Establishes record pre (emitting event plain) post := by
  constructor
  intro book state start after recorded value next run
  change [event state].foldlM record book = some after at recorded
  exact holds book state after value next start (by simpa using recorded) run

theorem establishes_bind {m : Traced ω σ ε α} {k : α → Traced ω σ ε β}
    (first : Establishes record pre m mid) (second : ∀ value, Establishes record (mid value) (k value) post) :
    Establishes record pre (m >>= k) post := by
  constructor
  intro book state start after recorded value next returned
  rw [events] at recorded
  match run : m state with
  | (events, .error why) =>
      rw [bind_of_error run] at returned
      cases returned
  | (events, .ok (middle, between)) =>
      rw [bind_of_ok run] at recorded returned
      rw [List.foldlM_append] at recorded
      obtain ⟨book', recorded', rest⟩ := Option.bind_eq_some_iff.mp recorded
      have reached : mid middle book' between := by
        apply first.along book state start book' _ middle between
        · rw [run]
        · rwa [Traced.events, run]
      exact (second middle).along book' between reached after rest value next returned

theorem establishes_ite {condition : Prop} [Decidable condition] {yes no : Traced ω σ ε β}
    (first : condition → Establishes record pre yes post)
    (second : ¬ condition → Establishes record pre no post) :
    Establishes record pre (if condition then yes else no) post := by
  split
  · exact first ‹_›
  · exact second ‹_›

theorem Establishes.imp {stronger : W → σ → Prop} {weaker : β → W → σ → Prop} {m : Traced ω σ ε β}
    (establishes : Establishes record pre m post)
    (before : ∀ book state, stronger book state → pre book state)
    (after : ∀ value book state, post value book state → weaker value book state) :
    Establishes record stronger m weaker := by
  constructor
  intro book state start last recorded value next run
  have reached := establishes.along book state (before book state start) last recorded value next run
  exact after value last next reached

/-- A computation from fewer states. -/
theorem Establishes.weaken {stronger : W → σ → Prop} {m : Traced ω σ ε β}
    (establishes : Establishes record pre m post)
    (before : ∀ book state, stronger book state → pre book state) :
    Establishes record stronger m post := establishes.imp before fun _ _ _ holds => holds

/-- A computation that leaves more. -/
theorem Establishes.mono {weaker : β → W → σ → Prop} {m : Traced ω σ ε β}
    (establishes : Establishes record pre m post)
    (after : ∀ value book state, post value book state → weaker value book state) :
    Establishes record pre m weaker := establishes.imp (fun _ _ start => start) after

/-- A fact that the precondition contains. -/
theorem establishes_fact {fact : Prop} {m : Traced ω σ ε β}
    (rest : fact → Establishes record pre m post) :
    Establishes record (fun book state => fact ∧ pre book state) m post :=
  ⟨fun book state start => (rest start.1).along book state start.2⟩

/-- A word, a number or anything else that the precondition speaks of. -/
theorem establishes_exists {γ : Type} {pre : γ → W → σ → Prop} {m : Traced ω σ ε β}
    (rest : ∀ item, Establishes record (pre item) m post) :
    Establishes record (fun book state => ∃ item, pre item book state) m post := by
  constructor
  rintro book state ⟨item, start⟩
  exact (rest item).along book state start

/-- A computation for each item of a list, each of which leaves the precondition as it was. -/
theorem establishes_mapM {γ : Type} {m : γ → Traced ω σ ε β}
    (each : ∀ item, Establishes record pre (m item) fun _ => pre) (items : List γ) :
    Establishes record pre (items.mapM m) fun _ => pre := by
  have loop : ∀ found : List β, Establishes record pre (List.mapM.loop m items found)
      fun _ => pre := by
    induction items with
    | nil => exact fun found => establishes_pure fun _ _ start => start
    | cons item rest hyp =>
        exact fun found => establishes_bind (each item) fun value => hyp (value :: found)
  exact loop []

end Establishes

end Traced
