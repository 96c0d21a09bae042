import Mathlib.Data.List.Nodup
import Mathlib.Data.List.Infix
import Lfsc.FunctionCache

/-!
# The trie of results

A call of a function looks up its node in the trie of results, runs its body, which makes further
nodes, and stores the result in the node that it looked up.  Nodes stay where they were made, each
for one key, so that the trie is the finite map of the evaluator.
-/

namespace Lfsc

open Exec

/-- `ExprTrie`. -/
structure ExprTrie where
  /-- `d_data`. -/
  data : Option Ref
  /-- `d_children`, with the places of the children. -/
  children : List (Ref × Nat)

namespace ExprTrie

/-- `ExprTrie()`. -/
def new : ExprTrie := ⟨none, []⟩

/-- `d_children.find`. -/
def child (nodes : List ExprTrie) (curr : Nat) (e : Ref) : Option Nat :=
  nodes[curr]?.bind fun node => node.children.lookup e

/-- One round of the loop of `get`.  The node that `d_children[e]` makes stays at its place. -/
def descend (nodes : List ExprTrie) (curr : Nat) (e : Ref) : Nat × List ExprTrie :=
  match child nodes curr e with
  | some next => (next, nodes)
  | none =>
      (nodes.length,
        nodes.modify curr (fun node => { node with children := (e, nodes.length) :: node.children }) ++
          [new])

/-- `get`. -/
def get (nodes : List ExprTrie) (curr : Nat) : List Ref → Nat × List ExprTrie
  | [] => (curr, nodes)
  | e :: args => get (descend nodes curr e).2 (descend nodes curr e).1 args

/-- `getData`. -/
def getData (nodes : List ExprTrie) (curr : Nat) : Option Ref := nodes[curr]?.bind ExprTrie.data

/-- `setData`. -/
def setData (nodes : List ExprTrie) (curr : Nat) (d : Ref) : List ExprTrie :=
  nodes.modify curr fun node => { node with data := some d }

/-! ## Nodes and keys -/

/-- Each node belongs to a key of its own, its children to the keys with one expression more. -/
structure Grown (keys : List (List Ref)) (nodes : List ExprTrie) : Prop where
  length : keys.length = nodes.length
  nodup : keys.Nodup
  root : keys[0]? = some []
  closed : ∀ key e, key ++ [e] ∈ keys → key ∈ keys
  edges : ∀ i e j, child nodes i e = some j ↔
    ∃ key, keys[i]? = some key ∧ keys[j]? = some (key ++ [e])

theorem grown_new : Grown [[]] [new] where
  length := rfl
  nodup := List.nodup_singleton _
  root := rfl
  closed := by simp
  edges i e j := by
    cases i with
    | zero => cases j <;> simp [child, new]
    | succ i => simp [child]

/-- A place in a list is the same place in a longer one. -/
theorem at_append_of_at {α : Type} {xs more : List α} {i : Nat} {x : α} (found : xs[i]? = some x) :
    (xs ++ more)[i]? = some x := by
  rw [List.getElem?_append_left (List.getElem?_eq_some_iff.mp found).1]
  exact found

theorem at_concat {α : Type} {xs : List α} {i : Nat} {x last : α}
    (found : (xs ++ [last])[i]? = some x) : xs[i]? = some x ∨ i = xs.length ∧ x = last := by
  by_cases bound : i < xs.length
  · rw [List.getElem?_append_left bound] at found
    exact .inl found
  · rw [List.getElem?_append_right (Nat.le_of_not_lt bound)] at found
    obtain ⟨position, same⟩ := List.getElem?_eq_some_iff.mp found
    rw [List.length_singleton] at position
    exact .inr ⟨by omega, by simpa using same.symm⟩

/-- What is found after a node was changed and a new one made. -/
theorem grown_at (nodes : List ExprTrie) (curr : Nat) (f : ExprTrie → ExprTrie) (i : Nat) :
    (nodes.modify curr f ++ [new])[i]? = (nodes.modify curr f)[i]? ∨
      nodes[i]? = none ∧ (nodes.modify curr f ++ [new])[i]? = some new := by
  rcases Nat.lt_trichotomy i nodes.length with old | rfl | beyond
  · exact .inl (List.getElem?_append_left (by rwa [List.length_modify]))
  · refine .inr ⟨List.getElem?_eq_none (Nat.le_refl _), ?_⟩
    rw [List.getElem?_append_right (by rw [List.length_modify]), List.length_modify, Nat.sub_self]
    rfl
  · left
    have length : (nodes.modify curr f ++ [new]).length = nodes.length + 1 := by simp
    rw [List.getElem?_eq_none (length ▸ beyond),
      List.getElem?_eq_none (by simpa using Nat.le_of_lt beyond)]

theorem child_new {nodes : List ExprTrie} {curr : Nat} (bound : curr < nodes.length) (e e' : Ref)
    (i : Nat) :
    child (nodes.modify curr (fun node => { node with children := (e, nodes.length) :: node.children }) ++
      [new]) i e' = if i = curr ∧ e' = e then some nodes.length else child nodes i e' := by
  rw [child, child]
  rcases grown_at nodes curr _ i with same | ⟨absent, made⟩
  · rw [same, List.getElem?_modify]
    by_cases here : i = curr
    · obtain rfl := here
      rw [List.getElem?_eq_getElem bound]
      by_cases added : e' = e
      · simp [added]
      · simp [added, List.lookup_cons, beq_eq_false_iff_ne.mpr added]
    · simp [here, Ne.symm here]
  · have beyond : i ≠ curr := by
      rintro rfl
      exact absurd bound (Nat.not_lt_of_le (List.getElem?_eq_none_iff.mp absent))
    rw [made, absent, if_neg fun both => beyond both.1]
    rfl

theorem getData_descend (nodes : List ExprTrie) (curr : Nat) (e : Ref) (i : Nat) :
    getData (descend nodes curr e).2 i = getData nodes i := by
  rw [descend]
  cases child nodes curr e with
  | some next => rfl
  | none =>
      rw [getData, getData]
      rcases grown_at nodes curr _ i with same | ⟨absent, made⟩
      · rw [same, List.getElem?_modify]
        cases nodes[i]? with
        | none => rfl
        | some node => by_cases here : curr = i <;> simp [here]
      · rw [made, absent]
        rfl

theorem Grown.descend {keys : List (List Ref)} {nodes : List ExprTrie} {curr : Nat} {key : List Ref}
    (grown : Grown keys nodes) (found : keys[curr]? = some key) (e : Ref) :
    ∃ more, Grown (keys ++ more) (descend nodes curr e).2 ∧
      (keys ++ more)[(ExprTrie.descend nodes curr e).1]? = some (key ++ [e]) := by
  have bound : curr < keys.length := (List.getElem?_eq_some_iff.mp found).1
  rw [ExprTrie.descend]
  cases next : child nodes curr e with
  | some j =>
      obtain ⟨key', same, stands⟩ := (grown.edges curr e j).mp next
      obtain rfl : key = key' := Option.some.inj (found.symm.trans same)
      exact ⟨[], by simpa using grown, by simpa using stands⟩
  | none =>
      have fresh : key ++ [e] ∉ keys := by
        intro mem
        obtain ⟨j, stands⟩ := List.getElem?_of_mem mem
        rw [(grown.edges curr e j).mpr ⟨key, found, stands⟩] at next
        cases next
      have last : (keys ++ [key ++ [e]])[nodes.length]? = some (key ++ [e]) := by
        rw [← grown.length, List.getElem?_concat_length]
      refine ⟨[key ++ [e]], ?_, last⟩
      constructor
      case length => simp [grown.length]
      case nodup =>
        rw [← List.concat_eq_append]
        exact (List.nodup_concat _ _).mpr ⟨fresh, grown.nodup⟩
      case root =>
        rw [List.getElem?_append_left (by omega)]
        exact grown.root
      case closed =>
        intro key' e' mem
        rcases List.mem_append.mp mem with old | new
        · exact List.mem_append_left _ (grown.closed key' e' old)
        · obtain ⟨rfl, -⟩ := List.append_inj' (List.mem_singleton.mp new) rfl
          exact List.mem_append_left _ (List.mem_of_getElem? found)
      case edges =>
        intro i e' j
        rw [child_new (grown.length ▸ bound)]
        by_cases added : i = curr ∧ e' = e
        · obtain ⟨rfl, rfl⟩ := added
          rw [if_pos ⟨rfl, rfl⟩, Option.some.injEq]
          constructor
          · rintro rfl
            exact ⟨key, at_append_of_at found, last⟩
          · rintro ⟨key', stands, further⟩
            rcases at_concat stands with stands | ⟨rfl, -⟩
            · obtain rfl := Option.some.inj (found.symm.trans stands)
              rcases at_concat further with old | ⟨same, -⟩
              · exact (fresh (List.mem_of_getElem? old)).elim
              · exact (same.trans grown.length).symm
            · exact (Nat.lt_irrefl _ bound).elim
        · rw [if_neg added, grown.edges]
          constructor
          · rintro ⟨key', stands, further⟩
            exact ⟨key', at_append_of_at stands, at_append_of_at further⟩
          · rintro ⟨key', stands, further⟩
            rcases at_concat stands with stood | ⟨-, rfl⟩
            · rcases at_concat further with further | ⟨-, same⟩
              · exact ⟨key', stood, further⟩
              · obtain ⟨rfl, single⟩ := List.append_inj' same rfl
                have place := (List.getElem?_inj bound grown.nodup).mp (found.trans stood.symm)
                exact (added ⟨place.symm, List.singleton_inj.mp single⟩).elim
            · rcases at_concat further with further | ⟨-, same⟩
              · exact (fresh (grown.closed _ _ (List.mem_of_getElem? further))).elim
              · exact absurd (congrArg List.length same) (by simp)

/-- `get` makes nodes where there are none and changes no data. -/
theorem Grown.get {keys : List (List Ref)} {nodes : List ExprTrie} {curr : Nat} {key : List Ref}
    (grown : Grown keys nodes) (found : keys[curr]? = some key) (args : List Ref) :
    ∃ more, Grown (keys ++ more) (get nodes curr args).2 ∧
      (keys ++ more)[(ExprTrie.get nodes curr args).1]? = some (key ++ args) ∧
      ∀ i, getData (ExprTrie.get nodes curr args).2 i = getData nodes i := by
  induction args generalizing keys nodes curr key with
  | nil => exact ⟨[], by simpa [ExprTrie.get] using grown, by simpa [ExprTrie.get] using found, fun _ => rfl⟩
  | cons e args hyp =>
      obtain ⟨more, grown, found⟩ := grown.descend found e
      obtain ⟨others, grown, found, same⟩ := hyp grown found
      refine ⟨more ++ others, ?_, ?_, fun i => (same i).trans (getData_descend nodes curr e i)⟩
      · rwa [← List.append_assoc]
      · rwa [← List.append_assoc, List.append_cons]

theorem child_setData (nodes : List ExprTrie) (curr : Nat) (d : Ref) (i : Nat) (e : Ref) :
    child (setData nodes curr d) i e = child nodes i e := by
  rw [child, child, setData, List.getElem?_modify]
  cases nodes[i]? with
  | none => rfl
  | some node => by_cases here : curr = i <;> simp [here]

theorem getData_setData {nodes : List ExprTrie} {curr : Nat} (bound : curr < nodes.length) (d : Ref)
    (i : Nat) : getData (setData nodes curr d) i = if i = curr then some d else getData nodes i := by
  rw [getData, getData, setData, List.getElem?_modify]
  by_cases here : i = curr
  · obtain rfl := here
    rw [List.getElem?_eq_getElem bound]
    simp
  · simp [here, Ne.symm here]

theorem Grown.setData {keys : List (List Ref)} {nodes : List ExprTrie} (grown : Grown keys nodes)
    (curr : Nat) (d : Ref) : Grown keys (setData nodes curr d) where
  length := by rw [grown.length, ExprTrie.setData, List.length_modify]
  nodup := grown.nodup
  root := grown.root
  closed := grown.closed
  edges i e j := by rw [child_setData, grown.edges]

/-! ## The map of the evaluator -/

/-- The data at the nodes are the results in the cache. -/
structure Holds (keys : List (List Ref)) (nodes : List ExprTrie) (cache : List (List Ref × Ref)) :
    Prop extends Grown keys nodes where
  stored : ∀ i key, keys[i]? = some key → getData nodes i = cache.lookup key
  absent : ∀ key, key ∉ keys → cache.lookup key = none

theorem holds_new : Holds [[]] [new] [] where
  toGrown := grown_new
  stored i key _ := by cases i <;> simp [getData, new]
  absent _ _ := rfl

theorem Holds.get {keys : List (List Ref)} {nodes : List ExprTrie} {cache : List (List Ref × Ref)}
    (holds : Holds keys nodes cache) (key : List Ref) :
    ∃ more, Holds (keys ++ more) (get nodes 0 key).2 cache ∧
      (keys ++ more)[(ExprTrie.get nodes 0 key).1]? = some key := by
  obtain ⟨more, grown, found, same⟩ := holds.toGrown.get holds.root key
  refine ⟨more, ⟨grown, fun i key' stands => ?_, fun key' absent => ?_⟩, found⟩
  · rw [same]
    by_cases old : key' ∈ keys
    · obtain ⟨j, stands'⟩ := List.getElem?_of_mem old
      have stood : (keys ++ more)[j]? = some key' := at_append_of_at stands'
      have bound := (List.getElem?_eq_some_iff.mp stood).1
      obtain rfl : j = i := (List.getElem?_inj bound grown.nodup).mp (stood.trans stands.symm)
      exact holds.stored j key' stands'
    · rw [holds.absent key' old, getData, List.getElem?_eq_none]
      · rfl
      · by_contra bound
        rw [← holds.length, not_le] at bound
        rw [List.getElem?_append_left bound] at stands
        exact old (List.mem_of_getElem? stands)
  · exact holds.absent key' fun old => absent (List.mem_append_left _ old)

theorem Holds.setData {keys : List (List Ref)} {nodes : List ExprTrie} {cache : List (List Ref × Ref)}
    (holds : Holds keys nodes cache) {curr : Nat} {key : List Ref} (found : keys[curr]? = some key)
    (d : Ref) : Holds keys (setData nodes curr d) ((key, d) :: cache) := by
  have bound := (List.getElem?_eq_some_iff.mp found).1
  refine ⟨holds.toGrown.setData curr d, fun i key' stands => ?_, fun key' absent => ?_⟩
  · rw [getData_setData (holds.length ▸ bound)]
    by_cases here : i = curr
    · obtain rfl := here
      obtain rfl := Option.some.inj (found.symm.trans stands)
      simp
    · have other : key' ≠ key := by
        rintro rfl
        exact here ((List.getElem?_inj bound holds.nodup).mp (found.trans stands.symm)).symm
      rw [if_neg here, holds.stored i key' stands, List.lookup_cons, beq_eq_false_iff_ne.mpr other]
  · have other : key' ≠ key := by
      rintro rfl
      exact absent (List.mem_of_getElem? found)
    rw [List.lookup_cons, beq_eq_false_iff_ne.mpr other]
    exact holds.absent key' absent

/-! ## Runs -/

/-- The trie of a call of `run_code` beside the state of the model, with the pointers that calls of
functions keep for their keys. -/
inductive Uses : List ExprTrie → List (List Ref × Nat) → Runtime → Prop
  | start {runtime : Runtime} : runtime.cache = [] → Uses [new] [] runtime
  | other {nodes : List ExprTrie} {held : List (List Ref × Nat)} {before after : Runtime} :
      Uses nodes held before → after.cache = before.cache → Uses nodes held after
  | look {nodes : List ExprTrie} {held : List (List Ref × Nat)} {before after : Runtime}
      {key : List Ref} {answer : Option Ref} : Uses nodes held before →
      (cached key).run before = .ok (answer, after) →
      Uses (get nodes 0 key).2 ((key, (get nodes 0 key).1) :: held) after
  | store {nodes : List ExprTrie} {held : List (List Ref × Nat)} {before after : Runtime}
      {key : List Ref} {curr : Nat} {value : Ref} : Uses nodes held before → (key, curr) ∈ held →
      (cacheResult key value).run before = .ok ((), after) →
      Uses (setData nodes curr value) held after

theorem Uses.holds {nodes : List ExprTrie} {held : List (List Ref × Nat)} {runtime : Runtime}
    (uses : Uses nodes held runtime) : ∃ keys, Holds keys nodes runtime.cache ∧
      ∀ use ∈ held, keys[use.2]? = some use.1 := by
  induction uses with
  | start empty => exact ⟨[[]], empty ▸ holds_new, by simp⟩
  | other _ same hyp => rwa [same]
  | look _ run hyp =>
      obtain ⟨-, rfl⟩ := run_cached_ok.mp run
      obtain ⟨keys, holds, pointers⟩ := hyp
      obtain ⟨more, holds, found⟩ := holds.get _
      refine ⟨keys ++ more, holds, List.forall_mem_cons.mpr ⟨found, fun use mem => ?_⟩⟩
      exact at_append_of_at (pointers use mem)
  | store _ kept run hyp =>
      obtain ⟨keys, holds, pointers⟩ := hyp
      cases run
      exact ⟨keys, holds.setData (pointers _ kept) _, pointers⟩

/-- In every run the pointer kept for a key leads to the result that the cache has for it, whatever
was looked up and stored meanwhile, and so does the pointer that is looked up next. -/
theorem trie_answers {nodes : List ExprTrie} {held : List (List Ref × Nat)} {runtime : Runtime}
    (uses : Uses nodes held runtime) :
    (∀ use ∈ held, getData nodes use.2 = runtime.cache.lookup use.1) ∧
    ∀ (key : List Ref) (answer : Option Ref) (after : Runtime),
      (cached key).run runtime = .ok (answer, after) →
        getData (get nodes 0 key).2 (get nodes 0 key).1 = answer := by
  obtain ⟨keys, holds, pointers⟩ := uses.holds
  refine ⟨fun use mem => holds.stored _ _ (pointers use mem), fun key answer after run => ?_⟩
  obtain ⟨rfl, -⟩ := run_cached_ok.mp run
  obtain ⟨more, holds, found⟩ := holds.get key
  exact holds.stored _ _ found

/-- A result is stored through a pointer after the node of another key was made. -/
theorem trie_answers_stored : ∃ nodes held runtime, Uses nodes held runtime ∧
    held = [([1], 1), ([1, 2], 2)] ∧ runtime.cache = [([1, 2], 7)] ∧
    (∀ use ∈ held, getData nodes use.2 = runtime.cache.lookup use.1) ∧
    ∀ (key : List Ref) (answer : Option Ref) (after : Runtime),
      (cached key).run runtime = .ok (answer, after) →
        getData (get nodes 0 key).2 (get nodes 0 key).1 = answer := by
  let start : Runtime := ⟨⟨[], fun _ _ => false, fun _ => false, 0⟩, fun _ _ => false, [], [], []⟩
  have first : Uses _ [([1, 2], 2)] start := (Uses.start rfl).look (run_cached_ok.mpr ⟨rfl, rfl⟩)
  have second : Uses _ [([1], 1), ([1, 2], 2)] start := first.look (run_cached_ok.mpr ⟨rfl, rfl⟩)
  have third : Uses (setData _ 2 7) _ { start with cache := [([1, 2], 7)] } :=
    second.store (by decide) rfl
  exact ⟨_, _, _, third, rfl, rfl, trie_answers third⟩

/-! ## Side-condition code -/

/-- A computation that goes on with the trie and keeps the pointers. -/
def Served {α : Type} (m : RunM α) : Prop :=
  ∀ (nodes : List ExprTrie) (held : List (List Ref × Nat)) (before after : Runtime) (value : α),
    Uses nodes held before → m.run before = .ok (value, after) →
    ∃ nodes' held', Uses nodes' held' after ∧ held ⊆ held'

theorem served_of_cache {α : Type} {m : RunM α}
    (same : ∀ before value after, m.run before = .ok (value, after) → after.cache = before.cache) :
    Served m :=
  fun _ _ _ _ _ uses run => ⟨_, _, uses.other (same _ _ _ run), List.Subset.refl _⟩

theorem served_pure {α : Type} (value : α) : Served (pure value) :=
  served_of_cache fun _ _ _ run => by
    obtain ⟨-, rfl⟩ := run_pure_ok.mp run
    rfl

theorem served_bind {α β : Type} {m : RunM α} {k : α → RunM β} (first : Served m)
    (later : ∀ value, Served (k value)) : Served (m >>= k) := by
  intro nodes held before after value uses run
  obtain ⟨between, middle, firstRun, laterRun⟩ := run_bind_ok.mp run
  obtain ⟨nodes', held', uses', kept⟩ := first _ _ _ _ _ uses firstRun
  obtain ⟨nodes'', held'', uses'', kept'⟩ := later _ _ _ _ _ _ uses' laterRun
  exact ⟨nodes'', held'', uses'', List.Subset.trans kept kept'⟩

theorem served_lift {α : Type} (m : StoreM α) : Served (liftM m : RunM α) :=
  served_of_cache fun _ _ _ run => by
    obtain ⟨_, -, rfl⟩ := run_lift_ok.mp run
    rfl

/-- Going on with the trie is a congruence, calls of functions apart. -/
theorem congruence_served : Congruence (fun m _ => Served m) where
  pure := served_pure
  stop _ _ _ _ _ _ _ run := by cases run
  bind := served_bind
  lift _ := served_lift _
  getMark r index := served_of_cache fun before value after run => by
    obtain ⟨-, rfl⟩ := run_getMark_ok.mp run
    rfl
  toggleMark _ _ := served_of_cache fun _ _ _ run => by
    cases run
    rfl

theorem served_noteEvent (event : RunEvent) : Served (noteEvent event) :=
  served_of_cache fun _ _ _ run => by
    cases run
    rfl

/-- A call of a function keeps the pointer to its node while its body runs. -/
theorem served_runFunction {self : Ref → Bool → RunM (Option Ref)}
    (served : ∀ r useCache, Served (self r useCache)) (key : List Ref) (prog : Ref)
    (prevs : List (Ref × Option Ref)) : Served (runFunction self key prog prevs) := by
  intro nodes held before after value uses run
  rw [runFunction] at run
  obtain ⟨looked, answer, lookRun, laterRun⟩ := run_bind_ok.mp run
  have uses' := uses.look lookRun
  cases answer with
  | some answer =>
      have answered := served_bind (served_noteEvent (.answered key)) fun _ => served_pure (some answer)
      obtain ⟨nodes', held', uses', kept⟩ := answered _ _ _ _ _ uses' laterRun
      exact ⟨nodes', held', uses', (List.cons_subset.mp kept).2⟩
  | none =>
      obtain ⟨returned, result, bodyRun, storeRun⟩ := run_bind_ok.mp laterRun
      have body : Served (runBody self true prog prevs) :=
        @related_runBody _ self self served congruence_served true prog prevs
      obtain ⟨nodes', held', uses', kept⟩ := body _ _ _ _ _ uses' bodyRun
      obtain ⟨pointer, others⟩ := List.cons_subset.mp kept
      cases result with
      | none =>
          obtain ⟨-, rfl⟩ := run_pure_ok.mp storeRun
          exact ⟨nodes', held', uses', others⟩
      | some result =>
          obtain ⟨stored, _, cacheRun, pureRun⟩ := run_bind_ok.mp storeRun
          obtain ⟨-, rfl⟩ := run_pure_ok.mp pureRun
          exact ⟨_, held', uses'.store pointer cacheRun, others⟩

theorem functionCongruence_served : FunctionCongruence (fun m _ => Served m) where
  toCongruence := congruence_served
  noteEvent := served_noteEvent
  isFunction name := served_of_cache fun _ _ _ run => by
    obtain ⟨rfl, -⟩ := run_isFunction_ok.mp run
    rfl
  runFunction served key prog prevs := served_runFunction served key prog prevs

end ExprTrie

end Lfsc
