import Lfsc.Memory

/-!
# Runs over counted memory

Clients make objects, take and drop references, and assign fields and flags in place, always with
references that they hold.  Every address that such a client can reach is that of an object, no
operation is undefined, and what is read is what a store without deletion would hold.
-/

namespace Lfsc

open Ownership

/-! ## Clients -/

/-- The node with its pointers moved. -/
def Node.relocate (place : Ref → Ref) : Node → Node
  | .cexpr op kids flag => .cexpr op (kids.map place) flag
  | .sym name val => .sym name (val.map place)
  | .hole val => .hole (val.map place)
  | .int value => .int value
  | .rat value => .rat value

/-- The node with another flag. -/
def Node.withFlag (flag : Bool) : Node → Node
  | .cexpr op kids _ => .cexpr op kids flag
  | node => node

/-- Nodes that differ in their pointers only. -/
def Node.SameKind (node other : Node) : Prop :=
  node.exprClass = other.exprClass ∧ node.op? = other.op? ∧ node.flag = other.flag

/-- What a client does. -/
inductive Act
  /-- An object is constructed at an address that the allocator chose. -/
  | new (e : Ref) (node : Node)
  | inc (e : Ref)
  | dec (e : Ref)
  /-- A child or a `val` is overwritten. -/
  | assign (e : Ref) (node : Node)
  /-- The flag is written: `setcloned`, `setexmark`, `clearexmark` and `calc_free_in`. -/
  | mark (e : Ref) (flag : Bool)

/-- The new memory, if the operation is defined. -/
def Act.run (fuel : Nat) (memory : Memory) : Act → Option Memory
  | .new e node =>
      if (memory e).isSome then none
      else some (Function.update memory e (some ⟨initData node.exprClass node.op?, node⟩))
  | .inc e => memory.inc e
  | .dec e => memory.dec fuel e
  | .assign e node => do
      let cell ← memory e
      return Function.update memory e (some { cell with node })
  | .mark e flag => do
      let cell ← memory e
      return Function.update memory e
        (some ⟨assignFreeIn flag cell.data, cell.node.withFlag flag⟩)

/-- The references that the client holds afterwards.  An object takes over the references in its
fields, and the client has back those that were overwritten. -/
def Act.roots (memory : Memory) (roots : Multiset Ref) : Act → Multiset Ref
  | .new e node => e ::ₘ (roots - node.refs)
  | .inc e => e ::ₘ roots
  | .dec e => roots.erase e
  | .assign e node => memory.owns e + (roots - node.refs)
  | .mark _ _ => roots

/-- What a client may do with the references that it holds. -/
def Act.Allowed (memory : Memory) (roots : Multiset Ref) : Act → Prop
  | .new e node => memory e = none ∧ node.flag = false ∧ node.refs ≤ roots
  | .inc e | .mark e _ => Reaches memory.owns roots e
  | .dec e => e ∈ roots
  | .assign e node => Reaches memory.owns roots e ∧ node.refs ≤ roots ∧
      ∃ cell, memory e = some cell ∧ node.SameKind cell.node

/-- The memory and the references of a client after some operations. -/
inductive Run : List Act → Memory → Multiset Ref → Prop
  | start : Run [] (fun _ => none) 0
  | step {acts : List Act} {memory after : Memory} {roots : Multiset Ref} {act : Act} {fuel : Nat}
      (run : Run acts memory roots) (allowed : act.Allowed memory roots)
      (ran : act.run fuel memory = some after) : Run (acts ++ [act]) after (act.roots memory roots)

/-! ## The store without deletion -/

/-- An operation on the store, which says where objects are. -/
def Act.onStore (place : Ref → Ref) : Act → StoreM (Ref → Ref)
  | .new e node => do return Function.update place e (← Lfsc.new (node.relocate place))
  | .inc _ | .dec _ => return place
  | .assign e node => do
      put (place e) (node.relocate place)
      return place
  | .mark e flag => do
      setFlag (place e) flag
      return place

/-- Operations on the store. -/
def withoutDeletion (acts : List Act) : StoreM (Ref → Ref) :=
  acts.foldlM (fun place act => act.onStore place) id

/-! ## Accounts of runs -/

/-- The objects that count, and the references to programs that symbols did not give back. -/
structure Audited (memory : Memory) (roots lost : Multiset Ref) (owners : Finset Ref) : Prop where
  balanced : Balanced memory (lost + roots) owners
  programs : ∀ e ∈ lost, ∃ cell, memory e = some cell ∧ cell.node.op? = some .prog
  others : ∀ e ∉ owners, ∀ cell, memory e = some cell → cell.node.Undeleted

section Accounts

variable {memory after : Memory} {roots lost : Multiset Ref} {owners : Finset Ref} {e : Ref}
  {cell : Cell}

theorem Audited.mem (audited : Audited memory roots lost owners)
    (reaches : Reaches memory.owns roots e) : e ∈ owners :=
  audited.balanced.closed.mem_of_reaches
    (reaches.mono fun _ held => Multiset.mem_add.mpr (.inr held))

theorem Memory.owns_update (memory : Memory) (e : Ref) (cell : Cell) :
    Memory.owns (Function.update memory e (some cell)) =
      Function.update memory.owns e cell.node.refs := by
  funext other
  by_cases same : other = e
  · subst same
    rw [Memory.owns, Function.update_self, Function.update_self]
  · rw [Memory.owns, Function.update_of_ne same, Function.update_of_ne same]
    rfl

theorem initData_counts (node : Node) (unmarked : node.flag = false) :
    Cell.Counts ⟨initData node.exprClass node.op?, node⟩ 1 :=
  ⟨false, fun _ => unmarked.symm, holds_initData node.exprClass node.op?⟩

/-- An object that counts is written, and there may be more references to it. -/
theorem Audited.rewrite (audited : Audited memory roots lost owners) (cell' : Cell)
    (gain : Nat) {roots' : Multiset Ref} (member : e ∈ owners) (found : memory e = some cell)
    (kind : cell'.node.op? = cell.node.op?)
    (equal : refs (Function.update memory.owns e cell'.node.refs) (lost + roots') owners =
      Multiset.replicate gain e + refs memory.owns (lost + roots) owners)
    (counts : ∀ holders count, cell.Counts count → 0 < count →
      StickyCount.Tracks maxRefCount holders count →
      ∃ count', cell'.Counts count' ∧ 0 < count' ∧
        StickyCount.Tracks maxRefCount (holders + gain) count') :
    Audited (Function.update memory e (some cell')) roots' lost owners := by
  refine ⟨⟨?_, ?_⟩, ?_, ?_⟩
  · intro other inside
    rw [Memory.owns_update, equal, Multiset.count_add, Multiset.count_replicate]
    obtain ⟨kept, count, found', counts', positive, tracks⟩ :=
      audited.balanced.counted other inside
    by_cases same : e = other
    · subst same
      obtain rfl := Option.some.inj (found.symm.trans found')
      obtain ⟨count', counts'', positive', tracks'⟩ := counts _ count counts' positive tracks
      refine ⟨cell', count', Function.update_self e _ _, counts'', positive', ?_⟩
      rw [if_pos rfl]
      push_cast
      rwa [add_comm]
    · refine ⟨kept, count, ?_, counts', positive, ?_⟩
      · rw [Function.update_of_ne (Ne.symm same), found']
      · rwa [if_neg same, zero_add]
  · intro other held
    rw [Memory.owns_update, equal] at held
    rcases Multiset.mem_add.mp held with again | held
    · exact Multiset.eq_of_mem_replicate again ▸ member
    · exact audited.balanced.closed other held
  · intro other held
    obtain ⟨kept, found', program⟩ := audited.programs other held
    by_cases same : other = e
    · subst same
      obtain rfl := Option.some.inj (found.symm.trans found')
      exact ⟨cell', Function.update_self _ _ _, kind.trans program⟩
    · exact ⟨kept, (Function.update_of_ne same _ _).trans found', program⟩
  · intro other outside kept found'
    refine audited.others other outside kept ?_
    rwa [Function.update_of_ne (ne_of_mem_of_not_mem member outside).symm] at found'

/-- An object is constructed, with references that the client had. -/
theorem Audited.new {node : Node} (audited : Audited memory roots lost owners)
    (free : memory e = none) (unmarked : node.flag = false) (held : node.refs ≤ roots) :
    Audited (Function.update memory e (some ⟨initData node.exprClass node.op?, node⟩))
      (e ::ₘ (roots - node.refs)) lost (insert e owners) := by
  have fresh := audited.balanced.fresh free
  have equal : refs (Function.update memory.owns e node.refs) (lost + e ::ₘ (roots - node.refs))
      (insert e owners) = e ::ₘ refs memory.owns (lost + roots) owners := by
    have sum : node.refs + (lost + e ::ₘ (roots - node.refs)) = e ::ₘ (lost + roots) := by
      rw [Multiset.add_cons, Multiset.add_cons, add_left_comm, add_tsub_cancel_of_le held]
    rw [refs_insert fresh, Function.update_self, sum, refs_cons]
    refine congrArg _ (refs_congr fun owner member => ?_)
    exact Function.update_of_ne (ne_of_mem_of_not_mem member fresh) _ _
  have unheld : e ∉ refs memory.owns (lost + roots) owners :=
    fun held => fresh (audited.balanced.closed e held)
  refine ⟨⟨?_, ?_⟩, ?_, ?_⟩
  · intro other inside
    rw [Memory.owns_update, equal]
    by_cases same : other = e
    · subst same
      refine ⟨_, 1, Function.update_self _ _ _, initData_counts node unmarked, Nat.one_pos, ?_⟩
      rw [Multiset.count_cons_self, Multiset.count_eq_zero.mpr unheld]
      exact .inr ⟨by decide, rfl⟩
    · obtain ⟨kept, count, found, counts, positive, tracks⟩ :=
        audited.balanced.counted other (Finset.mem_of_mem_insert_of_ne inside same)
      refine ⟨kept, count, (Function.update_of_ne same _ _).trans found, counts, positive, ?_⟩
      rwa [Multiset.count_cons_of_ne same]
  · intro other inside
    rw [Memory.owns_update, equal] at inside
    rcases Multiset.mem_cons.mp inside with rfl | inside
    · exact Finset.mem_insert_self _ _
    · exact Finset.mem_insert_of_mem (audited.balanced.closed other inside)
  · intro other inside
    obtain ⟨kept, found, program⟩ := audited.programs other inside
    refine ⟨kept, (Function.update_of_ne ?_ _ _).trans found, program⟩
    rintro rfl
    rw [free] at found
    cases found
  · intro other outside kept found
    rw [Finset.mem_insert, not_or] at outside
    rw [Function.update_of_ne outside.1] at found
    exact audited.others other outside.2 kept found

/-- A reference of the client is dropped. -/
theorem Audited.dec {fuel : Nat} (audited : Audited memory roots lost owners)
    (held : e ∈ roots) (enough : owners.card ≤ fuel) :
    ∃ after lost' left, memory.dec fuel e = some after ∧
      Audited after (roots.erase e) lost' left ∧ Drops memory owners after lost' left := by
  have balanced := audited.balanced
  rw [← Multiset.cons_erase held, Multiset.add_cons] at balanced
  obtain ⟨after, more, left, run, balanced', drops⟩ := lowers_dec fuel _ _ _ _ enough balanced
  have inside : lost ⊆ left.val := fun other member =>
    balanced'.mem_of_root (Multiset.mem_add.mpr (.inr (Multiset.mem_add.mpr (.inl member))))
  have start : Drops memory owners memory lost owners :=
    { drops_refl memory owners with programs := audited.programs }
  have whole := start.trans drops inside
  rw [← add_assoc] at balanced'
  refine ⟨after, more + lost, left, run, ⟨balanced', whole.programs, ?_⟩, whole⟩
  intro other outside kept found
  by_cases member : other ∈ owners
  · exact drops.gone other member outside kept found
  · exact audited.others other member kept (by rw [← drops.apart other member, found])

end Accounts

/-! ## What the store shows -/

/-- The objects that count are in the store, each at a place of its own. -/
structure Shows (memory : Memory) (owners : Finset Ref) (heap : List Node) (place : Ref → Ref) :
    Prop where
  fields : ∀ e ∈ owners, ∃ cell, memory e = some cell ∧
    heap[place e]? = some (cell.node.relocate place)
  apart : Set.InjOn place owners

section Shown

variable {memory after : Memory} {roots lost : Multiset Ref} {owners left : Finset Ref}
  {heap : List Node} {place place' : Ref → Ref} {e : Ref} {cell : Cell}

theorem relocate_congr {node : Node} (same : ∀ e ∈ node.refs, place e = place' e) :
    node.relocate place = node.relocate place' := by
  cases node with
  | cexpr op kids flag =>
      rw [Node.relocate, Node.relocate, List.map_congr_left same]
  | int value => rfl
  | rat value => rfl
  | sym name val =>
      cases val with
      | none => rfl
      | some val => rw [Node.relocate, Node.relocate, Option.map_some, Option.map_some,
          same val (Multiset.mem_singleton_self val)]
  | hole val =>
      cases val with
      | none => rfl
      | some val => rw [Node.relocate, Node.relocate, Option.map_some, Option.map_some,
          same val (Multiset.mem_singleton_self val)]

theorem Balanced.mem_of_field (balanced : Balanced memory roots owners) {owner : Ref}
    (member : owner ∈ owners) (found : memory owner = some cell) (held : e ∈ cell.node.refs) :
    e ∈ owners :=
  balanced.closed e (mem_refs.mpr (.inr ⟨owner, member, Memory.owns_of_found found ▸ held⟩))

theorem Shows.lt_length (shows_ : Shows memory owners heap place) (member : e ∈ owners) :
    place e < heap.length := by
  obtain ⟨cell, -, found⟩ := shows_.fields e member
  exact (List.getElem?_eq_some_iff.mp found).1

/-- Fewer objects count, with the same fields. -/
theorem Shows.kept (shows_ : Shows memory owners heap place) (fewer : left ⊆ owners)
    (kept : ∀ e ∈ left, (after e).map Cell.node = (memory e).map Cell.node) :
    Shows after left heap place := by
  refine ⟨fun e member => ?_, shows_.apart.mono fun e member => fewer member⟩
  obtain ⟨cell, found, shown⟩ := shows_.fields e (fewer member)
  have same := kept e member
  rw [found, Option.map_some, Option.map_eq_some_iff] at same
  obtain ⟨cell', found', node⟩ := same
  exact ⟨cell', found', by rw [node, shown]⟩

/-- A new object is shown at the end of the store. -/
theorem Shows.new (shows_ : Shows memory owners heap place)
    (balanced : Balanced memory roots owners) (fresh : e ∉ owners)
    (held : ∀ kid ∈ cell.node.refs, kid ∈ owners) :
    Shows (Function.update memory e (some cell)) (insert e owners)
      (heap ++ [cell.node.relocate place]) (Function.update place e heap.length) := by
  have same : ∀ other ∈ owners, place other = Function.update place e heap.length other :=
    fun other member => (Function.update_of_ne (ne_of_mem_of_not_mem member fresh) _ _).symm
  constructor
  · intro other member
    rcases Finset.mem_insert.mp member with rfl | inside
    · refine ⟨cell, Function.update_self _ _ _, ?_⟩
      rw [Function.update_self, List.getElem?_concat_length,
        relocate_congr fun kid inside => same kid (held kid inside)]
    · obtain ⟨kept, found, shown⟩ := shows_.fields other inside
      refine ⟨kept, (Function.update_of_ne (ne_of_mem_of_not_mem inside fresh) _ _).trans found, ?_⟩
      rw [← same other inside, List.getElem?_append_left (shows_.lt_length inside), shown,
        relocate_congr fun kid field => same kid (balanced.mem_of_field inside found field)]
  · have beyond : ∀ other ∈ owners, place other ≠ heap.length :=
      fun other member => (shows_.lt_length member).ne
    intro first member second member' equal
    rcases Finset.mem_insert.mp member with rfl | inside <;>
      rcases Finset.mem_insert.mp member' with rfl | inside'
    · rfl
    · rw [Function.update_self, ← same second inside'] at equal
      exact absurd equal.symm (beyond second inside')
    · rw [Function.update_self, ← same first inside] at equal
      exact absurd equal (beyond first inside)
    · rw [← same first inside, ← same second inside'] at equal
      exact shows_.apart inside inside' equal

/-- An object is overwritten in both. -/
theorem Shows.rewrite {cell' : Cell} (shows_ : Shows memory owners heap place)
    (member : e ∈ owners) : Shows (Function.update memory e (some cell')) owners
      (heap.set (place e) (cell'.node.relocate place)) place := by
  refine ⟨fun other inside => ?_, shows_.apart⟩
  by_cases same : other = e
  · subst same
    exact ⟨cell', Function.update_self _ _ _, List.getElem?_set_self (shows_.lt_length member)⟩
  · obtain ⟨kept, found, shown⟩ := shows_.fields other inside
    refine ⟨kept, (Function.update_of_ne same _ _).trans found, ?_⟩
    rw [List.getElem?_set_ne fun equal => same (shows_.apart inside member equal.symm), shown]

theorem relocate_withFlag (node : Node) (flag : Bool) :
    (node.withFlag flag).relocate place = (node.relocate place).withFlag flag := by
  cases node <;> rfl

theorem op_withFlag (node : Node) (flag : Bool) : (node.withFlag flag).op? = node.op? := by
  cases node <;> rfl

theorem refs_withFlag (node : Node) (flag : Bool) : (node.withFlag flag).refs = node.refs := by
  cases node <;> rfl

end Shown

/-! ## Runs -/

section Runs

variable {memory after : Memory} {roots lost : Multiset Ref} {owners : Finset Ref}
  {store : Store} {place : Ref → Ref} {e : Ref} {cell : Cell} {act : Act} {acts : List Act}

theorem Cell.Counts.inc {count : Nat} (counts : cell.Counts count) (small : count ≤ maxRefCount) :
    ∃ data, Lfsc.inc cell.data = some data ∧
      Cell.Counts { cell with data } (StickyCount.up maxRefCount count) := by
  obtain ⟨flag, flagged, holds⟩ := counts
  obtain ⟨data, run, holds'⟩ := holds.inc small
  exact ⟨data, run, flag, flagged, holds'⟩

theorem Cell.Counts.mark {count : Nat} (counts : cell.Counts count) (flag : Bool) :
    Cell.Counts ⟨assignFreeIn flag cell.data, cell.node.withFlag flag⟩ count := by
  obtain ⟨before, -, holds⟩ := counts
  have marked := holds.assignFreeIn flag
  cases kind : cell.node with
  | cexpr op kids => exact ⟨flag, fun _ => rfl, by rwa [kind] at marked⟩
  | int | rat | sym | hole => exact ⟨flag, nofun, by rwa [kind] at marked⟩

theorem Cell.Counts.assign {count : Nat} (counts : cell.Counts count) {node : Node}
    (kind : node.SameKind cell.node) : Cell.Counts { cell with node } count := by
  obtain ⟨flag, flagged, holds⟩ := counts
  obtain ⟨cls, op, flag'⟩ := kind
  refine ⟨flag, fun some => (flagged (op ▸ some)).trans flag'.symm, ?_⟩
  rw [cls, op]
  exact holds

theorem run_setFlag {node : Node} (found : store.heap[e]? = some node) (flag : Bool) :
    (setFlag e flag).run store =
      .ok ((), { store with heap := store.heap.set e (node.withFlag flag) }) := by
  have same : store.heap.set e node = store.heap := by
    obtain ⟨inside, rfl⟩ := List.getElem?_eq_some_iff.mp found
    exact List.set_getElem_self inside
  cases node with
  | cexpr op kids marked => exact run_setFlag_cexpr found
  | int | rat | sym | hole =>
      rw [setFlag, Exec.run_bind_of_ok (run_load_ok.mpr ⟨found, rfl⟩)]
      let done (heap : List Node) : Except Stop (Unit × Store) := .ok ((), { store with heap })
      exact congrArg done same.symm

/-- An operation that a client may do is defined, and the store does it as well. -/
theorem Audited.step (audited : Audited memory roots lost owners)
    (shows_ : Shows memory owners store.heap place) (allowed : act.Allowed memory roots) :
    ∃ fuel after lost' left place' store', act.run fuel memory = some after ∧
      (act.onStore place).run store = .ok (place', store') ∧
      Audited after (act.roots memory roots) lost' left ∧
      Shows after left store'.heap place' := by
  cases act with
  | new e node =>
      obtain ⟨free, unmarked, held⟩ := allowed
      have fresh := audited.balanced.fresh free
      refine ⟨0, _, lost, insert e owners, _, _, ?_, rfl, audited.new free unmarked held, ?_⟩
      · rw [Act.run, free]
        rfl
      · exact shows_.new audited.balanced fresh fun kid field => audited.balanced.mem_of_root
          (Multiset.mem_add.mpr (.inr (Multiset.mem_of_le held field)))
  | inc e =>
      have member := audited.mem allowed
      obtain ⟨cell, count, found, counts, -, tracks⟩ := audited.balanced.counted e member
      obtain ⟨data, run, -⟩ := counts.inc tracks.le
      have stored : memory.store e data = Function.update memory e (some { cell with data }) := by
        rw [Memory.store, found, Option.map_some]
      refine ⟨0, memory.store e data, lost, owners, place, store, ?_, rfl, ?_, ?_⟩
      · rw [Act.run, Memory.inc, found, Option.bind_eq_bind, Option.bind_some, run]
        rfl
      · rw [stored]
        refine audited.rewrite { cell with data } 1 member found rfl ?_ ?_
        · rw [← Memory.owns_of_found found, Function.update_eq_self, Act.roots, Multiset.add_cons,
            refs_cons]
          rfl
        · intro holders count counts positive tracks
          obtain ⟨data', run', counts'⟩ := counts.inc tracks.le
          obtain rfl := Option.some.inj (run.symm.trans run')
          refine ⟨_, counts', ?_, tracks.up⟩
          rw [StickyCount.up]
          split <;> omega
      · exact shows_.kept subset_rfl fun other _ => Memory.map_node_store e other data
  | dec e =>
      obtain ⟨after, lost', left, run, audited', drops⟩ := audited.dec allowed le_rfl
      exact ⟨owners.card, after, lost', left, place, store, run, rfl, audited',
        shows_.kept drops.fewer drops.kept⟩
  | assign e node =>
      obtain ⟨reaches, held, cell, found, kind⟩ := allowed
      have member := audited.mem reaches
      refine ⟨0, Function.update memory e (some { cell with node }), lost, owners, place, _, ?_,
        rfl, ?_, shows_.rewrite member⟩
      · rw [Act.run, found]
        rfl
      · refine audited.rewrite { cell with node } 0 member found kind.2.1 ?_ ?_
        · rw [Act.roots, add_left_comm, refs_exchange member, add_left_comm,
            add_tsub_cancel_of_le held, Multiset.replicate_zero, zero_add]
        · intro holders count counts positive tracks
          exact ⟨count, counts.assign kind, positive, by simpa using tracks⟩
  | mark e flag =>
      have member := audited.mem allowed
      obtain ⟨cell, found⟩ := audited.balanced.found member
      obtain ⟨cell', found', shown⟩ := shows_.fields e member
      obtain rfl := Option.some.inj (found.symm.trans found')
      let marked : Cell := ⟨assignFreeIn flag cell.data, cell.node.withFlag flag⟩
      refine ⟨0, Function.update memory e (some marked), lost, owners, place,
        { store with heap := store.heap.set (place e) (marked.node.relocate place) }, ?_, ?_, ?_,
        shows_.rewrite member⟩
      · rw [Act.run, found]
        rfl
      · rw [Act.onStore, Exec.run_bind_of_ok (run_setFlag shown flag), relocate_withFlag]
        rfl
      · refine audited.rewrite marked 0 member found (op_withFlag cell.node flag) ?_ ?_
        · rw [refs_withFlag, ← Memory.owns_of_found found, Function.update_eq_self, Act.roots,
            Multiset.replicate_zero, zero_add]
        · intro holders count counts positive tracks
          exact ⟨count, counts.mark flag, positive, by simpa using tracks⟩

theorem Act.run_mono {fuel more : Nat} (le : fuel ≤ more) (ran : act.run fuel memory = some after) :
    act.run more memory = some after := by
  cases act with
  | dec e => exact decrement_mono (fun _ => destroy_mono le) ran
  | new | inc | assign | mark => exact ran

theorem Act.run_unique {fuel fuel' : Nat} {after' : Memory} (ran : act.run fuel memory = some after)
    (ran' : act.run fuel' memory = some after') : after = after' :=
  Option.some.inj ((run_mono (le_max_left fuel fuel') ran).symm.trans
    (run_mono (le_max_right fuel fuel') ran'))

/-- After every run the accounts are balanced, and a store has made the same steps. -/
theorem Run.audited (run : Run acts memory roots) (store : Store) :
    ∃ place after lost owners, (withoutDeletion acts).run store = .ok (place, after) ∧
      Audited memory roots lost owners ∧ Shows memory owners after.heap place := by
  induction run with
  | start =>
      refine ⟨id, store, 0, ∅, rfl, ⟨⟨?_, ?_⟩, ?_, ?_⟩, ?_, ?_⟩
      · exact fun e none => absurd none (Finset.notMem_empty e)
      · exact fun e none => absurd none (Multiset.notMem_zero e)
      · exact fun e none => absurd none (Multiset.notMem_zero e)
      · exact fun _ _ _ found => nomatch found
      · exact fun e none => absurd none (Finset.notMem_empty e)
      · exact fun e none => absurd none (Finset.notMem_empty e)
  | @step acts memory after roots act fuel _ allowed ran hyp =>
      obtain ⟨place, middle, lost, owners, before, audited, shows_⟩ := hyp
      obtain ⟨enough, next, lost', left, place', store', ran', stored, audited', shows'⟩ :=
        audited.step shows_ allowed
      obtain rfl := Act.run_unique ran ran'
      refine ⟨place', store', lost', left, ?_, audited', shows'⟩
      rw [withoutDeletion, List.foldlM_append]
      exact (Exec.run_bind_of_ok before).trans ((Exec.run_bind_of_ok stored).trans rfl)

theorem Cell.Counts.carries {count : Nat} (counts : cell.Counts count) :
    Carries cell.data cell.node := by
  obtain ⟨flag, flagged, holds⟩ := counts
  refine ⟨holds.getclass, holds.getopBits, ?_⟩
  intro op kids marked kind
  rw [holds.mark, flagged (by rw [kind]; rfl), kind]
  rfl

end Runs

/-- The memory in which a hole was filled with a numeral. -/
def filledMemory : Memory :=
  Function.update (Function.update (fun _ => none) 0 (some ⟨initData .intExpr none, .int 5⟩)) 1
    (some ⟨initData .holeExpr none, .hole (some 0)⟩)

theorem run_filled : Run [.new 0 (.int 5), .new 1 (.hole (some 0))] filledMemory {1} := by
  have allowed : Act.Allowed (fun _ => none) 0 (.new 0 (.int 5)) := ⟨rfl, rfl, le_rfl⟩
  have ran : Act.run 0 (fun _ => none) (.new 0 (.int 5)) =
    some (Function.update (fun _ => none) 0 (some ⟨initData .intExpr none, .int 5⟩)) := rfl
  have numeral := Run.step .start allowed ran
  have allowed' : Act.Allowed (Function.update (fun _ => none) 0
      (some ⟨initData .intExpr none, .int 5⟩)) {0} (.new 1 (.hole (some 0))) :=
    ⟨rfl, rfl, le_rfl⟩
  exact Run.step numeral allowed' (show Act.run 0 _ _ = some filledMemory from rfl)

/-- Whatever clients did with references that they held, every address that their references lead to
is that of an object whose data word carries its fields, and what they may do next is defined: no
object is used after it was deleted, and no count overflows. -/
theorem counted_run_safe {acts : List Act} {memory : Memory} {roots : Multiset Ref}
    (run : Run acts memory roots) :
    (∀ e, Reaches memory.owns roots e →
        ∃ cell, memory e = some cell ∧ Carries cell.data cell.node) ∧
      ∀ act : Act, act.Allowed memory roots → ∃ fuel after, act.run fuel memory = some after := by
  obtain ⟨place, store, lost, owners, -, audited, shows_⟩ :=
    run.audited ⟨[], fun _ _ => false, fun _ => false, 0⟩
  constructor
  · intro e reaches
    obtain ⟨cell, count, found, counts, -⟩ := audited.balanced.counted e (audited.mem reaches)
    exact ⟨cell, found, counts.carries⟩
  · intro act allowed
    obtain ⟨fuel, after, -, -, -, -, ran, -⟩ := audited.step shows_ allowed
    exact ⟨fuel, after, ran⟩

theorem counted_run_safe_filled :
    (∃ cell, filledMemory 0 = some cell ∧ Carries cell.data cell.node) ∧
      ∃ fuel after, Act.run fuel filledMemory (.dec 1) = some after := by
  obtain ⟨kept, defined⟩ := counted_run_safe run_filled
  have hole : Reaches filledMemory.owns {1} 1 := .root (Multiset.mem_singleton_self 1)
  exact ⟨kept 0 (hole.owned (Multiset.mem_singleton_self 0)),
    defined (.dec 1) (Multiset.mem_singleton_self 1)⟩

/-- Deletion and the reuse of addresses cannot be observed: a store in which nothing is ever deleted
makes the same steps, and it holds, at places of their own, the objects that the references of the
clients lead to. -/
theorem counted_run_shows_store {acts : List Act} {memory : Memory} {roots : Multiset Ref}
    (run : Run acts memory roots) (store : Store) :
    ∃ place after, (withoutDeletion acts).run store = .ok (place, after) ∧
      (∀ e, Reaches memory.owns roots e → ∃ cell, memory e = some cell ∧
        after.heap[place e]? = some (cell.node.relocate place)) ∧
      ∀ e e', Reaches memory.owns roots e → Reaches memory.owns roots e' → place e = place e' →
        e = e' := by
  obtain ⟨place, after, lost, owners, ran, audited, shows_⟩ := run.audited store
  exact ⟨place, after, ran, fun e reaches => shows_.fields e (audited.mem reaches),
    fun e e' reaches reaches' equal =>
      shows_.apart (audited.mem reaches) (audited.mem reaches') equal⟩

theorem counted_run_shows_store_filled :
    ∃ place after, (withoutDeletion [.new 0 (.int 5), .new 1 (.hole (some 0))]).run
        ⟨[], fun _ _ => false, fun _ => false, 0⟩ = .ok (place, after) ∧
      after.heap[place 1]? = some (.hole (some (place 0))) := by
  obtain ⟨place, after, ran, shown, -⟩ :=
    counted_run_shows_store run_filled ⟨[], fun _ _ => false, fun _ => false, 0⟩
  obtain ⟨cell, found, held⟩ := shown 1 (.root (Multiset.mem_singleton_self 1))
  obtain rfl : _ = cell := Option.some.inj found
  exact ⟨place, after, ran, held⟩

/-- What is not referred to was deleted: where no count is full and the fields do not close into a
cycle, every object that is left is one that the references of the clients lead to, one that a
program leads to, a rational numeral or an expression without children. -/
theorem unreferenced_deleted {acts : List Act} {memory : Memory} {roots : Multiset Ref}
    (run : Run acts memory roots)
    (room : ∀ e cell, memory e = some cell → getrefcnt cell.data ≠ BitVec.ofNat 32 maxRefCount)
    (acyclic : ∀ e, ¬ Relation.TransGen (fun owner e => e ∈ memory.owns owner) e e) :
    ∀ e cell, memory e = some cell → Reaches memory.owns roots e ∨
      (∃ prog found, memory prog = some found ∧ found.node.op? = some .prog ∧
        Reaches memory.owns {prog} e) ∨ cell.node.Undeleted := by
  obtain ⟨place, store, lost, owners, -, audited, -⟩ :=
    run.audited ⟨[], fun _ _ => false, fun _ => false, 0⟩
  have referred : ∀ e ∈ owners, e ∈ refs memory.owns (lost + roots) owners := by
    intro e member
    obtain ⟨cell, count, found, ⟨flag, -, holds⟩, positive, tracks⟩ :=
      audited.balanced.counted e member
    rw [← Multiset.count_pos]
    rcases tracks with rfl | ⟨-, equal⟩
    · exact absurd holds.refs (room e cell found)
    · omega
  intro e cell found
  by_cases member : e ∈ owners
  · have reached := reaches_of_acyclic referred acyclic e member
    rcases reached.of_add with reached | ⟨prog, held, reached⟩
    · exact .inl reached
    · obtain ⟨found', stored, program⟩ := audited.programs prog held
      exact .inr (.inl ⟨prog, found', stored, program, reached⟩)
  · exact .inr (.inr (audited.others e member cell found))

theorem unreferenced_deleted_filled : Reaches filledMemory.owns {1} 0 := by
  have cells : ∀ e cell, filledMemory e = some cell →
      e = 1 ∧ cell = ⟨initData .holeExpr none, .hole (some 0)⟩ ∨
        e = 0 ∧ cell = ⟨initData .intExpr none, .int 5⟩ := by
    intro e cell found
    by_cases hole : e = 1
    · subst hole
      exact .inl ⟨rfl, (Option.some.inj found).symm⟩
    · rw [filledMemory, Function.update_of_ne hole] at found
      by_cases numeral : e = 0
      · subst numeral
        exact .inr ⟨rfl, (Option.some.inj found).symm⟩
      · rw [Function.update_of_ne numeral] at found
        cases found
  have edges : ∀ owner e, e ∈ filledMemory.owns owner → owner = 1 ∧ e = 0 := by
    intro owner e held
    cases found : filledMemory owner with
    | none =>
        rw [Memory.owns, found] at held
        exact absurd held (Multiset.notMem_zero e)
    | some cell =>
        rw [Memory.owns_of_found found] at held
        rcases cells owner cell found with ⟨rfl, rfl⟩ | ⟨rfl, rfl⟩
        · exact ⟨rfl, Multiset.mem_singleton.mp held⟩
        · exact absurd held (Multiset.notMem_zero e)
  have room : ∀ e cell, filledMemory e = some cell →
      getrefcnt cell.data ≠ BitVec.ofNat 32 maxRefCount := by
    intro e cell found
    rcases cells e cell found with ⟨-, rfl⟩ | ⟨-, rfl⟩ <;> decide
  have acyclic : ∀ e, ¬ Relation.TransGen (fun owner e => e ∈ filledMemory.owns owner) e e := by
    intro e loop
    obtain ⟨next, first, -⟩ := Relation.TransGen.head'_iff.mp loop
    obtain ⟨before, -, last⟩ := Relation.TransGen.tail'_iff.mp loop
    have zero := (edges _ _ last).2
    rw [(edges _ _ first).1] at zero
    cases zero
  rcases unreferenced_deleted run_filled room acyclic 0 _ rfl with reached | leaked | undeleted
  · exact reached
  · obtain ⟨_, _, found, program, -⟩ := leaked
    rcases cells _ _ found with ⟨-, rfl⟩ | ⟨-, rfl⟩ <;> cases program
  · exact undeleted.elim

end Lfsc
