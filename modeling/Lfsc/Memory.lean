import Mathlib.Logic.Function.Basic
import Lfsc.Ownership
import Lfsc.ReferenceCount

/-!
# Memory of expressions

An object is deleted when its last counted reference is dropped, and `destroy` drops the references
that the object held.  Objects of two kinds are never deleted: a rational numeral, since `destroy`
has no case for it, and an expression without children, since its loop over the children deletes
the object together with the last child.  A symbol does not give back its reference to a program.
-/

namespace Lfsc

open Ownership

/-! ## Objects in memory -/

/-- An object in memory. -/
structure Cell where
  /-- The data word. -/
  data : Word
  /-- The fields. -/
  node : Node

/-- The objects that were allocated and not deleted. -/
abbrev Memory := Ref → Option Cell

/-- `delete`. -/
def Memory.delete (memory : Memory) (e : Ref) : Memory := Function.update memory e none

/-- The new value of a data word. -/
def Memory.store (memory : Memory) (e : Ref) (data : Word) : Memory :=
  Function.update memory e ((memory e).map fun cell => { cell with data })

/-- What is done with a lower count: the object is destroyed, or its data word is written. -/
def decrement (destroy : Memory → Ref → Option Memory) (lower : Word → Option Object)
    (memory : Memory) (e : Ref) : Option Memory := do
  let cell ← memory e
  match ← lower cell.data with
  | .destroyed => destroy memory e
  | .live data => return memory.store e data

/-- The loop of `destroy` over the children: the last one is dropped after the object is deleted. -/
def destroyKids (dec destroydec : Memory → Ref → Option Memory) (e : Ref) :
    List Ref → Memory → Option Memory
  | [], memory => some memory
  | [last], memory => destroydec (memory.delete e) last
  | kid :: next :: rest, memory => do
      let memory ← dec memory kid
      -- The next child is read from the array of the object.
      let _ ← memory e
      destroyKids dec destroydec e (next :: rest) memory

/-- `Expr::destroy`. -/
def destroy : Nat → Bool → Memory → Ref → Option Memory
  | 0, _, _, _ => none
  | fuel + 1, decKids, memory, e => do
      let cell ← memory e
      match cell.node with
      | .int _ => return memory.delete e
      | .sym _ none | .hole none => return memory.delete e
      | .sym _ (some val) => do
          let value ← memory val
          if value.node.op? = some .prog then return memory.delete e
          else decrement (destroy fuel decKids) destroydec (memory.delete e) val
      | .hole (some val) => decrement (destroy fuel decKids) destroydec (memory.delete e) val
      | .cexpr _ kids _ =>
          if decKids then
            destroyKids (decrement (destroy fuel true) Lfsc.dec)
              (decrement (destroy fuel true) destroydec) e kids memory
          else return memory.delete e
      | .rat _ => return memory

/-- `dec`. -/
def Memory.dec (fuel : Nat) (memory : Memory) (e : Ref) : Option Memory :=
  decrement (destroy fuel true) Lfsc.dec memory e

/-- `inc`. -/
def Memory.inc (memory : Memory) (e : Ref) : Option Memory := do
  let cell ← memory e
  return memory.store e (← Lfsc.inc cell.data)

/-! ## Accounts -/

/-- The references that an object holds. -/
def Node.refs : Node → Multiset Ref
  | .cexpr _ kids _ => kids
  | .sym _ val | .hole val => val.toList
  | .int _ | .rat _ => 0

/-- The objects that `destroy` does not delete. -/
def Node.Undeleted : Node → Prop
  | .rat _ => True
  | .cexpr _ kids _ => kids = []
  | _ => False

/-- The references that the object at an address holds. -/
def Memory.owns (memory : Memory) (e : Ref) : Multiset Ref :=
  match memory e with
  | some cell => cell.node.refs
  | none => 0

/-- The data word holds the class, the operator and the flag of the object, and a count. -/
def Cell.Counts (cell : Cell) (count : Nat) : Prop :=
  ∃ flag, (cell.node.op?.isSome → flag = cell.node.flag) ∧
    Holds cell.node.exprClass cell.node.op? flag count cell.data

/-- Some objects count the references to them, and no reference is to another object. -/
structure Balanced (memory : Memory) (roots : Multiset Ref) (owners : Finset Ref) : Prop where
  counted : ∀ e ∈ owners, ∃ cell count, memory e = some cell ∧ cell.Counts count ∧ 0 < count ∧
    StickyCount.Tracks maxRefCount ((refs memory.owns roots owners).count e) count
  closed : Closed memory.owns roots owners

/-- What is left after references are dropped: fewer objects, with the fields that they had. -/
structure Drops (before : Memory) (owners : Finset Ref) (after : Memory) (lost : Multiset Ref)
    (left : Finset Ref) : Prop where
  fewer : left ⊆ owners
  kept : ∀ e ∈ left, (after e).map Cell.node = (before e).map Cell.node
  apart : ∀ e ∉ owners, after e = before e
  gone : ∀ e ∈ owners, e ∉ left → ∀ cell, after e = some cell → cell.node.Undeleted
  programs : ∀ e ∈ lost, ∃ cell, after e = some cell ∧ cell.node.op? = some .prog

section Balanced

variable {memory after : Memory} {roots more lost : Multiset Ref} {owners left : Finset Ref}
  {e : Ref} {cell : Cell}

theorem Memory.owns_of_found (found : memory e = some cell) : memory.owns e = cell.node.refs := by
  rw [Memory.owns, found]

theorem Memory.owns_congr (same : (after e).map Cell.node = (memory e).map Cell.node) :
    after.owns e = memory.owns e := by
  cases found : memory e with
  | none =>
      rw [found, Option.map_none, Option.map_eq_none_iff] at same
      rw [Memory.owns, Memory.owns, found, same]
  | some cell =>
      rw [found, Option.map_some, Option.map_eq_some_iff] at same
      obtain ⟨other, found', node⟩ := same
      rw [Memory.owns_of_found found, Memory.owns_of_found found', node]

theorem Memory.store_self (found : memory e = some cell) (data : Word) :
    memory.store e data e = some { cell with data } := by
  rw [Memory.store, Function.update_self, found, Option.map_some]

theorem Memory.store_of_ne {other : Ref} (ne : other ≠ e) (data : Word) :
    memory.store e data other = memory other :=
  Function.update_of_ne ne _ _

theorem Memory.map_node_store (e other : Ref) (data : Word) :
    (memory.store e data other).map Cell.node = (memory other).map Cell.node := by
  by_cases same : other = e
  · subst same
    rw [Memory.store, Function.update_self, Option.map_map]
    rfl
  · rw [Memory.store_of_ne same]

theorem Memory.owns_store (e : Ref) (data : Word) : (memory.store e data).owns = memory.owns :=
  funext fun other => Memory.owns_congr (Memory.map_node_store e other data)

theorem Memory.delete_of_ne {other : Ref} (ne : other ≠ e) : memory.delete e other = memory other :=
  Function.update_of_ne ne _ _

theorem Balanced.congr (balanced : Balanced memory roots owners)
    (same : ∀ e ∈ owners, after e = memory e) : Balanced after roots owners := by
  have equal : refs after.owns roots owners = refs memory.owns roots owners :=
    refs_congr fun owner member => Memory.owns_congr (by rw [same owner member])
  constructor
  · intro e member
    rw [same e member, equal]
    exact balanced.counted e member
  · intro e held
    rw [equal] at held
    exact balanced.closed e held

theorem Balanced.delete (balanced : Balanced memory roots owners) (outside : e ∉ owners) :
    Balanced (memory.delete e) roots owners :=
  balanced.congr fun _ member => Memory.delete_of_ne (ne_of_mem_of_not_mem member outside)

theorem Balanced.mem_of_root (balanced : Balanced memory roots owners) (held : e ∈ roots) :
    e ∈ owners :=
  balanced.closed e (mem_refs.mpr (.inl held))

theorem Balanced.found (balanced : Balanced memory roots owners) (member : e ∈ owners) :
    ∃ cell, memory e = some cell := by
  obtain ⟨cell, -, found, -⟩ := balanced.counted e member
  exact ⟨cell, found⟩

theorem Balanced.fresh (balanced : Balanced memory roots owners) (free : memory e = none) :
    e ∉ owners := by
  intro member
  obtain ⟨cell, found⟩ := balanced.found member
  rw [free] at found
  cases found

theorem drops_refl (memory : Memory) (owners : Finset Ref) : Drops memory owners memory 0 owners :=
  ⟨subset_rfl, fun _ _ => rfl, fun _ _ => rfl, fun _ member outside => absurd member outside,
    fun _ none => absurd none (Multiset.notMem_zero _)⟩

/-- References are dropped, and then more of them. -/
theorem Drops.trans {middle : Memory} {lost' : Multiset Ref} {rest : Finset Ref}
    (first : Drops memory owners middle lost left) (second : Drops middle left after lost' rest)
    (kept : lost ⊆ rest.val) : Drops memory owners after (lost' + lost) rest := by
  constructor
  · exact second.fewer.trans first.fewer
  · intro e member
    rw [second.kept e member, first.kept e (second.fewer member)]
  · intro e outside
    rw [second.apart e fun member => outside (first.fewer member), first.apart e outside]
  · intro e member outside cell found
    by_cases inside : e ∈ left
    · exact second.gone e inside outside cell found
    · exact first.gone e member inside cell (by rw [← second.apart e inside, found])
  · intro e held
    rcases Multiset.mem_add.mp held with held | held
    · exact second.programs e held
    · obtain ⟨cell, found, program⟩ := first.programs e held
      have same := second.kept e (kept held)
      rw [found, Option.map_some, Option.map_eq_some_iff] at same
      obtain ⟨cell', found', node⟩ := same
      exact ⟨cell', found', node ▸ program⟩

end Balanced

/-! ## Dropping references -/

/-- What a reference to an object is dropped by, while few objects count. -/
def Lowers (bound : Nat) (drop : Memory → Ref → Option Memory) : Prop :=
  ∀ (memory : Memory) (roots : Multiset Ref) (owners : Finset Ref) (e : Ref),
    owners.card ≤ bound → Balanced memory (e ::ₘ roots) owners →
      ∃ after lost left, drop memory e = some after ∧ Balanced after (lost + roots) left ∧
        Drops memory owners after lost left

/-- What an object is destroyed by, while few other objects count: the references that it held have
become roots. -/
def Destroys (bound : Nat) (destroy : Memory → Ref → Option Memory) : Prop :=
  ∀ (memory : Memory) (roots : Multiset Ref) (owners : Finset Ref) (e : Ref) (cell : Cell),
    owners.card < bound → e ∉ owners → memory e = some cell →
      Balanced memory (cell.node.refs + roots) owners →
      ∃ after lost left, destroy memory e = some after ∧ Balanced after (lost + roots) left ∧
        Drops memory (insert e owners) after lost left ∧ e ∉ left

section Dropping

variable {memory : Memory} {roots : Multiset Ref} {owners : Finset Ref} {e : Ref} {cell : Cell}
  {bound : Nat}

/-- The count was lowered and the object is still there. -/
theorem Balanced.lowered {count : Nat} {data : Word}
    (balanced : Balanced memory (e ::ₘ roots) owners) (found : memory e = some cell)
    (counts : Cell.Counts { cell with data } count) (positive : 0 < count)
    (tracks : StickyCount.Tracks maxRefCount
      ((refs memory.owns (e ::ₘ roots) owners).count e - 1) count) :
    Balanced (memory.store e data) roots owners := by
  have less : refs memory.owns (e ::ₘ roots) owners = e ::ₘ refs memory.owns roots owners :=
    refs_cons
  constructor
  · intro other member
    rw [Memory.owns_store]
    by_cases same : other = e
    · subst same
      refine ⟨_, count, Memory.store_self found data, counts, positive, ?_⟩
      rw [less, Multiset.count_cons_self] at tracks
      simpa using tracks
    · obtain ⟨kept, number, found', counts', positive', tracks'⟩ := balanced.counted other member
      refine ⟨kept, number, (Memory.store_of_ne same data).trans found', counts', positive', ?_⟩
      rwa [less, Multiset.count_cons_of_ne same] at tracks'
  · intro other held
    rw [Memory.owns_store] at held
    exact balanced.closed other (less ▸ Multiset.mem_cons_of_mem held)

/-- The last reference was dropped: the object stops counting, and what it held becomes roots. -/
theorem Balanced.died (balanced : Balanced memory (e ::ₘ roots) owners)
    (found : memory e = some cell)
    (last : (refs memory.owns (e ::ₘ roots) owners).count e = 1) :
    Balanced memory (cell.node.refs + roots) (owners.erase e) := by
  have member : e ∈ owners := balanced.mem_of_root (Multiset.mem_cons_self e roots)
  have equal : refs memory.owns (cell.node.refs + roots) (owners.erase e) =
      refs memory.owns roots owners := by
    rw [← Memory.owns_of_found found, refs_release member]
  rw [refs_cons, Multiset.count_cons_self, Nat.add_eq_right, Multiset.count_eq_zero] at last
  constructor
  · intro other inside
    obtain ⟨ne, inside⟩ := Finset.mem_erase.mp inside
    obtain ⟨kept, number, found', counts', positive', tracks'⟩ := balanced.counted other inside
    refine ⟨kept, number, found', counts', positive', ?_⟩
    rwa [refs_cons, Multiset.count_cons_of_ne ne, ← equal] at tracks'
  · intro other held
    rw [equal] at held
    refine Finset.mem_erase.mpr ⟨ne_of_mem_of_not_mem held last, balanced.closed other ?_⟩
    rw [refs_cons]
    exact Multiset.mem_cons_of_mem held

/-- Dropping a reference, where objects are destroyed correctly. -/
theorem lowers_decrement {destroy : Memory → Ref → Option Memory}
    (destroys : Destroys bound destroy) : Lowers bound (decrement destroy Lfsc.dec) := by
  intro memory roots owners e few balanced
  have member : e ∈ owners := balanced.mem_of_root (Multiset.mem_cons_self e roots)
  obtain ⟨cell, count, found, ⟨flag, flagged, holds⟩, positive, tracks⟩ := balanced.counted e member
  have held : 0 < ((refs memory.owns (e ::ₘ roots) owners).count e : Int) := by
    rw [refs_cons, Multiset.count_cons_self]
    omega
  obtain ⟨object, run, stands⟩ := holds.dec positive tracks.le
  have lower := tracks.down held
  rw [decrement, found, Option.bind_eq_bind, Option.bind_some, run, Option.bind_eq_bind,
    Option.bind_some]
  generalize number : StickyCount.down maxRefCount count = less at stands lower
  cases stands with
  | @live _ data room holds' =>
      refine ⟨_, 0, owners, rfl, ?_, ?_⟩
      · rw [zero_add]
        exact balanced.lowered found ⟨flag, flagged, holds'⟩ room lower
      · refine ⟨subset_rfl, fun other _ => Memory.map_node_store e other data, ?_,
          fun _ inside outside => absurd inside outside,
          fun _ none => absurd none (Multiset.notMem_zero _)⟩
        intro other outside
        exact Memory.store_of_ne (ne_of_mem_of_not_mem member outside).symm data
  | destroyed =>
      have last : (refs memory.owns (e ::ₘ roots) owners).count e = 1 := by
        rcases lower with top | ⟨-, zero⟩
        · cases top
        · omega
      obtain ⟨after, lost, left, destroyed, balanced', drops, outside⟩ :=
        destroys memory roots (owners.erase e) e cell
          ((Finset.card_erase_lt_of_mem member).trans_le few) (Finset.notMem_erase e owners) found
          (balanced.died found last)
      rw [Finset.insert_erase member] at drops
      exact ⟨after, lost, left, destroyed, balanced', drops⟩

theorem lowers_destroydec {destroy : Memory → Ref → Option Memory}
    (destroys : Destroys bound destroy) : Lowers bound (decrement destroy destroydec) := by
  have same : destroydec = Lfsc.dec := funext destroydec_eq_dec
  rw [same]
  exact lowers_decrement destroys

/-- Only an object itself was deleted. -/
theorem Balanced.deleted (balanced : Balanced memory roots owners) (outside : e ∉ owners) :
    Balanced (memory.delete e) (0 + roots) owners ∧
      Drops memory (insert e owners) (memory.delete e) 0 owners := by
  rw [zero_add]
  refine ⟨balanced.delete outside, Finset.subset_insert e owners, ?_, ?_, ?_,
    fun _ none => absurd none (Multiset.notMem_zero _)⟩
  · intro other member
    rw [Memory.delete_of_ne (ne_of_mem_of_not_mem member outside)]
  · intro other outside'
    exact Memory.delete_of_ne fun same => outside' (Finset.mem_insert.mpr (.inl same))
  · intro other member outside' cell found
    rcases Finset.mem_insert.mp member with rfl | inside
    · rw [Memory.delete, Function.update_self] at found
      cases found
    · exact absurd inside outside'

/-- An object is deleted, and then the last reference that it held is dropped. -/
theorem Lowers.delete {drop : Memory → Ref → Option Memory} (lowers : Lowers bound drop) {val : Ref}
    (few : owners.card ≤ bound) (outside : e ∉ owners)
    (balanced : Balanced memory (val ::ₘ roots) owners) :
    ∃ after lost left, drop (memory.delete e) val = some after ∧
      Balanced after (lost + roots) left ∧ Drops memory (insert e owners) after lost left ∧
      e ∉ left := by
  obtain ⟨balanced', deleted⟩ := balanced.deleted outside
  rw [zero_add] at balanced'
  obtain ⟨after, lost, left, run, rest, drops⟩ := lowers _ roots owners val few balanced'
  have whole := deleted.trans drops (Multiset.zero_subset _)
  rw [add_zero] at whole
  exact ⟨after, lost, left, run, rest, whole, fun member => outside (drops.fewer member)⟩

/-- An object that `destroy` does not delete is left as it was. -/
theorem drops_undeleted (found : memory e = some cell) (undeleted : cell.node.Undeleted) :
    Drops memory (insert e owners) memory 0 owners := by
  refine ⟨Finset.subset_insert e owners, fun _ _ => rfl, fun _ _ => rfl, ?_,
    fun _ none => absurd none (Multiset.notMem_zero _)⟩
  intro other member outside cell' found'
  obtain rfl := (Finset.mem_insert.mp member).resolve_right outside
  obtain rfl := Option.some.inj (found.symm.trans found')
  exact undeleted

/-- An object that does not count stays where it is. -/
theorem Drops.insert {after : Memory} {lost : Multiset Ref} {left : Finset Ref}
    (drops : Drops memory owners after lost left) (outside : e ∉ owners) :
    Drops memory (Insert.insert e owners) after lost (Insert.insert e left) := by
  constructor
  · exact Finset.insert_subset_insert e drops.fewer
  · intro other member
    rcases Finset.mem_insert.mp member with rfl | inside
    · rw [drops.apart other outside]
    · exact drops.kept other inside
  · intro other outside'
    exact drops.apart other fun inside => outside' (Finset.mem_insert_of_mem inside)
  · intro other member outside' cell found
    rw [Finset.mem_insert, not_or] at outside'
    refine drops.gone other ?_ outside'.2 cell found
    exact (Finset.mem_insert.mp member).resolve_left outside'.1
  · exact drops.programs

/-- The children are dropped one by one, the last one after the object is deleted. -/
theorem run_destroyKids {dec destroydec : Memory → Ref → Option Memory} (lowers : Lowers bound dec)
    (lowers' : Lowers bound destroydec) (kid : Ref) (rest : List Ref) (few : owners.card ≤ bound)
    (outside : e ∉ owners) (found : memory e = some cell)
    (balanced : Balanced memory (↑(kid :: rest) + roots) owners) :
    ∃ after lost left, destroyKids dec destroydec e (kid :: rest) memory = some after ∧
      Balanced after (lost + roots) left ∧ Drops memory (insert e owners) after lost left ∧
      e ∉ left := by
  induction rest generalizing kid memory roots owners with
  | nil =>
      rw [destroyKids]
      exact lowers'.delete few outside balanced
  | cons next rest hyp =>
      rw [← Multiset.cons_coe, Multiset.cons_add] at balanced
      obtain ⟨middle, lost, left, run, balanced', drops⟩ := lowers memory _ owners kid few balanced
      rw [add_left_comm] at balanced'
      have found' : middle e = some cell := (drops.apart e outside).trans found
      obtain ⟨after, lost', left', run', balanced'', drops', outside'⟩ :=
        hyp next ((Finset.card_le_card drops.fewer).trans few)
          (fun member => outside (drops.fewer member)) found' balanced'
      have held : lost ⊆ left'.val := fun other member =>
        balanced''.mem_of_root (Multiset.mem_add.mpr (.inr (Multiset.mem_add.mpr (.inl member))))
      rw [← add_assoc] at balanced''
      refine ⟨after, lost' + lost, left', ?_, balanced'', (drops.insert outside).trans drops' held,
        outside'⟩
      rw [destroyKids, run, Option.bind_eq_bind, Option.bind_some, found', Option.bind_eq_bind,
        Option.bind_some, run']

/-- With fuel for every object that counts, `destroy` is defined and drops what the object held. -/
theorem destroys_destroy (fuel : Nat) : Destroys fuel (destroy fuel true) := by
  induction fuel with
  | zero =>
      intro memory roots owners e cell few
      exact absurd few (Nat.not_lt_zero _)
  | succ fuel hyp =>
      intro memory roots owners e cell few outside found balanced
      have room : owners.card ≤ fuel := Nat.le_of_lt_succ few
      have itself : ∃ after lost left, some (memory.delete e) = some after ∧
          Balanced after (lost + (cell.node.refs + roots)) left ∧
          Drops memory (insert e owners) after lost left ∧ e ∉ left :=
        ⟨_, 0, owners, rfl, (balanced.deleted outside).1, (balanced.deleted outside).2, outside⟩
      rw [destroy, found, Option.bind_eq_bind, Option.bind_some]
      cases kind : cell.node with
      | int value =>
          rw [kind, Node.refs, zero_add] at itself
          exact itself
      | rat value =>
          rw [kind] at balanced
          have undeleted : cell.node.Undeleted := by rw [kind]; trivial
          exact ⟨memory, 0, owners, rfl, balanced, drops_undeleted found undeleted, outside⟩
      | sym name val =>
          cases val with
          | none =>
              rw [kind, Node.refs, Option.toList_none, Multiset.coe_nil, zero_add] at itself
              exact itself
          | some val =>
              rw [kind] at balanced
              obtain ⟨value, held⟩ := balanced.found (balanced.mem_of_root
                (Multiset.mem_add.mpr (.inl (Multiset.mem_singleton_self val))))
              simp only [held, Option.bind_some]
              split
              · -- The reference to a program is not given back.
                rename_i program
                refine ⟨_, {val}, owners, rfl, balanced.delete outside, ?_, outside⟩
                refine { (balanced.deleted outside).2 with programs := ?_ }
                intro other member
                obtain rfl := Multiset.mem_singleton.mp member
                refine ⟨value, ?_, program⟩
                rw [Memory.delete_of_ne, held]
                rintro rfl
                exact outside (balanced.mem_of_root (Multiset.mem_add.mpr (.inl member)))
              · exact (lowers_destroydec hyp).delete room outside balanced
      | hole val =>
          cases val with
          | none =>
              rw [kind, Node.refs, Option.toList_none, Multiset.coe_nil, zero_add] at itself
              exact itself
          | some val =>
              rw [kind] at balanced
              exact (lowers_destroydec hyp).delete room outside balanced
      | cexpr op kids marked =>
          rw [kind] at balanced
          cases kids with
          | nil =>
              have undeleted : cell.node.Undeleted := by rw [kind]; rfl
              exact ⟨memory, 0, owners, rfl, balanced, drops_undeleted found undeleted, outside⟩
          | cons kid rest =>
              exact run_destroyKids (lowers_decrement hyp) (lowers_destroydec hyp) kid rest room
                outside found balanced

/-! ### Fuel -/

theorem decrement_mono {destroy destroy' : Memory → Ref → Option Memory}
    {lower : Word → Option Object} {after : Memory}
    (mono : ∀ after, destroy memory e = some after → destroy' memory e = some after)
    (run : decrement destroy lower memory e = some after) :
    decrement destroy' lower memory e = some after := by
  obtain ⟨cell, found, rest⟩ := Option.bind_eq_some_iff.mp run
  obtain ⟨object, lowered, rest⟩ := Option.bind_eq_some_iff.mp rest
  rw [decrement, found, Option.bind_eq_bind, Option.bind_some, lowered, Option.bind_eq_bind,
    Option.bind_some]
  cases object with
  | destroyed => exact mono after rest
  | live data => exact rest

theorem destroyKids_mono {dec dec' destroydec destroydec' : Memory → Ref → Option Memory}
    (mono : ∀ memory e after, dec memory e = some after → dec' memory e = some after)
    (mono' : ∀ memory e after, destroydec memory e = some after → destroydec' memory e = some after)
    {kids : List Ref} {after : Memory}
    (run : destroyKids dec destroydec e kids memory = some after) :
    destroyKids dec' destroydec' e kids memory = some after := by
  induction kids generalizing memory with
  | nil => exact run
  | cons kid rest hyp =>
      cases rest with
      | nil => exact mono' _ _ _ run
      | cons next rest =>
          obtain ⟨middle, dropped, run⟩ := Option.bind_eq_some_iff.mp run
          obtain ⟨cell, found, run⟩ := Option.bind_eq_some_iff.mp run
          rw [destroyKids, mono _ _ _ dropped, Option.bind_eq_bind, Option.bind_some, found,
            Option.bind_eq_bind, Option.bind_some]
          exact hyp run

theorem destroy_mono {fuel more : Nat} (le : fuel ≤ more) {decKids : Bool} {after : Memory}
    (run : destroy fuel decKids memory e = some after) :
    destroy more decKids memory e = some after := by
  induction fuel generalizing more decKids memory e after with
  | zero => cases run
  | succ fuel hyp =>
      obtain ⟨more, rfl⟩ : ∃ less, more = less + 1 := ⟨more - 1, by omega⟩
      have again : ∀ decKids memory e after, destroy fuel decKids memory e = some after →
          destroy more decKids memory e = some after :=
        fun _ _ _ _ run => hyp (Nat.le_of_succ_le_succ le) run
      obtain ⟨cell, found, rest⟩ := Option.bind_eq_some_iff.mp run
      rw [destroy, found, Option.bind_eq_bind, Option.bind_some]
      cases kind : cell.node with
      | int value => simpa only [kind] using rest
      | rat value => simpa only [kind] using rest
      | hole val =>
          cases val with
          | none => simpa only [kind] using rest
          | some val =>
              simp only [kind] at rest
              exact decrement_mono (again decKids _ _) rest
      | sym name val =>
          cases val with
          | none => simpa only [kind] using rest
          | some val =>
              simp only [kind] at rest
              obtain ⟨value, held, rest⟩ := Option.bind_eq_some_iff.mp rest
              simp only [held, Option.bind_some]
              split at rest
              · rename_i program
                rwa [if_pos program]
              · rename_i other
                rw [if_neg other]
                exact decrement_mono (again decKids _ _) rest
      | cexpr op kids marked =>
          simp only [kind] at rest
          cases decKids with
          | false => exact rest
          | true =>
              exact destroyKids_mono (fun _ _ _ => decrement_mono (again true _ _))
                (fun _ _ _ => decrement_mono (again true _ _)) rest

/-- `dec` on a reference that somebody holds. -/
theorem lowers_dec (fuel : Nat) : Lowers fuel (Memory.dec fuel) :=
  lowers_decrement (destroys_destroy fuel)

end Dropping

end Lfsc
