import Mathlib.Algebra.BigOperators.Group.Finset.Basic
import Mathlib.Algebra.Order.Group.Multiset
import Mathlib.Data.Fintype.Order
import Mathlib.Logic.Relation
import Mathlib.Tactic.Abel

/-!
# Owned references

Objects own references to objects.  Besides these there are roots, references that somebody outside
holds.  An object that stops owning passes its references to the roots, so that no reference comes
or goes unless somebody makes or drops one.
-/

namespace Ownership

variable {α : Type*} {owns owns' : α → Multiset α} {roots more : Multiset α} {owners : Finset α}
  {x : α}

/-- All references: the roots and those that the owners own. -/
def refs (owns : α → Multiset α) (roots : Multiset α) (owners : Finset α) : Multiset α :=
  roots + ∑ owner ∈ owners, owns owner

/-- Every reference is to an owner. -/
def Closed (owns : α → Multiset α) (roots : Multiset α) (owners : Finset α) : Prop :=
  ∀ x ∈ refs owns roots owners, x ∈ owners

/-- What the roots lead to. -/
inductive Reaches (owns : α → Multiset α) (roots : Multiset α) : α → Prop
  | root {x : α} (held : x ∈ roots) : Reaches owns roots x
  | owned {owner x : α} (reaches : Reaches owns roots owner) (held : x ∈ owns owner) :
      Reaches owns roots x

theorem refs_cons : refs owns (x ::ₘ roots) owners = x ::ₘ refs owns roots owners :=
  Multiset.cons_add x roots _

theorem mem_refs : x ∈ refs owns roots owners ↔ x ∈ roots ∨ ∃ owner ∈ owners, x ∈ owns owner := by
  rw [refs, Multiset.mem_add, Multiset.mem_sum]

theorem refs_congr (same : ∀ owner ∈ owners, owns owner = owns' owner) :
    refs owns roots owners = refs owns' roots owners := by
  rw [refs, refs, Finset.sum_congr rfl same]

section Owners

variable [DecidableEq α]

/-- An object stops owning. -/
theorem refs_release (member : x ∈ owners) :
    refs owns (owns x + roots) (owners.erase x) = refs owns roots owners := by
  rw [refs, refs, ← Finset.add_sum_erase owners owns member]
  abel

/-- An object starts owning what the roots held. -/
theorem refs_insert (fresh : x ∉ owners) :
    refs owns roots (insert x owners) = refs owns (owns x + roots) owners := by
  rw [refs, refs, Finset.sum_insert fresh]
  abel

/-- An object gives back what it owned and takes what the roots held. -/
theorem refs_exchange (member : x ∈ owners) :
    refs (Function.update owns x more) (owns x + roots) owners =
      refs owns (more + roots) owners := by
  have others : ∑ owner ∈ owners.erase x, Function.update owns x more owner =
      ∑ owner ∈ owners.erase x, owns owner :=
    Finset.sum_congr rfl fun owner other =>
      Function.update_of_ne (Finset.ne_of_mem_erase other) more owns
  rw [refs, refs, ← Finset.add_sum_erase owners owns member,
    ← Finset.add_sum_erase owners (Function.update owns x more) member, Function.update_self,
    others]
  abel

end Owners

theorem Closed.mem_of_reaches (closed : Closed owns roots owners) (reaches : Reaches owns roots x) :
    x ∈ owners := by
  induction reaches with
  | root held => exact closed _ (mem_refs.mpr (.inl held))
  | @owned owner _ _ held member => exact closed _ (mem_refs.mpr (.inr ⟨owner, member, held⟩))

theorem Reaches.mono (reaches : Reaches owns roots x) (le : roots ⊆ more) :
    Reaches owns more x := by
  induction reaches with
  | root held => exact .root (le held)
  | owned _ held hyp => exact .owned hyp held

/-- What some roots and others lead to. -/
theorem Reaches.of_add (reaches : Reaches owns (more + roots) x) :
    Reaches owns roots x ∨ ∃ root ∈ more, Reaches owns {root} x := by
  induction reaches with
  | root held =>
      rcases Multiset.mem_add.mp held with held | held
      · exact .inr ⟨_, held, .root (Multiset.mem_singleton_self _)⟩
      · exact .inl (.root held)
  | owned _ held hyp =>
      rcases hyp with reached | ⟨root, member, reached⟩
      · exact .inl (.owned reached held)
      · exact .inr ⟨root, member, .owned reached held⟩

/-- Where every owner is referred to and the references do not close into a cycle, the roots lead to
every owner. -/
theorem reaches_of_acyclic (referred : ∀ x ∈ owners, x ∈ refs owns roots owners)
    (acyclic : ∀ x, ¬ Relation.TransGen (fun owner x => x ∈ owns owner) x x) :
    ∀ x ∈ owners, Reaches owns roots x := by
  let above : owners → owners → Prop :=
    Relation.TransGen fun owner inner => inner.1 ∈ owns owner.1
  have irrefl : Std.Irrefl above := by
    refine ⟨fun x loop => acyclic x.1 ?_⟩
    exact loop.lift Subtype.val fun _ _ held => held
  have trans : IsTrans owners above := ⟨fun _ _ _ => Relation.TransGen.trans⟩
  have founded : WellFounded above := Finite.wellFounded_of_trans_of_irrefl above
  have reached : ∀ x : owners, Reaches owns roots x.1 := by
    intro x
    induction x using founded.induction with
    | h x hyp =>
        rcases mem_refs.mp (referred x.1 x.2) with held | ⟨owner, member, held⟩
        · exact .root held
        · exact .owned (hyp ⟨owner, member⟩ (.single held)) held
  exact fun x member => reached ⟨x, member⟩

end Ownership
