import Mathlib.Algebra.Order.Ring.Int

/-!
# Counts that stick

The holders of a resource are counted in a field with a top.  Once the count reaches the top it
moves neither up nor down.  Below the top it is the number of holders, and at the top it only says
that there were many, so that it never falls to zero while somebody holds the resource.
-/

namespace StickyCount

/-- The count after one more holder. -/
def up (top count : Nat) : Nat := if count < top then count + 1 else count

/-- The count after one holder less. -/
def down (top count : Nat) : Nat := if count < top then count - 1 else count

/-- The count is stuck, or it is the number of holders. -/
def Tracks (top : Nat) (holders : Int) (count : Nat) : Prop :=
  count = top ∨ count < top ∧ (count : Int) = holders

variable {top count : Nat} {holders : Int}

theorem up_top : up top top = top := by simp [up]

theorem down_top : down top top = top := by simp [down]

theorem Tracks.le (tracks : Tracks top holders count) : count ≤ top := by
  rcases tracks with stuck | ⟨below, -⟩
  · exact stuck.le
  · exact below.le

theorem Tracks.up (tracks : Tracks top holders count) :
    Tracks top (holders + 1) (up top count) := by
  rcases tracks with rfl | ⟨below, exact_⟩
  · exact .inl up_top
  · have moved : StickyCount.up top count = count + 1 := by simp [StickyCount.up, below]
    rw [moved]
    by_cases full : count + 1 = top
    · exact .inl full
    · exact .inr ⟨by omega, by omega⟩

theorem Tracks.down (tracks : Tracks top holders count) (held : 0 < holders) :
    Tracks top (holders - 1) (down top count) := by
  rcases tracks with rfl | ⟨below, exact_⟩
  · exact .inl down_top
  · have moved : StickyCount.down top count = count - 1 := by simp [StickyCount.down, below]
    rw [moved]
    exact .inr ⟨by omega, by omega⟩

/-- While somebody holds the resource the count is positive. -/
theorem Tracks.pos (tracks : Tracks top holders count) (held : 0 < holders) (room : 0 < top) :
    0 < count := by
  rcases tracks with rfl | ⟨-, exact_⟩
  · exact room
  · omega

/-- A count that is not stuck is zero exactly when nobody holds the resource. -/
theorem Tracks.eq_zero_iff (tracks : Tracks top holders count) (free : count ≠ top) :
    count = 0 ↔ holders = 0 := by
  rcases tracks with stuck | ⟨-, exact_⟩
  · exact (free stuck).elim
  · omega

end StickyCount
