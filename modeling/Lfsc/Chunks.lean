import Mathlib.Algebra.Group.Nat.Defs
import Mathlib.Data.List.Nodup
import Mathlib.Data.List.Perm.Basic
import Mathlib.Logic.Function.Basic

/-!
# Chunking memory management

The objects of a class are allocated as blocks of large chunks.  A deleted block is put on a free
list, whose links are kept in a field of the deleted objects themselves.
-/

namespace Lfsc

/-- The static members of a class with chunking memory management, and memory. -/
structure Chunks where
  /-- What the field for the links holds in the block at an address. -/
  field : Nat → Nat
  freelist : Nat
  nextFreeBlock : Nat
  endOfCurrentChunk : Nat
  /-- How often memory was requested. -/
  calls : Nat

/-- The static members before the first allocation. -/
def Chunks.start (field : Nat → Nat) : Chunks := ⟨field, 0, 0, 0, 0⟩

section Allocator

variable (chunkSize blockSize : Nat) (malloc : Nat → Nat)

/-- `allocate_new_chunk`, `none` where the assertion fails. -/
def Chunks.allocateNewChunk (chunks : Chunks) : Option Chunks :=
  let bytes := chunkSize * blockSize % 2 ^ 32
  let chunk := malloc chunks.calls
  if chunk = 0 then none
  else some { chunks with
    nextFreeBlock := chunk, endOfCurrentChunk := chunk + bytes, calls := chunks.calls + 1 }

/-- The next block of the current chunk. -/
def Chunks.takeNext (chunks : Chunks) : Nat × Chunks :=
  (chunks.nextFreeBlock, { chunks with nextFreeBlock := chunks.nextFreeBlock + blockSize })

/-- `operator new`. -/
def Chunks.new (h : Nat) (chunks : Chunks) : Option (Nat × Chunks) :=
  if h ≠ 0 then some (h, chunks)
  else if chunks.freelist ≠ 0 then
    some (chunks.freelist, { chunks with freelist := chunks.field chunks.freelist })
  else if chunks.nextFreeBlock = chunks.endOfCurrentChunk then
    (chunks.allocateNewChunk chunkSize blockSize malloc).map (Chunks.takeNext blockSize)
  else some (chunks.takeNext blockSize)

/-- `operator delete`. -/
def Chunks.delete (block : Nat) (chunks : Chunks) : Chunks :=
  { chunks with field := Function.update chunks.field block chunks.freelist, freelist := block }

/-- An object writes its field. -/
def Chunks.write (block value : Nat) (chunks : Chunks) : Chunks :=
  { chunks with field := Function.update chunks.field block value }

/-- The states after some operations, with the blocks that were allocated and not deleted.  Only
these are deleted and written. -/
inductive Chunks.Reached : Chunks → List Nat → Prop
  | start (field : Nat → Nat) : Reached (.start field) []
  | new {chunks after : Chunks} {live : List Nat} {block : Nat} (reached : Reached chunks live)
      (ran : chunks.new chunkSize blockSize malloc 0 = some (block, after)) :
      Reached after (block :: live)
  | delete {chunks : Chunks} {live : List Nat} {block : Nat} (reached : Reached chunks live)
      (held : block ∈ live) : Reached (chunks.delete block) (live.erase block)
  | write {chunks : Chunks} {live : List Nat} {block : Nat} (reached : Reached chunks live)
      (held : block ∈ live) (value : Nat) : Reached (chunks.write block value) live

/-- The chunks that `malloc` returns do not overlap. -/
def ProperMalloc (bytes : Nat) : Prop :=
  ∀ i j, i ≠ j → malloc i ≠ 0 → malloc j ≠ 0 →
    malloc i + bytes ≤ malloc j ∨ malloc j + bytes ≤ malloc i

/-! ## Blocks -/

/-- Blocks that follow each other. -/
def blocksFrom (first number : Nat) : List Nat :=
  (List.range number).map fun index => first + index * blockSize

/-- The blocks of all chunks. -/
def allBlocks (calls : Nat) : List Nat :=
  (List.range calls).flatMap fun call => blocksFrom blockSize (malloc call) chunkSize

/-- The links of a free list. -/
def FreeList (field : Nat → Nat) : Nat → List Nat → Prop
  | first, [] => first = 0
  | first, block :: rest => first = block ∧ block ≠ 0 ∧ FreeList field (field block) rest

/-- Every block of every chunk is allocated, on the free list, or not yet handed out. -/
structure Chunks.Sound (chunks : Chunks) (live : List Nat) (free : List Nat) (unused : Nat) :
    Prop where
  linked : FreeList chunks.field chunks.freelist free
  rest : chunks.nextFreeBlock + unused * blockSize = chunks.endOfCurrentChunk
  obtained : ∀ call < chunks.calls, malloc call ≠ 0
  blocks : (live ++ (free ++ blocksFrom blockSize chunks.nextFreeBlock unused)).Perm
    (allBlocks chunkSize blockSize malloc chunks.calls)

variable {chunkSize blockSize malloc}

theorem FreeList.update {field : Nat → Nat} {first : Nat} {free : List Nat}
    (linked : FreeList field first free) {block : Nat} (apart : block ∉ free) (value : Nat) :
    FreeList (Function.update field block value) first free := by
  induction free generalizing first with
  | nil => exact linked
  | cons next rest hyp =>
      obtain ⟨same, real, linked⟩ := linked
      rw [List.mem_cons, not_or] at apart
      refine ⟨same, real, ?_⟩
      rw [Function.update_of_ne (Ne.symm apart.1)]
      exact hyp linked apart.2

theorem mem_blocksFrom {first number block : Nat} :
    block ∈ blocksFrom blockSize first number ↔
      ∃ index < number, first + index * blockSize = block := by
  simp [blocksFrom]

theorem blocksFrom_succ (first number : Nat) :
    blocksFrom blockSize first (number + 1) =
      first :: blocksFrom blockSize (first + blockSize) number := by
  rw [blocksFrom, List.range_succ_eq_map, List.map_cons, Nat.zero_mul, Nat.add_zero, List.map_map]
  congr 1
  refine List.map_congr_left fun index _ => ?_
  simp only [Function.comp, Nat.succ_mul]
  omega

theorem mem_allBlocks {calls block : Nat} :
    block ∈ allBlocks chunkSize blockSize malloc calls ↔
      ∃ call < calls, ∃ index < chunkSize, malloc call + index * blockSize = block := by
  simp [allBlocks, mem_blocksFrom]

theorem allBlocks_succ (calls : Nat) :
    allBlocks chunkSize blockSize malloc (calls + 1) =
      allBlocks chunkSize blockSize malloc calls ++
        blocksFrom blockSize (malloc calls) chunkSize := by
  rw [allBlocks, List.range_succ, List.flatMap_append, List.flatMap_singleton]
  rfl

theorem length_allBlocks (calls : Nat) :
    (allBlocks chunkSize blockSize malloc calls).length = calls * chunkSize := by
  induction calls with
  | zero => simp [allBlocks]
  | succ calls hyp =>
      rw [allBlocks_succ, List.length_append, hyp, blocksFrom, List.length_map, List.length_range,
        Nat.succ_mul]

/-- Different blocks do not overlap. -/
theorem blocks_apart (proper : ProperMalloc malloc (chunkSize * blockSize)) {calls p q : Nat}
    (obtained : ∀ call < calls, malloc call ≠ 0)
    (first : p ∈ allBlocks chunkSize blockSize malloc calls)
    (second : q ∈ allBlocks chunkSize blockSize malloc calls) (ne : p ≠ q) :
    p + blockSize ≤ q ∨ q + blockSize ≤ p := by
  have inside : ∀ index < chunkSize, index * blockSize + blockSize ≤ chunkSize * blockSize := by
    intro index small
    rw [← Nat.succ_mul]
    exact Nat.mul_le_mul_right blockSize small
  obtain ⟨call, small, index, less, rfl⟩ := mem_allBlocks.mp first
  obtain ⟨call', small', index', less', rfl⟩ := mem_allBlocks.mp second
  have room := inside index less
  have room' := inside index' less'
  by_cases same : call = call'
  · subst same
    rcases Nat.lt_trichotomy index index' with before | rfl | behind
    · have gap := Nat.mul_le_mul_right blockSize before
      rw [Nat.succ_mul] at gap
      omega
    · exact absurd rfl ne
    · have gap := Nat.mul_le_mul_right blockSize behind
      rw [Nat.succ_mul] at gap
      omega
  · rcases proper call call' same (obtained call small) (obtained call' small') with low | high
    · omega
    · omega

theorem nodup_blocksFrom (positive : 0 < blockSize) (first number : Nat) :
    (blocksFrom blockSize first number).Nodup := by
  refine List.nodup_range.map fun index index' same => ?_
  exact Nat.eq_of_mul_eq_mul_right positive (Nat.add_left_cancel same)

theorem nodup_allBlocks (proper : ProperMalloc malloc (chunkSize * blockSize))
    (positive : 0 < blockSize) {calls : Nat} (obtained : ∀ call < calls, malloc call ≠ 0) :
    (allBlocks chunkSize blockSize malloc calls).Nodup := by
  refine List.nodup_flatMap.mpr ⟨fun call _ => nodup_blocksFrom positive _ _, ?_⟩
  refine List.nodup_range.imp_of_mem fun {call call'} small small' ne block member member' => ?_
  obtain ⟨index, less, rfl⟩ := mem_blocksFrom.mp member
  obtain ⟨index', less', same⟩ := mem_blocksFrom.mp member'
  have room := Nat.mul_lt_mul_of_pos_right less positive
  have room' := Nat.mul_lt_mul_of_pos_right less' positive
  rw [List.mem_range] at small small'
  rcases proper call call' ne (obtained call small) (obtained call' small') with low | high
  · omega
  · omega

/-! ## Steps -/

section Steps

variable {chunks after : Chunks} {live free : List Nat} {unused block : Nat}

theorem Chunks.Sound.nodup (sound : chunks.Sound chunkSize blockSize malloc live free unused)
    (proper : ProperMalloc malloc (chunkSize * blockSize)) (positive : 0 < blockSize) :
    (live ++ (free ++ blocksFrom blockSize chunks.nextFreeBlock unused)).Nodup :=
  sound.blocks.nodup_iff.mpr (nodup_allBlocks proper positive sound.obtained)

/-- A block of the free list is handed out. -/
theorem Chunks.Sound.takeFree (sound : chunks.Sound chunkSize blockSize malloc live free unused)
    (listed : chunks.freelist ≠ 0) :
    ∃ rest, free = chunks.freelist :: rest ∧
      Chunks.Sound chunkSize blockSize malloc
        { chunks with freelist := chunks.field chunks.freelist } (chunks.freelist :: live) rest
        unused := by
  have linked := sound.linked
  cases free with
  | nil => exact absurd linked listed
  | cons next rest =>
      obtain ⟨same, -, linked⟩ := linked
      subst same
      refine ⟨rest, rfl, linked, sound.rest, sound.obtained, ?_⟩
      refine List.Perm.trans ?_ sound.blocks
      rw [List.cons_append, List.cons_append]
      exact List.perm_middle.symm

/-- A block of the current chunk is handed out. -/
theorem Chunks.Sound.takeNext
    (sound : chunks.Sound chunkSize blockSize malloc live free (unused + 1)) :
    (chunks.takeNext blockSize).2.Sound chunkSize blockSize malloc
      ((chunks.takeNext blockSize).1 :: live) free unused := by
  refine ⟨sound.linked, ?_, sound.obtained, ?_⟩
  · have rest := sound.rest
    rw [Nat.succ_mul] at rest
    change chunks.nextFreeBlock + blockSize + unused * blockSize = chunks.endOfCurrentChunk
    omega
  · refine List.Perm.trans ?_ sound.blocks
    rw [blocksFrom_succ, List.cons_append, ← List.append_assoc, ← List.append_assoc]
    exact List.perm_middle.symm

/-- A new chunk is requested when no block is left. -/
theorem Chunks.Sound.allocate (sound : chunks.Sound chunkSize blockSize malloc live free 0)
    (small : chunkSize * blockSize < 2 ^ 32)
    (ran : chunks.allocateNewChunk chunkSize blockSize malloc = some after) :
    after.Sound chunkSize blockSize malloc live free chunkSize := by
  rw [allocateNewChunk, Nat.mod_eq_of_lt small] at ran
  split at ran
  · cases ran
  · rename_i real
    obtain rfl := Option.some.inj ran
    refine ⟨sound.linked, rfl, ?_, ?_⟩
    · intro call less
      rcases Nat.lt_succ_iff_lt_or_eq.mp less with less | rfl
      · exact sound.obtained call less
      · exact real
    · have blocks := sound.blocks.append_right
        (blocksFrom blockSize (malloc chunks.calls) chunkSize)
      rw [← allBlocks_succ] at blocks
      simpa [blocksFrom] using blocks

theorem Chunks.Sound.ne_zero (sound : chunks.Sound chunkSize blockSize malloc live free unused)
    (held : block ∈ live) : block ≠ 0 := by
  obtain ⟨call, less, index, -, rfl⟩ :=
    mem_allBlocks.mp (sound.blocks.mem_iff.mp (List.mem_append_left _ held))
  have real := sound.obtained call less
  omega

/-- An allocated block is put on the free list. -/
theorem Chunks.Sound.delete (sound : chunks.Sound chunkSize blockSize malloc live free unused)
    (apart : block ∉ free) (held : block ∈ live) :
    (chunks.delete block).Sound chunkSize blockSize malloc (live.erase block) (block :: free)
      unused := by
  refine ⟨⟨rfl, sound.ne_zero held, ?_⟩, sound.rest, sound.obtained, ?_⟩
  · simp only [Chunks.delete, Function.update_self]
    exact sound.linked.update apart _
  · refine List.Perm.trans ?_ sound.blocks
    rw [List.cons_append]
    exact List.perm_middle.trans ((List.perm_cons_erase held).symm.append_right _)

theorem Chunks.Sound.write (sound : chunks.Sound chunkSize blockSize malloc live free unused)
    (apart : block ∉ free) (value : Nat) :
    (chunks.write block value).Sound chunkSize blockSize malloc live free unused :=
  ⟨sound.linked.update apart value, sound.rest, sound.obtained, sound.blocks⟩

/-- The block of a `new` is counted, and memory is only requested when every block is allocated. -/
theorem Chunks.Sound.new (sound : chunks.Sound chunkSize blockSize malloc live free unused)
    (small : chunkSize * blockSize < 2 ^ 32) (positive : 0 < blockSize) (nonempty : 0 < chunkSize)
    (ran : chunks.new chunkSize blockSize malloc 0 = some (block, after)) :
    (∃ free unused, after.Sound chunkSize blockSize malloc (block :: live) free unused) ∧
      (after.calls = chunks.calls ∨ live.length = chunks.calls * chunkSize) := by
  rw [Chunks.new, if_neg (by simp)] at ran
  split at ran
  · rename_i listed
    obtain ⟨rest, -, taken⟩ := sound.takeFree listed
    cases ran
    exact ⟨⟨rest, unused, taken⟩, .inl rfl⟩
  · rename_i unlisted
    rw [not_not] at unlisted
    have empty : free = [] := by
      cases free with
      | nil => rfl
      | cons next rest => exact absurd (sound.linked.1.symm.trans unlisted) sound.linked.2.1
    subst empty
    have rest := sound.rest
    split at ran
    · rename_i full
      obtain ⟨middle, ready, taken⟩ := Option.map_eq_some_iff.mp ran
      have none : unused = 0 := by
        rcases Nat.mul_eq_zero.mp (show unused * blockSize = 0 by omega) with none | zero
        · exact none
        · exact absurd zero (Nat.ne_of_gt positive)
      subst none
      obtain ⟨number, rfl⟩ : ∃ number, chunkSize = number + 1 := ⟨chunkSize - 1, by omega⟩
      have next := (sound.allocate small ready).takeNext
      rw [taken] at next
      refine ⟨⟨[], number, next⟩, .inr ?_⟩
      rw [← length_allBlocks, ← sound.blocks.length_eq]
      simp [blocksFrom]
    · rename_i left
      have taken := Option.some.inj ran
      obtain ⟨number, rfl⟩ : ∃ number, unused = number + 1 := by
        refine ⟨unused - 1, ?_⟩
        rcases Nat.eq_zero_or_pos unused with rfl | more
        · exact absurd (by omega) left
        · omega
      have next := sound.takeNext
      rw [taken] at next
      exact ⟨⟨[], number, next⟩, .inl (congrArg (fun pair => pair.2.calls) taken).symm⟩

theorem Chunks.Reached.sound (reached : Reached chunkSize blockSize malloc chunks live)
    (proper : ProperMalloc malloc (chunkSize * blockSize))
    (small : chunkSize * blockSize < 2 ^ 32) (positive : 0 < blockSize) (nonempty : 0 < chunkSize) :
    ∃ free unused, chunks.Sound chunkSize blockSize malloc live free unused := by
  induction reached with
  | start field =>
      refine ⟨[], 0, rfl, ?_, fun call none => absurd none (Nat.not_lt_zero call), ?_⟩
      · rw [Nat.zero_mul]
        rfl
      · exact List.Perm.refl []
  | new _ ran hyp =>
      obtain ⟨free, unused, sound⟩ := hyp
      exact (sound.new small positive nonempty ran).1
  | delete _ held hyp =>
      obtain ⟨free, unused, sound⟩ := hyp
      have apart := List.disjoint_of_nodup_append (sound.nodup proper positive) held
      exact ⟨_, _, sound.delete (fun member => apart (List.mem_append_left _ member)) held⟩
  | write _ held value hyp =>
      obtain ⟨free, unused, sound⟩ := hyp
      have apart := List.disjoint_of_nodup_append (sound.nodup proper positive) held
      exact ⟨_, _, sound.write (fun member => apart (List.mem_append_left _ member)) value⟩

end Steps

/-- Blocks that are in use at the same time do not overlap, a block that `new` returns is not in
use, and a chunk is requested only when all blocks of the earlier ones are in use. -/
theorem chunks_safe {chunks : Chunks} {live : List Nat}
    (reached : Chunks.Reached chunkSize blockSize malloc chunks live)
    (proper : ProperMalloc malloc (chunkSize * blockSize))
    (small : chunkSize * blockSize < 2 ^ 32) (positive : 0 < blockSize) (nonempty : 0 < chunkSize) :
    live.Nodup ∧
      (∀ p ∈ live, ∃ call < chunks.calls, ∃ index < chunkSize,
        p = malloc call + index * blockSize) ∧
      (∀ p ∈ live, ∀ q ∈ live, p ≠ q → p + blockSize ≤ q ∨ q + blockSize ≤ p) ∧
      ∀ block after, chunks.new chunkSize blockSize malloc 0 = some (block, after) →
        block ∉ live ∧
          (after.calls = chunks.calls ∨ live.length = chunks.calls * chunkSize) := by
  obtain ⟨free, unused, sound⟩ := reached.sound proper small positive nonempty
  have inside : ∀ p ∈ live, p ∈ allBlocks chunkSize blockSize malloc chunks.calls :=
    fun p held => sound.blocks.mem_iff.mp (List.mem_append_left _ held)
  refine ⟨(sound.nodup proper positive).of_append_left, ?_, ?_, ?_⟩
  · intro p held
    obtain ⟨call, less, index, less', same⟩ := mem_allBlocks.mp (inside p held)
    exact ⟨call, less, index, less', same.symm⟩
  · intro p held q held' ne
    exact blocks_apart proper sound.obtained (inside p held) (inside q held') ne
  · intro block after ran
    obtain ⟨⟨free', unused', sound'⟩, requested⟩ := sound.new small positive nonempty ran
    have nodup := (sound'.nodup proper positive).of_append_left
    exact ⟨(List.nodup_cons.mp nodup).1, requested⟩

end Allocator

/-- The chunks of `CExpr`, in a memory that grows upwards. -/
theorem chunks_safe_reused :
    ∃ chunks : Chunks, chunks.Reached 32768 24 (fun call => (call + 1) * 786432) [786432] ∧
      ∀ block after, chunks.new 32768 24 (fun call => (call + 1) * 786432) 0 = some (block, after) →
        block ≠ 786432 := by
  have proper : ProperMalloc (fun call => (call + 1) * 786432) (32768 * 24) := by
    intro i j ne _ _
    simp only
    omega
  let one : Chunks := ⟨fun _ => 0, 0, 786456, 1572864, 1⟩
  have first : Chunks.Reached 32768 24 (fun call => (call + 1) * 786432) one [786432] :=
    .new (.start fun _ => 0) (by
      simp [one, Chunks.new, Chunks.start, Chunks.allocateNewChunk, Chunks.takeNext])
  have again : Chunks.Reached 32768 24 (fun call => (call + 1) * 786432) (one.delete 786432) [] :=
    first.delete List.mem_cons_self
  have reused : Chunks.Reached 32768 24 (fun call => (call + 1) * 786432)
      { one.delete 786432 with freelist := 0 } [786432] :=
    .new again (by simp [one, Chunks.new, Chunks.delete])
  refine ⟨_, reused, fun block after ran => ?_⟩
  obtain ⟨-, -, -, fresh⟩ := chunks_safe reused proper (by decide) (by decide) (by decide)
  exact fun same => (fresh block after ran).1 (by simp [same])

end Lfsc
