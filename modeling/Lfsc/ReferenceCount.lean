import Mathlib.Data.List.Induction
import Mathlib.Data.List.Infix
import Mathlib.Tactic.IntervalCases
import Lfsc.StickyCount
import Lfsc.Store

/-!
# Reference counts

Every expression keeps its class, its operator, a flag and the number of references to it in one
`int`.  The arithmetic on that word is the signed arithmetic of C++, undefined where a result does
not fit; an object is followed from its construction to its destruction.
-/

namespace Lfsc

/-! ## Codes -/

/-- The classes of expressions. -/
inductive ExprClass
  | cexpr | intExpr | ratExpr | holeExpr | symExpr | symsExpr
  deriving DecidableEq, Repr

/-- The numbers of the classes. -/
def ExprClass.code : ExprClass → Nat
  | .cexpr => 0
  | .intExpr => 1
  | .ratExpr => 2
  | .holeExpr => 3
  | .symExpr => 4
  | .symsExpr => 5

/-- The numbers of the operators of a `CExpr`. -/
def Op.code : Op → Nat
  | .app => 1
  | .pi => 2
  | .lam => 3
  | .type => 4
  | .kind => 5
  | .ascribe => 6
  | .mpz => 7
  | .mpq => 8
  | .prog => 9
  | .progvars => 10
  | .match_ => 11
  | .case_ => 12
  | .pat => 13
  | .do_ => 14
  | .add => 15
  | .mul => 16
  | .div => 17
  | .neg => 18
  | .ifneg => 19
  | .ifzero => 20
  | .mpzToMpq => 21
  | .let_ => 22
  | .run => 23
  | .fail => 24
  | .markvar => 25
  | .ifmarked => 26
  | .compare => 27
  | .ifequal => 28

/-- The number of an operator, or of `NOT_CEXPR`. -/
def opCode : Option Op → Nat
  | none => 0
  | some op => op.code

/-- The class of an object. -/
def Node.exprClass : Node → ExprClass
  | .cexpr _ _ _ => .cexpr
  | .int _ => .intExpr
  | .rat _ => .ratExpr
  | .hole _ => .holeExpr
  | .sym _ _ => .symsExpr

/-- The operator of an object. -/
def Node.op? : Node → Option Op
  | .cexpr op _ _ => some op
  | _ => none

/-! ## The data word -/

/-- An `int`. -/
abbrev Word := BitVec 32

/-- The sum of two `int`s, if it fits. -/
def addInt (x y : Word) : Option Word := if x.saddOverflow y then none else some (x + y)

/-- The difference of two `int`s, if it fits. -/
def subInt (x y : Word) : Option Word := if x.ssubOverflow y then none else some (x - y)

/-- An `int` shifted to the left, if the result fits. -/
def shlInt (x : Word) (places : Nat) : Option Word :=
  if 0 ≤ x.toInt ∧ (x <<< places).toInt = x.toInt * 2 ^ places then some (x <<< places) else none

/-- `d_maxRefCount`. -/
def maxRefCount : Nat := 4194303

/-- The constructor `Expr`: one reference, and the flag off. -/
def initData (cls : ExprClass) (op : Option Op) : Word :=
  1 <<< 9 ||| BitVec.ofNat 32 (opCode op) <<< 3 ||| BitVec.ofNat 32 cls.code

/-- `getclass`. -/
def getclass (data : Word) : Word := data &&& 7

/-- `getop` on the data word. -/
def getopBits (data : Word) : Word := data.sshiftRight 3 &&& 31

/-- `getexmark`, `cloned` and `get_free_in`. -/
def getexmark (data : Word) : Word := data &&& 256

/-- `getrefcnt`. -/
def getrefcnt (data : Word) : Word := data.sshiftRight 9

/-- `setexmark`. -/
def setexmark (data : Word) : Word := data ||| 256

/-- `setcloned`. -/
def setcloned (data : Word) : Word := data ||| 256

/-- `clearexmark`. -/
def clearexmark (data : Word) : Word := data &&& ~~~256

/-- The assignment of `calc_free_in`, given whether the variable occurs. -/
def assignFreeIn (occurs : Bool) (data : Word) : Word :=
  data &&& ~~~256 ||| 256 * if occurs then 1 else 0

/-- The word with another reference count. -/
def withRefCount (ref data : Word) : Option Word := do return (← shlInt ref 9) ||| data &&& 511

/-- `ref < d_maxRefCount ? ref + 1 : ref`. -/
def raiseRef (ref : Word) : Option Word :=
  if ref.slt (BitVec.ofNat 32 maxRefCount) then addInt ref 1 else some ref

/-- `ref < d_maxRefCount ? ref - 1 : ref`. -/
def lowerRef (ref : Word) : Option Word :=
  if ref.slt (BitVec.ofNat 32 maxRefCount) then subInt ref 1 else some ref

/-- `inc`. -/
def inc (data : Word) : Option Word := do
  let ref ← raiseRef (getrefcnt data)
  withRefCount ref data

/-- An expression before and after `destroy` is called on it. -/
inductive Object
  | live (data : Word)
  | destroyed
  deriving DecidableEq, Repr

/-- `dec`. -/
def dec (data : Word) : Option Object := do
  let ref ← lowerRef (getrefcnt data)
  if ref = 0 then return .destroyed else return .live (← withRefCount ref data)

/-- The macro `destroydec`, by which `destroy` drops its reference to a child or a value. -/
def destroydec (data : Word) : Option Object := do
  let ref ← lowerRef (data.sshiftRight 9)
  if ref = 0 then return .destroyed else return .live (← withRefCount ref data)

theorem destroydec_eq_dec (data : Word) : destroydec data = dec data := rfl

/-! ## Histories of an object -/

/-- The operations that write the data word. -/
inductive RefOp
  | inc | dec | destroydec | setcloned | setexmark | clearexmark
  | calcFreeIn (occurs : Bool)
  deriving DecidableEq, Repr

/-- An operation on an object that exists. -/
def RefOp.apply (data : Word) : RefOp → Option Object
  | .inc => .live <$> Lfsc.inc data
  | .dec => Lfsc.dec data
  | .destroydec => Lfsc.destroydec data
  | .setcloned => some (.live (Lfsc.setcloned data))
  | .setexmark => some (.live (Lfsc.setexmark data))
  | .clearexmark => some (.live (Lfsc.clearexmark data))
  | .calcFreeIn occurs => some (.live (assignFreeIn occurs data))

/-- An operation; on an object that is destroyed its behaviour is undefined. -/
def Object.step : Object → RefOp → Option Object
  | .live data, op => op.apply data
  | .destroyed, _ => none

/-- The object after some operations, undefined if one of them was. -/
def history (ops : List RefOp) (object : Object) : Option Object := ops.foldlM Object.step object

/-- How an operation changes the number of references. -/
def RefOp.change : RefOp → Int
  | .inc => 1
  | .dec | .destroydec => -1
  | _ => 0

/-- The references that are outstanding after some operations, the first one being that of the
creator. -/
def outstanding (ops : List RefOp) : Int := 1 + (ops.map RefOp.change).sum

/-- The flag after an operation. -/
def RefOp.flag : RefOp → Bool → Bool
  | .setcloned, _ | .setexmark, _ => true
  | .clearexmark, _ => false
  | .calcFreeIn occurs, _ => occurs
  | _, flag => flag

/-- The flag after some operations on a new object. -/
def flagAfter (ops : List RefOp) : Bool := ops.foldl (fun flag op => op.flag flag) false

/-- While operations are made the object is referred to. -/
def Referred (ops : List RefOp) : Prop :=
  ∀ front, front <+: ops → front ≠ ops → 0 < outstanding front

/-- The count did not reach its maximum. -/
def NeverFull (cls : ExprClass) (op : Option Op) (ops : List RefOp) : Prop :=
  ∀ front data, front <+: ops → history front (.live (initData cls op)) = some (.live data) →
    getrefcnt data ≠ BitVec.ofNat 32 maxRefCount

/-! ## What a word holds -/

/-- A word holds the class and operator of its object, the flag and a count. -/
structure Holds (cls : ExprClass) (op : Option Op) (flag : Bool) (count : Nat) (data : Word) :
    Prop where
  kind : data &&& 255 = initData cls op &&& 255
  mark : getexmark data = if flag then 256 else 0
  refs : getrefcnt data = BitVec.ofNat 32 count

theorem getclass_congr {data other : Word} (same : data &&& 255 = other &&& 255) :
    getclass data = getclass other := by
  have through : ∀ word : Word, getclass word = word &&& 255 &&& 7 := by
    intro word
    rw [BitVec.and_assoc]
    rfl
  rw [through, through, same]

theorem getopBits_congr {data other : Word} (same : data &&& 255 = other &&& 255) :
    getopBits data = getopBits other := by
  have through : ∀ word : Word, getopBits word = (word &&& 255).sshiftRight 3 &&& 31 := by
    intro word
    rw [BitVec.sshiftRight_and_distrib, BitVec.and_assoc]
    rfl
  rw [through, through, same]

theorem getclass_initData (cls : ExprClass) (op : Option Op) :
    getclass (initData cls op) = BitVec.ofNat 32 cls.code := by
  cases cls <;> rcases op with - | op <;> first | rfl | (cases op <;> rfl)

theorem getopBits_initData (cls : ExprClass) (op : Option Op) :
    getopBits (initData cls op) = BitVec.ofNat 32 (opCode op) := by
  cases cls <;> rcases op with - | op <;> first | rfl | (cases op <;> rfl)

theorem holds_initData (cls : ExprClass) (op : Option Op) :
    Holds cls op false 1 (initData cls op) := by
  constructor
  · rfl
  · cases cls <;> rcases op with - | op <;> first | rfl | (cases op <;> rfl)
  · cases cls <;> rcases op with - | op <;> first | rfl | (cases op <;> rfl)

section Holds

variable {cls : ExprClass} {op : Option Op} {flag : Bool} {count : Nat} {data : Word}

theorem Holds.getclass (holds : Holds cls op flag count data) :
    getclass data = BitVec.ofNat 32 cls.code :=
  (getclass_congr holds.kind).trans (getclass_initData cls op)

theorem Holds.getopBits (holds : Holds cls op flag count data) :
    getopBits data = BitVec.ofNat 32 (opCode op) :=
  (getopBits_congr holds.kind).trans (getopBits_initData cls op)

/-! ### The flag -/

theorem Holds.setexmark (holds : Holds cls op flag count data) :
    Holds cls op true count (setexmark data) := by
  constructor
  · rw [Lfsc.setexmark, BitVec.and_or_distrib_right, holds.kind]
    exact BitVec.or_zero
  · rw [Lfsc.setexmark, Lfsc.getexmark, BitVec.and_or_distrib_right]
    ext i bound
    interval_cases i <;> simp
  · rw [Lfsc.setexmark, Lfsc.getrefcnt, BitVec.sshiftRight_or_distrib]
    exact BitVec.or_zero.trans holds.refs

theorem Holds.clearexmark (holds : Holds cls op flag count data) :
    Holds cls op false count (clearexmark data) := by
  constructor
  · rw [Lfsc.clearexmark, BitVec.and_assoc]
    exact holds.kind
  · rw [Lfsc.clearexmark, Lfsc.getexmark, BitVec.and_assoc]
    exact BitVec.and_zero
  · rw [Lfsc.clearexmark, Lfsc.getrefcnt, BitVec.sshiftRight_and_distrib]
    exact BitVec.and_allOnes.trans holds.refs

theorem Holds.assignFreeIn (occurs : Bool) (holds : Holds cls op flag count data) :
    Holds cls op occurs count (assignFreeIn occurs data) := by
  cases occurs with
  | false =>
      have same : Lfsc.assignFreeIn false data = Lfsc.clearexmark data := BitVec.or_zero
      rw [same]
      exact holds.clearexmark
  | true => exact holds.clearexmark.setexmark

/-! ### The count -/

theorem getrefcnt_shifted {ref : Word} (small : ref.toNat < 2 ^ 22) :
    (ref <<< 9).sshiftRight 9 = ref := by
  have grown : (ref <<< 9).toNat = ref.toNat * 512 := by
    rw [BitVec.toNat_shiftLeft, Nat.shiftLeft_eq]
    exact Nat.mod_eq_of_lt (by omega)
  have positive : (ref <<< 9).msb = false := by
    rw [BitVec.msb_eq_decide, grown]
    simp only [decide_eq_false_iff_not]
    omega
  apply BitVec.eq_of_toNat_eq
  rw [BitVec.toNat_sshiftRight, positive, grown]
  simp [Nat.shiftRight_eq_div_pow]

theorem toInt_ofNat_small {value : Nat} (small : value < 2 ^ 31) :
    (BitVec.ofNat 32 value).toInt = value := by
  rw [BitVec.toInt_ofNat', Int.bmod_eq_of_le] <;> omega

theorem shlInt_small (small : count ≤ maxRefCount) :
    shlInt (BitVec.ofNat 32 count) 9 = some (BitVec.ofNat 32 count <<< 9) := by
  have shifted : BitVec.ofNat 32 count <<< 9 = BitVec.ofNat 32 (count * 512) := by
    apply BitVec.eq_of_toNat_eq
    simp [BitVec.toNat_shiftLeft, Nat.shiftLeft_eq]
  simp only [maxRefCount] at small
  rw [shlInt, if_pos]
  rw [shifted, toInt_ofNat_small (by omega), toInt_ofNat_small (by omega)]
  constructor
  · omega
  · push_cast
    omega

/-- A new count does not disturb the bits below it. -/
theorem packed_low (ref data : Word) : (ref <<< 9 ||| data &&& 511) &&& 511 = data &&& 511 := by
  have vacant : ref <<< 9 &&& 511 = 0#32 := by
    ext i bound
    simp only [BitVec.getElem_and, BitVec.getElem_shiftLeft]
    interval_cases i <;> simp
  rw [BitVec.and_or_distrib_right, vacant, BitVec.zero_or, BitVec.and_assoc, BitVec.and_self]

theorem Holds.withRefCount (holds : Holds cls op flag count data) {ref : Nat}
    (small : ref ≤ maxRefCount) :
    ∃ after, withRefCount (BitVec.ofNat 32 ref) data = some after ∧
      Holds cls op flag ref after := by
  let after : Word := BitVec.ofNat 32 ref <<< 9 ||| data &&& 511
  have low : after &&& 511 = data &&& 511 := packed_low _ _
  have stored : Lfsc.withRefCount (BitVec.ofNat 32 ref) data = some after := by
    rw [Lfsc.withRefCount, shlInt_small small]
    rfl
  have kind : after &&& 255 = data &&& 255 := by
    calc after &&& 255 = after &&& 511 &&& 255 := by rw [BitVec.and_assoc]; rfl
      _ = data &&& 511 &&& 255 := by rw [low]
      _ = data &&& 255 := by rw [BitVec.and_assoc]; rfl
  have mark : Lfsc.getexmark after = Lfsc.getexmark data := by
    calc after &&& 256 = after &&& 511 &&& 256 := by rw [BitVec.and_assoc]; rfl
      _ = data &&& 511 &&& 256 := by rw [low]
      _ = data &&& 256 := by rw [BitVec.and_assoc]; rfl
  have refs : Lfsc.getrefcnt after = BitVec.ofNat 32 ref := by
    have dropped : (data &&& 511).sshiftRight 9 = 0#32 := by
      rw [BitVec.sshiftRight_and_distrib]
      exact BitVec.and_zero
    simp only [maxRefCount] at small
    rw [Lfsc.getrefcnt, BitVec.sshiftRight_or_distrib, dropped, BitVec.or_zero,
      getrefcnt_shifted]
    rw [BitVec.toNat_ofNat]
    omega
  exact ⟨after, stored, kind.trans holds.kind, mark.trans holds.mark, refs⟩

/-- Whether a stored count is below the maximum. -/
theorem slt_maxRefCount (small : count ≤ maxRefCount) :
    (BitVec.ofNat 32 count).slt (BitVec.ofNat 32 maxRefCount) = decide (count < maxRefCount) := by
  simp only [maxRefCount] at small ⊢
  rw [BitVec.slt, toInt_ofNat_small (by omega), toInt_ofNat_small (by omega)]
  exact decide_eq_decide.mpr (by omega)

theorem raiseRef_eq (small : count ≤ maxRefCount) :
    raiseRef (BitVec.ofNat 32 count) =
      some (BitVec.ofNat 32 (StickyCount.up maxRefCount count)) := by
  rw [raiseRef, slt_maxRefCount small, StickyCount.up]
  by_cases below : count < maxRefCount
  · have fits : (BitVec.ofNat 32 count).saddOverflow 1 = false := by
      have one : (1 : Word).toInt = 1 := rfl
      simp only [maxRefCount] at below
      rw [BitVec.saddOverflow, toInt_ofNat_small (by omega), one]
      simp only [Bool.or_eq_false_iff, decide_eq_false_iff_not]
      omega
    simp only [below, decide_true, if_true, addInt, fits, Bool.false_eq_true, if_false]
    rw [BitVec.ofNat_add]
    rfl
  · simp [below]

theorem lowerRef_eq (positive : 0 < count) (small : count ≤ maxRefCount) :
    lowerRef (BitVec.ofNat 32 count) =
      some (BitVec.ofNat 32 (StickyCount.down maxRefCount count)) := by
  rw [lowerRef, slt_maxRefCount small, StickyCount.down]
  by_cases below : count < maxRefCount
  · have fits : (BitVec.ofNat 32 count).ssubOverflow 1 = false := by
      have one : (1 : Word).toInt = 1 := rfl
      simp only [maxRefCount] at below
      rw [BitVec.ssubOverflow, toInt_ofNat_small (by omega), one]
      simp only [Bool.or_eq_false_iff, decide_eq_false_iff_not]
      omega
    have less : BitVec.ofNat 32 count - 1 = BitVec.ofNat 32 (count - 1) := by
      rw [BitVec.sub_eq_iff_eq_add]
      calc BitVec.ofNat 32 count = BitVec.ofNat 32 (count - 1 + 1) := by
            rw [Nat.sub_add_cancel positive]
        _ = BitVec.ofNat 32 (count - 1) + 1 := BitVec.ofNat_add _ _
    simp only [below, decide_true, if_true, subInt, fits, Bool.false_eq_true, if_false, less]
  · simp [below]

/-- An object stands for its count: it is destroyed when the count is zero. -/
inductive Stands (cls : ExprClass) (op : Option Op) (flag : Bool) : Nat → Object → Prop
  | live {count : Nat} {data : Word} (positive : 0 < count)
      (holds : Holds cls op flag count data) : Stands cls op flag count (.live data)
  | destroyed : Stands cls op flag 0 .destroyed

theorem Holds.inc (holds : Holds cls op flag count data) (small : count ≤ maxRefCount) :
    ∃ after, inc data = some after ∧
      Holds cls op flag (StickyCount.up maxRefCount count) after := by
  have raised : StickyCount.up maxRefCount count ≤ maxRefCount := by
    rw [StickyCount.up]
    split <;> omega
  obtain ⟨after, stored, kept⟩ := holds.withRefCount raised
  refine ⟨after, ?_, kept⟩
  rw [Lfsc.inc, holds.refs, raiseRef_eq small]
  exact stored

theorem Holds.dec (holds : Holds cls op flag count data) (positive : 0 < count)
    (small : count ≤ maxRefCount) :
    ∃ object, dec data = some object ∧
      Stands cls op flag (StickyCount.down maxRefCount count) object := by
  have lowered : StickyCount.down maxRefCount count ≤ maxRefCount := by
    rw [StickyCount.down]
    split <;> omega
  rw [Lfsc.dec, holds.refs, lowerRef_eq positive small]
  by_cases last : StickyCount.down maxRefCount count = 0
  · refine ⟨.destroyed, ?_, ?_⟩
    · rw [last]
      rfl
    · rw [last]
      exact .destroyed
  · have remains : BitVec.ofNat 32 (StickyCount.down maxRefCount count) ≠ 0 := by
      intro zero
      have value := congrArg BitVec.toNat zero
      rw [BitVec.toNat_ofNat] at value
      have bound : maxRefCount < 2 ^ 32 := by decide
      rw [Nat.mod_eq_of_lt (by omega)] at value
      exact last value
    obtain ⟨after, stored, kept⟩ := holds.withRefCount lowered
    refine ⟨.live after, ?_, .live (Nat.pos_of_ne_zero last) kept⟩
    rw [Option.bind_eq_bind, Option.bind_some, if_neg remains, stored]
    rfl

end Holds

/-! ## Histories -/

section History

variable {cls : ExprClass} {op : Option Op} {ops : List RefOp} {object : Object}

/-- The object after some operations stands for a count that tracks the references. -/
def Tracked (cls : ExprClass) (op : Option Op) (ops : List RefOp) (object : Object) : Prop :=
  ∃ count, StickyCount.Tracks maxRefCount (outstanding ops) count ∧
    Stands cls op (flagAfter ops) count object

theorem outstanding_concat (ops : List RefOp) (last : RefOp) :
    outstanding (ops ++ [last]) = outstanding ops + last.change := by
  simp [outstanding, add_assoc]

theorem flagAfter_concat (ops : List RefOp) (last : RefOp) :
    flagAfter (ops ++ [last]) = last.flag (flagAfter ops) := by
  simp [flagAfter]

theorem history_concat (ops : List RefOp) (last : RefOp) (object : Object) :
    history (ops ++ [last]) object = history ops object >>= fun middle => middle.step last := by
  simp [history, List.foldlM_append]

/-- Each operation on an object that is referred to keeps the count in step with the references. -/
theorem Tracked.step (tracked : Tracked cls op ops object) (held : 0 < outstanding ops)
    (last : RefOp) :
    ∃ next, object.step last = some next ∧ Tracked cls op (ops ++ [last]) next := by
  obtain ⟨count, tracks, stands⟩ := tracked
  have positive := tracks.pos held (by decide)
  simp only [Tracked, outstanding_concat, flagAfter_concat]
  cases stands with
  | destroyed => exact absurd positive (Nat.lt_irrefl 0)
  | @live _ data _ holds =>
      have unmoved : StickyCount.Tracks maxRefCount (outstanding ops + 0) count := by
        simpa using tracks
      cases last with
      | inc =>
          obtain ⟨after, run, kept⟩ := holds.inc tracks.le
          have more := tracks.up
          have room := more.pos (by omega) (by decide)
          refine ⟨.live after, ?_, _, more, .live room kept⟩
          simp [Object.step, RefOp.apply, run]
      | dec =>
          obtain ⟨after, run, kept⟩ := holds.dec positive tracks.le
          exact ⟨after, run, _, tracks.down held, kept⟩
      | destroydec =>
          obtain ⟨after, run, kept⟩ := holds.dec positive tracks.le
          exact ⟨after, (destroydec_eq_dec data).trans run, _, tracks.down held, kept⟩
      | setcloned => exact ⟨_, rfl, _, unmoved, .live positive holds.setexmark⟩
      | setexmark => exact ⟨_, rfl, _, unmoved, .live positive holds.setexmark⟩
      | clearexmark => exact ⟨_, rfl, _, unmoved, .live positive holds.clearexmark⟩
      | calcFreeIn occurs =>
          exact ⟨_, rfl, _, unmoved, .live positive (holds.assignFreeIn occurs)⟩

theorem Referred.front {last : RefOp} (referred : Referred (ops ++ [last])) :
    Referred ops ∧ 0 < outstanding ops := by
  have proper : ∀ front, front <+: ops → 0 < outstanding front := by
    intro front begins
    refine referred front (begins.trans (List.prefix_append ops [last])) ?_
    rintro rfl
    have shorter := begins.length_le
    simp at shorter
  exact ⟨fun front begins _ => proper front begins, proper ops (List.prefix_refl ops)⟩

theorem tracked_history (cls : ExprClass) (op : Option Op) (referred : Referred ops) :
    ∃ object, history ops (.live (initData cls op)) = some object ∧ Tracked cls op ops object := by
  induction ops using List.reverseRecOn with
  | nil =>
      have one : StickyCount.Tracks maxRefCount (outstanding []) 1 := .inr ⟨by decide, rfl⟩
      exact ⟨_, rfl, 1, one, .live Nat.one_pos (holds_initData cls op)⟩
  | append_singleton ops last hyp =>
      obtain ⟨before, held⟩ := referred.front
      obtain ⟨object, run, tracked⟩ := hyp before
      obtain ⟨next, step, after⟩ := tracked.step held last
      refine ⟨next, ?_, after⟩
      rw [history_concat, run]
      exact step

/-- While an object is referred to it exists, its class and operator stay what they were, its flag
is what the last operation on the flag made it, and no arithmetic on its data word overflows.  If
its count is never full it is destroyed exactly when the last reference is dropped. -/
theorem reference_count_safe (cls : ExprClass) (op : Option Op) (ops : List RefOp)
    (referred : Referred ops) :
    (history ops (.live (initData cls op))).isSome ∧
      (0 < outstanding ops → ∃ data, history ops (.live (initData cls op)) = some (.live data) ∧
        getclass data = BitVec.ofNat 32 cls.code ∧
        getopBits data = BitVec.ofNat 32 (opCode op) ∧
        getexmark data = if flagAfter ops then 256 else 0) ∧
      (NeverFull cls op ops →
        (history ops (.live (initData cls op)) = some .destroyed ↔ outstanding ops = 0)) := by
  obtain ⟨object, run, count, tracks, stands⟩ := tracked_history cls op referred
  rw [run]
  refine ⟨rfl, ?_, ?_⟩
  · intro held
    cases stands with
    | destroyed => exact absurd (tracks.pos held (by decide)) (Nat.lt_irrefl 0)
    | @live _ data _ holds =>
        exact ⟨data, rfl, holds.getclass, holds.getopBits, holds.mark⟩
  · intro free
    have below : count ≠ maxRefCount := by
      rintro rfl
      cases stands with
      | live _ holds => exact free ops _ (List.prefix_refl ops) run holds.refs
    rw [← tracks.eq_zero_iff below]
    cases stands with
    | destroyed => simp
    | live positive _ => simp [positive.ne']

theorem reference_count_safe_dropped :
    (∃ data, history [.inc, .setcloned, .dec] (.live (initData .cexpr (some .app))) =
      some (.live data) ∧ getexmark data = 256) ∧
    history [.inc, .setcloned, .dec, .destroydec] (.live (initData .cexpr (some .app))) =
      some .destroyed := by
  have referred : ∀ ops : List RefOp, (∀ front ∈ ops.inits, front ≠ ops → 0 < outstanding front) →
      Referred ops := fun ops held front begins => held front ((List.mem_inits front ops).mpr begins)
  constructor
  · obtain ⟨-, held, -⟩ := reference_count_safe .cexpr (some .app) [.inc, .setcloned, .dec]
      (referred _ (by decide))
    obtain ⟨data, run, -, -, mark⟩ := held (by decide)
    exact ⟨data, run, mark⟩
  · obtain ⟨-, -, dropped⟩ := reference_count_safe .cexpr (some .app)
      [.inc, .setcloned, .dec, .destroydec] (referred _ (by decide))
    refine (dropped ?_).mpr (by decide)
    intro front data begins run
    rw [← List.mem_inits] at begins
    simp only [List.inits, List.map_cons, List.map_nil, List.mem_cons, List.not_mem_nil,
      or_false] at begins
    rcases begins with rfl | rfl | rfl | rfl | rfl <;> cases run <;> decide

/-! ## Objects of the store -/

theorem code_eq_ctorIdx (op : Op) : op.code = op.ctorIdx + 1 := by cases op <;> rfl

/-- Operators are told apart by their numbers. -/
theorem opCode_injective : Function.Injective opCode := by
  intro left right same
  cases left with
  | none =>
      cases right with
      | none => rfl
      | some right => simp [opCode, code_eq_ctorIdx] at same
  | some left =>
      cases right with
      | none => simp [opCode, code_eq_ctorIdx] at same
      | some right =>
          have equal : left.ctorIdx = right.ctorIdx := by
            simpa [opCode, code_eq_ctorIdx] using same
          rw [← Op.ofNat_ctorIdx left, equal, Op.ofNat_ctorIdx]

/-- The flag of an object. -/
def Node.flag : Node → Bool
  | .cexpr _ _ flag => flag
  | _ => false

/-- A data word carries what the store keeps of it. -/
structure Carries (data : Word) (node : Node) : Prop where
  cls : getclass data = BitVec.ofNat 32 node.exprClass.code
  op : getopBits data = BitVec.ofNat 32 (opCode node.op?)
  flag : ∀ op kids flag, node = .cexpr op kids flag → getexmark data = if flag then 256 else 0

theorem Holds.carries {data : Word} {count : Nat} (node : Node)
    (holds : Holds node.exprClass node.op? node.flag count data) : Carries data node := by
  refine ⟨holds.getclass, holds.getopBits, ?_⟩
  rintro op kids flag rfl
  exact holds.mark

/-- The word of a `CExpr` that is referred to carries the object with the flag as it was set. -/
theorem carries_history {op : Op} {kids : List Ref} {ops : List RefOp} (referred : Referred ops)
    (held : 0 < outstanding ops) :
    ∃ data, history ops (.live (initData .cexpr (some op))) = some (.live data) ∧
      Carries data (.cexpr op kids (flagAfter ops)) := by
  obtain ⟨object, run, count, tracks, stands⟩ :=
    tracked_history .cexpr (some op) referred
  cases stands with
  | destroyed => exact absurd (tracks.pos held (by decide)) (Nat.lt_irrefl 0)
  | @live _ data _ holds => exact ⟨data, run, Holds.carries (.cexpr op kids _) holds⟩

end History

end Lfsc
