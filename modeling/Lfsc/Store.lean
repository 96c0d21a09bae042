import Mathlib.Data.Rat.Defs
import Lfsc.Exec.Basic

/-!
# The expression store

Expressions are C++ objects reached through pointers: `val` fields of symbols and holes, children
and flag bits are assigned in place, and the same object may be reached along several paths.  The
store is therefore a list of cells and an address is an index into it.  Cells are never freed:
reference counts only decide when an object is reclaimed, and which of two equal children `defeq`
keeps, so the outcome of each comparison of two counts is read from an arbitrary stream.
-/

namespace Lfsc

/-- The address of an `Expr` object. -/
abbrev Ref := Nat

/-- Operators of a `CExpr`; leaves have the operator `NOT_CEXPR`, here the absence of one. -/
inductive Op
  | app | pi | lam | type | kind | ascribe | mpz | mpq
  | prog | progvars | match_ | case_ | pat | do_ | add | mul | div | neg | ifneg | ifzero
  | mpzToMpq | let_ | run | fail | markvar | ifmarked | compare | ifequal
  deriving DecidableEq, Repr

/-- An expression object.  Every symbol is a `SymSExpr` of class `SYMS_EXPR`, since symbol names
are compiled in (`DEBUG_SYM_NAMES`). -/
inductive Node
  /-- A `CExpr`: operator, null-terminated children, and the flag bit 8. -/
  | cexpr (op : Op) (kids : List Ref) (flag : Bool)
  /-- An `IntExpr`. -/
  | int (value : Int)
  /-- A `RatExpr`, canonical from its constructor on. -/
  | rat (value : Rat)
  /-- A `SymSExpr` with its name and `val`. -/
  | sym (name : String) (val : Option Ref)
  /-- A `HoleExpr` with its `val`. -/
  | hole (val : Option Ref)
  deriving DecidableEq, Repr

/-- A null-terminated array of children ends at its first null pointer. -/
def kidsOf : List (Option Ref) → List Ref
  | some kid :: rest => kid :: kidsOf rest
  | _ => []

/-- A pair stored in the symbol table: the symbol (or its null pointer) and its type. -/
structure Binding where
  /-- The expression bound to the identifier. -/
  expr : Option Ref
  /-- Its type. -/
  type : Option Ref
  deriving DecidableEq, Repr

/-- The pair of null pointers, `Data()` of the symbol table. -/
def Binding.none : Binding := ⟨Option.none, Option.none⟩

/-- The ways a run of the checker ends without returning. -/
inductive Stop
  /-- `report_error`, which prints the message and exits. -/
  | report (message : String)
  /-- `std::abort`. -/
  | abort
  /-- Undefined behaviour: a null pointer or an object of the wrong class is read. -/
  | undefined
  /-- The recursion depth given to the model is used up. -/
  | fuel
  deriving DecidableEq, Repr

/-- The state that operations on expressions work on. -/
structure Store where
  /-- The objects allocated so far; an address is an index. -/
  heap : List Node
  /-- The order of addresses in memory, read by `compare`. -/
  before : Ref → Ref → Bool
  /-- Whether the n-th comparison of two reference counts finds the first one smaller. -/
  fewer : Nat → Bool
  /-- How many reference counts were compared so far. -/
  asked : Nat

/-- Computations on the store. -/
abbrev StoreM (α : Type) : Type := Exec Store Stop α

/-! ## Reading a heap -/

/-- The `val` of a symbol or hole. -/
def valOf (heap : List Node) (r : Ref) : Option Ref :=
  match heap[r]? with
  | some (.sym _ val) => val
  | some (.hole val) => val
  | _ => none

/-- `getop`, with `none` for `NOT_CEXPR`. -/
def opOf (heap : List Node) (r : Ref) : Option Op :=
  match heap[r]? with
  | some (.cexpr op _ _) => some op
  | _ => none

/-- The children of a `CExpr`. -/
def kidsAt (heap : List Node) (r : Ref) : List Ref :=
  match heap[r]? with
  | some (.cexpr _ kids _) => kids
  | _ => []

/-- Follow at most `steps` links of `val` pointers. -/
def followFor (heap : List Node) : Nat → Ref → Option Ref
  | steps, r =>
      match valOf heap r with
      | none => some r
      | some next =>
          match steps with
          | 0 => none
          | steps + 1 => followFor heap steps next

/-- `Expr::followDefs`.  A chain of `val` pointers that does not close into a cycle has at most as
many links as there are objects; on a cycle the function does not return. -/
def followDefs (heap : List Node) (r : Ref) : Option Ref := followFor heap heap.length r

theorem valOf_append {heap extra : List Node} {r : Ref} (allocated : r < heap.length) :
    valOf (heap ++ extra) r = valOf heap r := by
  simp [valOf, List.getElem?_append_left allocated]

theorem opOf_append {heap extra : List Node} {r : Ref} (allocated : r < heap.length) :
    opOf (heap ++ extra) r = opOf heap r := by
  simp [opOf, List.getElem?_append_left allocated]

theorem lt_length_of_valOf {heap : List Node} {r next : Ref} (linked : valOf heap r = some next) :
    r < heap.length := by
  by_contra outside
  simp [valOf, List.getElem?_eq_none (Nat.not_lt.mp outside)] at linked

theorem lt_length_of_opOf {heap : List Node} {r : Ref} {op : Op} (found : opOf heap r = some op) :
    r < heap.length := by
  by_contra outside
  simp [opOf, List.getElem?_eq_none (Nat.not_lt.mp outside)] at found

theorem followFor_mono {heap : List Node} {steps more : Nat} (le : steps ≤ more) {r last : Ref}
    (followed : followFor heap steps r = some last) : followFor heap more r = some last := by
  induction steps generalizing more r with
  | zero =>
      unfold followFor at followed ⊢
      cases link : valOf heap r with
      | none => simpa [link] using followed
      | some next => simp [link] at followed
  | succ steps hyp =>
      obtain ⟨more, rfl⟩ := Nat.exists_eq_add_of_le' (Nat.le_trans (Nat.le_add_left 1 steps) le)
      unfold followFor at followed ⊢
      cases link : valOf heap r with
      | none => simpa [link] using followed
      | some next =>
          simp only [link] at followed ⊢
          exact hyp (by omega) followed

/-- Allocation does not change what an expression is defined as. -/
theorem followDefs_append {heap extra : List Node} {r last : Ref}
    (followed : followDefs heap r = some last) (allocated : last < heap.length) :
    followDefs (heap ++ extra) r = some last := by
  have extended : ∀ steps r, followFor heap steps r = some last →
      followFor (heap ++ extra) steps r = some last := by
    intro steps
    induction steps with
    | zero =>
        intro r stop
        unfold followFor at stop ⊢
        cases link : valOf heap r with
        | none =>
            obtain rfl : r = last := by simpa [link] using stop
            simp [valOf_append allocated, link]
        | some next => simp [link] at stop
    | succ steps hyp =>
        intro r stop
        unfold followFor at stop ⊢
        cases link : valOf heap r with
        | none =>
            obtain rfl : r = last := by simpa [link] using stop
            simp [valOf_append allocated, link]
        | some next =>
            simp only [link] at stop
            simp only [valOf_append (lt_length_of_valOf link), link]
            exact hyp next stop
  unfold followDefs at followed ⊢
  exact followFor_mono (by simp) (extended _ _ followed)

/-! ## Primitive operations -/

/-- Stop with an error message. -/
def report {σ α : Type} (message : String) : Exec σ Stop α := Exec.stop (.report message)

/-- Dereference a pointer that may be null. -/
def deref {σ α : Type} : Option α → Exec σ Stop α
  | some value => pure value
  | none => Exec.stop .undefined

/-- Stop because the recursion depth is used up. -/
def outOfFuel {σ α : Type} : Exec σ Stop α := Exec.stop .fuel

/-- The current heap. -/
def getHeap : StoreM (List Node) := do return (← get).heap

/-- Overwrite the heap. -/
def setHeap (heap : List Node) : StoreM Unit := modify fun store => { store with heap }

/-- Read an object. -/
def load (r : Ref) : StoreM Node := do deref (← getHeap)[r]?

/-- Allocate an object. -/
def new (node : Node) : StoreM Ref := do
  let heap ← getHeap
  setHeap (heap ++ [node])
  return heap.length

/-- Overwrite an object. -/
def put (r : Ref) (node : Node) : StoreM Unit := do setHeap ((← getHeap).set r node)

/-- Allocate a `CExpr` over children that may be null. -/
def newCExpr (op : Op) (kids : List (Option Ref)) : StoreM Ref :=
  new (.cexpr op (kidsOf kids) false)

/-- Allocate a symbol without a value. -/
def newSym (name : String) : StoreM Ref := new (.sym name none)

/-- `getop`. -/
def getop (r : Ref) : StoreM (Option Op) := do
  match ← load r with
  | .cexpr op _ _ => return some op
  | _ => return none

/-- The child at an index of a `CExpr`, if there is one. -/
def kid? (r : Ref) (index : Nat) : StoreM (Option Ref) := do
  match ← load r with
  | .cexpr _ kids _ => return kids[index]?
  | _ => Exec.stop .undefined

/-- The child at an index of a `CExpr`. -/
def kid (r : Ref) (index : Nat) : StoreM Ref := do deref (← kid? r index)

/-- Overwrite a child of a `CExpr`. -/
def setKid (r : Ref) (index : Nat) (value : Ref) : StoreM Unit := do
  match ← load r with
  | .cexpr op kids flag => put r (.cexpr op (kids.set index value) flag)
  | _ => Exec.stop .undefined

/-- The flag bit: `cloned`, `get_free_in` and `getexmark` of a `CExpr`.  The flag of a leaf is never
read to any effect. -/
def getFlag (r : Ref) : StoreM Bool := do
  match ← load r with
  | .cexpr _ _ flag => return flag
  | _ => return false

/-- Assign the flag bit. -/
def setFlag (r : Ref) (flag : Bool) : StoreM Unit := do
  match ← load r with
  | .cexpr op kids _ => put r (.cexpr op kids flag)
  | _ => return ()

/-- The name of a symbol. -/
def symName (r : Ref) : StoreM String := do
  match ← load r with
  | .sym name _ => return name
  | _ => Exec.stop .undefined

/-- The `val` of a symbol. -/
def symVal (r : Ref) : StoreM (Option Ref) := do
  match ← load r with
  | .sym _ val => return val
  | _ => Exec.stop .undefined

/-- Assign the `val` of a symbol. -/
def setSymVal (r : Ref) (val : Option Ref) : StoreM Unit := do
  match ← load r with
  | .sym name _ => put r (.sym name val)
  | _ => Exec.stop .undefined

/-- Fill a hole. -/
def setHoleVal (r : Ref) (val : Ref) : StoreM Unit := do
  match ← load r with
  | .hole _ => put r (.hole (some val))
  | _ => Exec.stop .undefined

/-- `followDefs` on the current heap; it diverges on a cycle. -/
def follow (r : Ref) : StoreM Ref := do
  match followDefs (← getHeap) r with
  | some last => return last
  | none => outOfFuel

/-- Compare two reference counts. -/
def hasFewerRefs : StoreM Bool := do
  let store ← get
  set { store with asked := store.asked + 1 }
  return store.fewer store.asked

/-! ## Returning runs -/

open Exec

theorem run_deref_ok {σ α : Type} {pointer : Option α} {value : α} {before after : σ} :
    (deref pointer : Exec σ Stop α).run before = .ok (value, after) ↔
      pointer = some value ∧ before = after := by
  cases pointer with
  | none => simp [deref, run_stop_ok]
  | some inner => simp [deref]

theorem run_report_bind_ok {σ α β : Type} {message : String} {k : α → Exec σ Stop β} {value : β}
    {before after : σ} :
    (report message >>= k).run before = .ok (value, after) ↔ False := by
  rw [run_bind_ok]
  simp only [report, run_stop_ok, false_and, exists_false]

theorem run_getHeap_ok {before after : Store} {heap : List Node} :
    getHeap.run before = .ok (heap, after) ↔ before.heap = heap ∧ before = after := by
  change (Except.ok (before.heap, before) : Except Stop (List Node × Store)) = .ok (heap, after) ↔ _
  simp

theorem run_load_ok {r : Ref} {node : Node} {before after : Store} :
    (load r).run before = .ok (node, after) ↔ before.heap[r]? = some node ∧ before = after := by
  unfold load
  rw [run_bind_ok]
  simp only [run_getHeap_ok, run_deref_ok]
  constructor
  · rintro ⟨_, _, ⟨rfl, rfl⟩, found, rfl⟩
    exact ⟨found, rfl⟩
  · rintro ⟨found, rfl⟩
    exact ⟨_, _, ⟨rfl, rfl⟩, found, rfl⟩

theorem run_follow_ok {r last : Ref} {before after : Store} :
    (follow r).run before = .ok (last, after) ↔
      followDefs before.heap r = some last ∧ before = after := by
  unfold follow
  rw [run_bind_ok]
  simp only [run_getHeap_ok]
  constructor
  · rintro ⟨_, _, ⟨rfl, rfl⟩, rest⟩
    cases found : followDefs before.heap r with
    | none => simp [found, outOfFuel, run_stop_ok] at rest
    | some value => simpa [found] using rest
  · rintro ⟨found, rfl⟩
    refine ⟨_, _, ⟨rfl, rfl⟩, ?_⟩
    simp [found]

theorem run_getop_ok {r : Ref} {op : Option Op} {before after : Store} :
    (getop r).run before = .ok (op, after) ↔
      r < before.heap.length ∧ opOf before.heap r = op ∧ before = after := by
  unfold getop
  rw [run_bind_ok]
  simp only [run_load_ok]
  constructor
  · rintro ⟨_, node, ⟨found, rfl⟩, rest⟩
    have bound : r < before.heap.length := by
      obtain ⟨bound, -⟩ := List.getElem?_eq_some_iff.mp found
      exact bound
    refine ⟨bound, ?_⟩
    cases node <;> simpa [opOf, found] using rest
  · rintro ⟨bound, rfl, rfl⟩
    refine ⟨_, _, ⟨List.getElem?_eq_getElem bound, rfl⟩, ?_⟩
    unfold opOf
    rw [List.getElem?_eq_getElem bound]
    cases before.heap[r] <;> simp

theorem keeps_load {r : Ref} : Keeps Eq (load r) := by
  intro before node after run
  exact (run_load_ok.mp run).2

theorem run_new_ok {node : Node} {r : Ref} {before after : Store} :
    (new node).run before = .ok (r, after) ↔
      before.heap.length = r ∧ { before with heap := before.heap ++ [node] } = after := by
  change (Except.ok _ : Except Stop (Ref × Store)) = .ok (r, after) ↔ _
  simp

theorem run_kid?_ok {r : Ref} {index : Nat} {found : Option Ref} {before after : Store} :
    (kid? r index).run before = .ok (found, after) ↔
      (∃ op kids flag, before.heap[r]? = some (.cexpr op kids flag) ∧ kids[index]? = found) ∧
        before = after := by
  unfold kid?
  rw [run_bind_ok]
  simp only [run_load_ok]
  constructor
  · rintro ⟨_, node, ⟨loaded, rfl⟩, rest⟩
    cases node with
    | cexpr op kids flag =>
        obtain ⟨rfl, rfl⟩ := run_pure_ok.mp rest
        exact ⟨⟨op, kids, flag, loaded, rfl⟩, rfl⟩
    | _ => exact (run_stop_ok.mp rest).elim
  · rintro ⟨⟨op, kids, flag, loaded, rfl⟩, rfl⟩
    exact ⟨_, _, ⟨loaded, rfl⟩, run_pure_ok.mpr ⟨rfl, rfl⟩⟩

theorem run_kid_ok {r child : Ref} {index : Nat} {before after : Store} :
    (kid r index).run before = .ok (child, after) ↔
      (∃ op kids flag, before.heap[r]? = some (.cexpr op kids flag) ∧ kids[index]? = some child) ∧
        before = after := by
  unfold kid
  rw [run_bind_ok]
  simp only [run_kid?_ok, run_deref_ok]
  constructor
  · rintro ⟨_, _, ⟨⟨op, kids, flag, loaded, rfl⟩, rfl⟩, found, rfl⟩
    exact ⟨⟨op, kids, flag, loaded, found⟩, rfl⟩
  · rintro ⟨⟨op, kids, flag, loaded, found⟩, rfl⟩
    exact ⟨_, _, ⟨⟨op, kids, flag, loaded, found⟩, rfl⟩, rfl, rfl⟩

theorem run_put_ok {r : Ref} {node : Node} {value : Unit} {before after : Store} :
    (put r node).run before = .ok (value, after) ↔
      { before with heap := before.heap.set r node } = after := by
  change (Except.ok _ : Except Stop (Unit × Store)) = .ok (value, after) ↔ _
  simp

theorem run_symName_ok {r : Ref} {name : String} {before after : Store} :
    (symName r).run before = .ok (name, after) ↔
      (∃ val, before.heap[r]? = some (.sym name val)) ∧ before = after := by
  rw [symName, run_bind_ok]
  simp only [run_load_ok]
  constructor
  · rintro ⟨_, node, ⟨loaded, rfl⟩, rest⟩
    cases node with
    | sym text val =>
        obtain ⟨rfl, rfl⟩ := run_pure_ok.mp rest
        exact ⟨⟨val, loaded⟩, rfl⟩
    | _ => exact (run_stop_ok.mp rest).elim
  · rintro ⟨⟨val, loaded⟩, rfl⟩
    exact ⟨_, _, ⟨loaded, rfl⟩, run_pure_ok.mpr ⟨rfl, rfl⟩⟩

theorem run_symVal_ok {r : Ref} {val : Option Ref} {before after : Store} :
    (symVal r).run before = .ok (val, after) ↔
      (∃ text, before.heap[r]? = some (.sym text val)) ∧ before = after := by
  rw [symVal, run_bind_ok]
  simp only [run_load_ok]
  constructor
  · rintro ⟨_, node, ⟨loaded, rfl⟩, rest⟩
    cases node with
    | sym text val' =>
        obtain ⟨rfl, rfl⟩ := run_pure_ok.mp rest
        exact ⟨⟨text, loaded⟩, rfl⟩
    | _ => exact (run_stop_ok.mp rest).elim
  · rintro ⟨⟨text, loaded⟩, rfl⟩
    exact ⟨_, _, ⟨loaded, rfl⟩, run_pure_ok.mpr ⟨rfl, rfl⟩⟩

theorem run_setSymVal_ok {r : Ref} {val : Option Ref} {result : Unit} {before after : Store} :
    (setSymVal r val).run before = .ok (result, after) ↔
      ∃ text old, before.heap[r]? = some (.sym text old) ∧
        { before with heap := before.heap.set r (.sym text val) } = after := by
  rw [setSymVal, run_bind_ok]
  simp only [run_load_ok]
  constructor
  · rintro ⟨_, node, ⟨loaded, rfl⟩, rest⟩
    cases node with
    | sym text old => exact ⟨text, old, loaded, run_put_ok.mp rest⟩
    | _ => exact (run_stop_ok.mp rest).elim
  · rintro ⟨text, old, loaded, rfl⟩
    exact ⟨_, _, ⟨loaded, rfl⟩, run_put_ok.mpr rfl⟩

theorem run_setFlag_cexpr {r : Ref} {op : Op} {kids : List Ref} {old flag : Bool} {before : Store}
    (loaded : before.heap[r]? = some (.cexpr op kids old)) :
    (setFlag r flag).run before =
      .ok ((), { before with heap := before.heap.set r (.cexpr op kids flag) }) := by
  have read : (load r).run before = .ok (.cexpr op kids old, before) :=
    run_load_ok.mpr ⟨loaded, rfl⟩
  rw [setFlag, StateT.run_bind, read]
  rfl

end Lfsc
