import Mathlib.Logic.Relation
import Lfsc.Expr

/-!
# Assignments to the expression store

Every operation on expressions changes the store by a sequence of assignments of few kinds.  In
particular none of them creates a hole, and a hole is assigned only while it is unfilled.
-/

namespace Lfsc

open Exec

/-! ## The assignments -/

/-- What may be stored in place of an object. -/
inductive Overwrites : Node → Node → Prop
  /-- The flag of a `CExpr` and its first child, or any child of an application. -/
  | cexpr (op : Op) (kids kids' : List Ref) (flag flag' : Bool)
      (fixed : op ≠ .app → kids'.drop 1 = kids.drop 1) :
      Overwrites (.cexpr op kids flag) (.cexpr op kids' flag')
  /-- The value of a symbol. -/
  | sym (name : String) (val val' : Option Ref) : Overwrites (.sym name val) (.sym name val')
  /-- The value of an unfilled hole. -/
  | hole (val : Ref) : Overwrites (.hole none) (.hole (some val))
  /-- A negated integer. -/
  | int (value : Int) : Overwrites (.int value) (.int (-value))
  /-- A negated rational. -/
  | rat (value : Rat) : Overwrites (.rat value) (.rat (-value))

/-- One assignment to the store. -/
inductive Write : Store → Store → Prop
  /-- An object that is no hole is allocated. -/
  | new {store : Store} {node : Node} (solid : ∀ val, node ≠ .hole val) :
      Write store { store with heap := store.heap ++ [node] }
  /-- An object is overwritten. -/
  | put {store : Store} {r : Ref} {old node : Node} (loaded : store.heap[r]? = some old)
      (overwrites : Overwrites old node) : Write store { store with heap := store.heap.set r node }
  /-- Two reference counts are compared. -/
  | ask {store : Store} : Write store { store with asked := store.asked + 1 }

/-- A sequence of assignments. -/
def Writes : Store → Store → Prop := Relation.ReflTransGen Write

instance : Std.Refl Writes := ⟨fun _ => .refl⟩

instance : IsTrans Store Writes := ⟨fun _ _ _ => Relation.ReflTransGen.trans⟩

theorem Write.writes {before after : Store} (write : Write before after) : Writes before after :=
  .single write

/-- Every hole has the value that it had. -/
def KeepsHoles (before after : Store) : Prop :=
  ∀ (r : Ref) (val : Option Ref), before.heap[r]? = some (.hole val) →
    after.heap[r]? = some (.hole val)

instance : Std.Refl KeepsHoles := ⟨fun _ _ _ found => found⟩

instance : IsTrans Store KeepsHoles := ⟨fun _ _ _ first second r val found =>
  second r val (first r val found)⟩

/-- A frame relation that allows every assignment, but for the value of a hole. -/
class AllowsWrites (frame : Store → Store → Prop) : Prop extends Std.Refl frame,
    IsTrans Store frame where
  write {before after : Store} : Write before after → KeepsHoles before after → frame before after

instance : AllowsWrites Writes := ⟨fun write _ => write.writes⟩

instance : AllowsWrites KeepsHoles := ⟨fun _ kept => kept⟩

section Allowed

variable {frame : Store → Store → Prop} [AllowsWrites frame]

theorem keeps_writes_of_eq {α : Type} {m : StoreM α} (kept : Keeps Eq m) : Keeps frame m :=
  kept.mono fun before _ same => same ▸ Std.Refl.refl before

/-! ## Primitive operations -/

@[simp]
theorem keeps_writes_pure {α : Type} (value : α) : Keeps frame (pure value : StoreM α) :=
  keeps_pure value

omit [AllowsWrites frame] in
@[simp]
theorem keeps_writes_stop {α : Type} (why : Stop) : Keeps frame (Exec.stop why : StoreM α) :=
  keeps_stop why

omit [AllowsWrites frame] in
@[simp]
theorem keeps_writes_report {α : Type} (message : String) :
    Keeps frame (report message : StoreM α) := keeps_stop _

omit [AllowsWrites frame] in
@[simp]
theorem keeps_writes_outOfFuel {α : Type} : Keeps frame (outOfFuel : StoreM α) := keeps_stop _

@[simp]
theorem keeps_writes_deref {α : Type} (pointer : Option α) :
    Keeps frame (deref pointer : StoreM α) := by
  cases pointer with
  | none => exact keeps_stop _
  | some value => exact keeps_pure value

@[simp]
theorem keeps_writes_get : Keeps frame (get : StoreM Store) := by
  intro before value after run
  obtain ⟨rfl, rfl⟩ : before = value ∧ before = after := by simpa using run
  exact Std.Refl.refl before

@[simp]
theorem keeps_writes_getHeap : Keeps frame getHeap :=
  keeps_bind keeps_writes_get fun _ => keeps_pure _

@[simp]
theorem keeps_writes_load (r : Ref) : Keeps frame (load r) := keeps_writes_of_eq keeps_load

omit [AllowsWrites frame] in
/-- What follows the reading of an object may use what was read. -/
theorem keeps_writes_load_bind {α : Type} {r : Ref} {k : Node → StoreM α}
    (rest : ∀ before node value after, before.heap[r]? = some node →
      (k node).run before = .ok (value, after) → frame before after) :
    Keeps frame (load r >>= k) := by
  intro before value after run
  obtain ⟨_, node, read, restRun⟩ := run_bind_ok.mp run
  obtain ⟨found, rfl⟩ := run_load_ok.mp read
  exact rest _ _ _ _ found restRun

theorem keeps_writes_new {node : Node} (solid : ∀ val, node ≠ .hole val) :
    Keeps frame (new node) := by
  intro before r after run
  obtain ⟨-, rfl⟩ := run_new_ok.mp run
  refine AllowsWrites.write (Write.new solid) fun hole val found => ?_
  exact (List.getElem?_append_left (List.getElem?_eq_some_iff.mp found).1).trans found

@[simp]
theorem keeps_writes_newCExpr (op : Op) (kids : List (Option Ref)) :
    Keeps frame (newCExpr op kids) := keeps_writes_new (by simp)

@[simp]
theorem keeps_writes_newSym (name : String) : Keeps frame (newSym name) :=
  keeps_writes_new (by simp)

/-- An object other than a hole is overwritten. -/
theorem writes_put {r : Ref} {old node : Node} {value : Unit} {before after : Store}
    (loaded : before.heap[r]? = some old) (overwrites : Overwrites old node)
    (solid : ∀ val, old ≠ .hole val) (run : (put r node).run before = .ok (value, after)) :
    frame before after := by
  obtain rfl := run_put_ok.mp run
  refine AllowsWrites.write (Write.put loaded overwrites) fun hole val found => ?_
  by_cases same : r = hole
  · subst same
    exact (solid val (Option.some.inj (loaded.symm.trans found))).elim
  · rwa [List.getElem?_set_ne same]

@[simp]
theorem keeps_writes_getop (r : Ref) : Keeps frame (getop r) := by
  rw [getop]
  refine keeps_bind (keeps_writes_load r) fun node => ?_
  split <;> simp

@[simp]
theorem keeps_writes_kid? (r : Ref) (index : Nat) : Keeps frame (kid? r index) := by
  rw [kid?]
  refine keeps_bind (keeps_writes_load r) fun node => ?_
  split <;> simp

@[simp]
theorem keeps_writes_kid (r : Ref) (index : Nat) : Keeps frame (kid r index) :=
  keeps_bind (keeps_writes_kid? r index) keeps_writes_deref

theorem opOf_of_load {heap : List Node} {r : Ref} {op : Op} {kids : List Ref} {flag : Bool}
    (found : heap[r]? = some (.cexpr op kids flag)) : opOf heap r = some op := by
  simp [opOf, found]

/-- Assigning a child of an application, or the variable of an abstraction. -/
theorem writes_setKid {r value : Ref} {index : Nat} {result : Unit} {before after : Store}
    (assignable : index = 0 ∨ opOf before.heap r = some .app)
    (run : (setKid r index value).run before = .ok (result, after)) : frame before after := by
  rw [setKid] at run
  obtain ⟨_, node, read, rest⟩ := run_bind_ok.mp run
  obtain ⟨found, rfl⟩ := run_load_ok.mp read
  cases node with
  | cexpr op kids flag =>
      refine writes_put found (.cexpr op kids _ flag flag fun other => ?_) (by simp) rest
      rcases assignable with rfl | app
      · cases kids <;> rfl
      · rw [opOf_of_load found] at app
        exact (other (Option.some.inj app)).elim
  | _ => exact (run_stop_ok.mp rest).elim

@[simp]
theorem keeps_writes_setKid_zero (r value : Ref) : Keeps frame (setKid r 0 value) :=
  fun _ _ _ run => writes_setKid (.inl rfl) run

@[simp]
theorem keeps_writes_getFlag (r : Ref) : Keeps frame (getFlag r) := by
  rw [getFlag]
  refine keeps_bind (keeps_writes_load r) fun node => ?_
  split <;> simp

@[simp]
theorem keeps_writes_setFlag (r : Ref) (flag : Bool) : Keeps frame (setFlag r flag) := by
  rw [setFlag]
  refine keeps_writes_load_bind fun before node result after found run => ?_
  cases node with
  | cexpr op kids old =>
      exact writes_put found (.cexpr op kids kids old flag fun _ => rfl) (by simp) run
  | _ => exact keeps_writes_pure () before result after run

@[simp]
theorem keeps_writes_symName (r : Ref) : Keeps frame (symName r) := by
  rw [symName]
  refine keeps_bind (keeps_writes_load r) fun node => ?_
  split <;> simp

@[simp]
theorem keeps_writes_symVal (r : Ref) : Keeps frame (symVal r) := by
  rw [symVal]
  refine keeps_bind (keeps_writes_load r) fun node => ?_
  split <;> simp

@[simp]
theorem keeps_writes_setSymVal (r : Ref) (val : Option Ref) :
    Keeps frame (setSymVal r val) := by
  rw [setSymVal]
  refine keeps_writes_load_bind fun before node result after found run => ?_
  cases node with
  | sym name old => exact writes_put found (.sym name old val) (by simp) run
  | _ => exact (run_stop_ok.mp run).elim

/-- Filling a hole that is unfilled. -/
theorem writes_setHoleVal {hole value : Ref} {result : Unit} {before after : Store}
    (unfilled : valOf before.heap hole = none)
    (run : (setHoleVal hole value).run before = .ok (result, after)) : Writes before after := by
  rw [setHoleVal] at run
  obtain ⟨_, node, read, rest⟩ := run_bind_ok.mp run
  obtain ⟨found, rfl⟩ := run_load_ok.mp read
  cases node with
  | hole old =>
      obtain rfl : old = none := by simpa [valOf, found] using unfilled
      obtain rfl := run_put_ok.mp rest
      exact (Write.put found (.hole value)).writes
  | _ => exact (run_stop_ok.mp rest).elim

@[simp]
theorem keeps_writes_follow (r : Ref) : Keeps frame (follow r) := by
  refine keeps_bind keeps_writes_getHeap fun heap => ?_
  split <;> simp

@[simp]
theorem keeps_writes_hasFewerRefs : Keeps frame hasFewerRefs := by
  intro before value after run
  have asked : { before with asked := before.asked + 1 } = after := by
    simp only [hasFewerRefs, run_bind_ok] at run
    obtain ⟨_, store, read, _, _, write, done⟩ := run
    obtain ⟨rfl, rfl⟩ : before = store ∧ before = _ := by simpa using read
    obtain ⟨-, rfl⟩ := run_pure_ok.mp done
    simpa using write
  exact asked ▸ AllowsWrites.write Write.ask fun _ _ found => found

/-! ## Expressions -/

@[simp]
theorem keeps_writes_collectArgs (r : Ref) (followed : Bool) :
    Keeps frame (collectArgs r followed) := by
  rw [collectArgs]
  repeat' first
    | with_reducible refine keeps_bind ?_ fun _ => ?_
    | split
    | simp

@[simp]
theorem keeps_writes_headWithin (followed : Bool) (steps : Nat) (r : Ref) :
    Keeps frame (headWithin followed steps r) := by
  induction steps generalizing r with
  | zero =>
      rw [headWithin_eq]
      refine keeps_bind (keeps_writes_getop r) fun op => keeps_ite ?_ (keeps_pure r)
      refine keeps_bind (keeps_writes_kid r 0) fun first => keeps_ite ?_ ?_
      · exact keeps_bind (keeps_writes_follow first) fun _ => keeps_stop _
      · exact keeps_bind (keeps_pure first) fun _ => keeps_stop _
  | succ steps hyp =>
      rw [headWithin_eq]
      refine keeps_bind (keeps_writes_getop r) fun op => keeps_ite ?_ (keeps_pure r)
      refine keeps_bind (keeps_writes_kid r 0) fun first => keeps_ite ?_ ?_
      · exact keeps_bind (keeps_writes_follow first) hyp
      · exact keeps_bind (keeps_pure first) hyp

@[simp]
theorem keeps_writes_getHead (r : Ref) (followed : Bool) : Keeps frame (getHead r followed) :=
  keeps_bind keeps_writes_getHeap fun _ => keeps_writes_headWithin _ _ _

@[simp]
theorem keeps_writes_buildApp (head : Ref) (args : List Ref) :
    Keeps frame (buildApp head args) := by
  cases args with
  | nil => exact keeps_pure head
  | cons arg rest => exact keeps_writes_new (by simp)

@[simp]
theorem keeps_writes_makeApp (head : Ref) (arg : Option Ref) :
    Keeps frame (makeApp head arg) := by
  rw [makeApp]
  refine keeps_bind (keeps_writes_load head) fun node => ?_
  split <;> simp

theorem keeps_writes_cloneUnder {self : Ref → StoreM Ref} (kept : ∀ r, Keeps frame (self r))
    (var newvar body : Ref) : Keeps frame (cloneUnder self var newvar body) := by
  rw [cloneUnder]
  repeat' first
    | with_reducible refine keeps_bind ?_ fun _ => ?_
    | simp [kept]

@[simp]
theorem keeps_writes_clone (fuel : Nat) (r : Ref) : Keeps frame (clone fuel r) := by
  induction fuel generalizing r with
  | zero => exact keeps_stop _
  | succ fuel hyp =>
      rw [clone]
      refine keeps_bind (keeps_writes_load r) fun node => ?_
      have copies : ∀ kids : List Ref, Keeps frame (kids.mapM (clone fuel)) := keeps_mapM hyp
      split
      all_goals
        repeat' first
          | with_reducible refine keeps_bind ?_ fun _ => ?_
          | split
          | exact keeps_writes_cloneUnder hyp _ _ _
          | exact keeps_writes_new (by simp)
          | simp [hyp, copies]

@[simp]
theorem keeps_writes_assignBinders (head : Ref) (args : List Ref) :
    Keeps frame (assignBinders head args) := by
  induction args generalizing head with
  | nil => exact keeps_stop _
  | cons arg rest hyp =>
      rw [assignBinders]
      repeat' first
        | with_reducible refine keeps_bind ?_ fun _ => ?_
        | split
        | simp [hyp]

@[simp]
theorem keeps_writes_whr (fuel : Nat) (r : Ref) : Keeps frame (whr fuel r) := by
  rw [whr]
  repeat' first
    | with_reducible refine keeps_bind ?_ fun _ => ?_
    | split
    | simp

end Allowed

/-- What an expression is followed to has no value. -/
theorem valOf_of_followFor {heap : List Node} {steps : Nat} {r last : Ref}
    (followed : followFor heap steps r = some last) : valOf heap last = none := by
  induction steps generalizing r with
  | zero =>
      unfold followFor at followed
      cases link : valOf heap r with
      | none =>
          obtain rfl : r = last := by simpa [link] using followed
          exact link
      | some next => simp [link] at followed
  | succ steps hyp =>
      unfold followFor at followed
      cases link : valOf heap r with
      | none =>
          obtain rfl : r = last := by simpa [link] using followed
          exact link
      | some next => exact hyp (by simpa [link] using followed)

/-- The head of an application, followed through definitions, has no value. -/
theorem run_collectArgs_followed {r : Ref} {found : Ref × List Ref} {before after : Store}
    (run : (collectArgs r true).run before = .ok (found, after)) :
    valOf before.heap found.1 = none ∧ before = after := by
  simp only [collectArgs, run_bind_ok, run_load_ok, if_true] at run
  obtain ⟨_, node, ⟨-, rfl⟩, rest⟩ := run
  have ends : ∀ {head : Ref} {args : List Ref},
      (do return (← follow head, args) : StoreM (Ref × List Ref)).run before = .ok (found, after) →
        valOf before.heap found.1 = none ∧ before = after := by
    intro head args tail
    simp only [run_bind_ok, run_follow_ok] at tail
    obtain ⟨_, last, ⟨followed, rfl⟩, done⟩ := tail
    obtain ⟨rfl, rfl⟩ := run_pure_ok.mp done
    exact ⟨valOf_of_followFor followed, rfl⟩
  split at rest
  · simp only [pure_bind, run_bind_ok, run_deref_ok] at rest
    obtain ⟨_, _, ⟨-, rfl⟩, tail⟩ := rest
    exact ends (run_bind_ok.mpr tail)
  · exact ends (by simpa using rest)

/-! ## Definitional equality -/

theorem writes_fillHole {hole value : Ref} {result : Unit} {before after : Store}
    (unfilled : valOf before.heap hole = none)
    (run : (fillHole hole value).run before = .ok (result, after)) : Writes before after := by
  obtain ⟨_, last, follow, fill⟩ := run_bind_ok.mp run
  obtain ⟨-, rfl⟩ := run_follow_ok.mp follow
  exact writes_setHoleVal unfilled fill

/-- The head of an application of a hole is filled only while it is unfilled. -/
theorem keeps_writes_fillHead (this e : Ref) :
    Keeps Writes (do
      let (head, args) ← collectArgs this true
      if args = [] then
        setHoleVal head e
        return some true
      else return some false : StoreM (Option Bool)) := by
  intro before result after run
  obtain ⟨_, ⟨head, args⟩, collect, rest⟩ := run_bind_ok.mp run
  obtain ⟨unfilled, rfl⟩ := run_collectArgs_followed collect
  simp only at rest unfilled
  split at rest
  · obtain ⟨_, _, fill, done⟩ := run_bind_ok.mp rest
    obtain ⟨-, rfl⟩ := run_pure_ok.mp done
    exact writes_setHoleVal unfilled fill
  · exact keeps_writes_pure _ _ _ _ rest

/-- A case distinction in which an unfilled hole is filled. -/
theorem keeps_writes_load_hole {α : Type} {r : Ref} {k : Node → StoreM α} (value : Ref)
    (result : α) (unfilled : k (.hole none) = do
      fillHole r value
      return result)
    (rest : ∀ node, node ≠ .hole none → Keeps Writes (k node)) : Keeps Writes (load r >>= k) := by
  refine keeps_writes_load_bind fun before node value after found run => ?_
  by_cases hole : node = .hole none
  · subst hole
    rw [unfilled] at run
    obtain ⟨_, _, fill, done⟩ := run_bind_ok.mp run
    obtain ⟨-, rfl⟩ := run_pure_ok.mp done
    exact writes_fillHole (by simp [valOf, found]) fill
  · exact rest node hole _ _ _ run

/-- A hole that is unfilled in the end was there and unfilled in the beginning. -/
theorem Writes.unfilled {before after : Store} (writes : Writes before after) {r : Ref}
    (hole : after.heap[r]? = some (.hole none)) : before.heap[r]? = some (.hole none) := by
  induction writes with
  | refl => exact hole
  | @tail middle _ _ write hyp =>
      refine hyp ?_
      cases write with
      | @new node solid =>
          by_cases bound : r < middle.heap.length
          · rwa [List.getElem?_append_left bound] at hole
          · rw [List.getElem?_append_right (Nat.not_lt.mp bound)] at hole
            exact (solid none (List.mem_singleton.mp (List.mem_of_getElem? hole)).symm).elim
      | @put target old node loaded overwrites =>
          by_cases same : target = r
          · subst same
            obtain ⟨bound, -⟩ := List.getElem?_eq_some_iff.mp loaded
            rw [List.getElem?_set_self bound] at hole
            cases hole
            cases overwrites
          · rwa [List.getElem?_set_ne same] at hole
      | ask => exact hole

/-- A filled hole keeps its value. -/
theorem Writes.filled {before after : Store} (writes : Writes before after) {r val : Ref}
    (hole : before.heap[r]? = some (.hole (some val))) :
    after.heap[r]? = some (.hole (some val)) := by
  induction writes with
  | refl => exact hole
  | @tail middle _ _ write hyp =>
      cases write with
      | new solid =>
          rw [List.getElem?_append_left (List.getElem?_eq_some_iff.mp hyp).1]
          exact hyp
      | @put target old node loaded overwrites =>
          by_cases same : target = r
          · subst same
            rw [hyp] at loaded
            cases loaded
            cases overwrites
          · rwa [List.getElem?_set_ne same]
      | ask => exact hyp

/-- A `CExpr` keeps its operator. -/
theorem Write.opOf {before after : Store} (write : Write before after) {r : Ref} {op : Op}
    (found : opOf before.heap r = some op) : opOf after.heap r = some op := by
  cases write with
  | new solid => rwa [opOf_append (lt_length_of_opOf found)]
  | @put target old node loaded overwrites =>
      by_cases same : target = r
      · subst same
        obtain ⟨bound, -⟩ := List.getElem?_eq_some_iff.mp loaded
        cases overwrites <;> simp_all [Lfsc.opOf]
      · simpa [Lfsc.opOf, List.getElem?_set_ne same] using found
  | ask => exact found

theorem Writes.opOf {before after : Store} (writes : Writes before after) {r : Ref} {op : Op}
    (found : opOf before.heap r = some op) : opOf after.heap r = some op := by
  induction writes with
  | refl => exact found
  | tail _ write hyp => exact write.opOf hyp

section DefinitionalEquality

variable {self : Ref → Ref → StoreM Bool} (kept : ∀ left right, Keeps Writes (self left right))
include kept

theorem keeps_writes_defeqLeft (fuel : Nat) (this e : Ref) :
    Keeps Writes (defeqLeft fuel self this e) := by
  rw [defeqLeft]
  refine keeps_writes_load_hole e (some true) rfl fun node solid => ?_
  split
  all_goals
    repeat' first
      | exact keeps_writes_fillHead this e
      | with_reducible refine keeps_bind ?_ fun _ => ?_
      | split
      | simp_all

theorem keeps_writes_defeqRight (fuel : Nat) (this e : Ref) :
    Keeps Writes (defeqRight fuel self this e) := by
  rw [defeqRight]
  refine keeps_writes_load_hole this (some true) rfl fun node solid => ?_
  split
  all_goals
    repeat' first
      | with_reducible refine keeps_bind ?_ fun _ => ?_
      | split
      | simp_all

omit kept in
@[simp]
theorem keeps_writes_defeqLeaves {frame : Store → Store → Prop} [AllowsWrites frame]
    (this e : Ref) : Keeps frame (defeqLeaves this e) := by
  rw [defeqLeaves]
  repeat' first
    | with_reducible refine keeps_bind ?_ fun _ => ?_
    | split
    | simp

theorem keeps_writes_defeqUnder (this e : Ref) (last : Nat) :
    Keeps Writes (defeqUnder self this e last) := by
  rw [defeqUnder]
  repeat' first
    | with_reducible refine keeps_bind ?_ fun _ => ?_
    | simp [kept]

omit kept in
theorem writes_shareKid {frame : Store → Store → Prop} [AllowsWrites frame] {this e : Ref}
    {counter : Nat} {value : Unit} {before after : Store}
    (left : opOf before.heap this = some .app) (right : opOf before.heap e = some .app)
    (run : (shareKid this e counter).run before = .ok (value, after)) : frame before after := by
  rw [shareKid] at run
  obtain ⟨_, leftKid, leftRun, run⟩ := run_bind_ok.mp run
  obtain ⟨-, rfl⟩ := run_kid_ok.mp leftRun
  obtain ⟨_, rightKid, rightRun, run⟩ := run_bind_ok.mp run
  obtain ⟨-, rfl⟩ := run_kid_ok.mp rightRun
  -- No object changes before one of the two children is assigned.
  have final : ∀ middle keepRight, Writes before middle → frame before middle →
      (if keepRight = true then setKid this counter rightKid else setKid e counter leftKid).run
        middle = .ok (value, after) → frame before after := by
    intro middle keepRight chosen framed run
    split at run
    · exact IsTrans.trans _ _ _ framed (writes_setKid (.inr (chosen.opOf left)) run)
    · exact IsTrans.trans _ _ _ framed (writes_setKid (.inr (chosen.opOf right)) run)
  obtain ⟨_, rightNode, rightLoad, run⟩ := run_bind_ok.mp run
  obtain ⟨-, rfl⟩ := run_load_ok.mp rightLoad
  split at run
  · obtain ⟨_, leftNode, leftLoad, run⟩ := run_bind_ok.mp run
    obtain ⟨-, rfl⟩ := run_load_ok.mp leftLoad
    exact final _ true .refl (Std.Refl.refl _) run
  · obtain ⟨_, leftNode, leftLoad, run⟩ := run_bind_ok.mp run
    obtain ⟨-, rfl⟩ := run_load_ok.mp leftLoad
    split at run
    · exact final _ false .refl (Std.Refl.refl _) run
    · obtain ⟨asked, keepRight, askRun, run⟩ := run_bind_ok.mp run
      exact final _ keepRight (keeps_writes_hasFewerRefs _ _ _ askRun)
        (keeps_writes_hasFewerRefs _ _ _ askRun) run

theorem writes_defeqKids {this e : Ref} {remaining counter : Nat} {equal : Bool}
    {before after : Store} (left : opOf before.heap this = some .app)
    (right : opOf before.heap e = some .app)
    (run : (defeqKids self this e remaining counter).run before = .ok (equal, after)) :
    Writes before after := by
  induction remaining generalizing counter before with
  | zero =>
      rw [defeqKids] at run
      exact keeps_bind (keeps_writes_kid? e counter) (fun _ => keeps_pure _) _ _ _ run
  | succ remaining hyp =>
      rw [defeqKids] at run
      obtain ⟨_, leftKid, leftRun, run⟩ := run_bind_ok.mp run
      obtain ⟨-, rfl⟩ := run_kid_ok.mp leftRun
      obtain ⟨_, found, rightRun, run⟩ := run_bind_ok.mp run
      obtain ⟨-, rfl⟩ := run_kid?_ok.mp rightRun
      split at run
      · exact keeps_writes_pure _ _ _ _ run
      · split at run
        · exact hyp left right run
        · obtain ⟨compared, same, compareRun, run⟩ := run_bind_ok.mp run
          have first : Writes before compared := kept _ _ _ _ _ compareRun
          split at run
          · obtain ⟨shared, _, shareRun, run⟩ := run_bind_ok.mp run
            have second : Writes compared shared :=
              writes_shareKid (first.opOf left) (first.opOf right) shareRun
            have both : Writes before shared := first.trans second
            exact both.trans (hyp (both.opOf left) (both.opOf right) run)
          · obtain ⟨-, rfl⟩ := run_pure_ok.mp run
            exact first

theorem writes_defeqSame {this e : Ref} {equal : Bool} {before after : Store}
    (same : opOf before.heap this = opOf before.heap e)
    (run : (defeqSame self this e).run before = .ok (equal, after)) : Writes before after := by
  rw [defeqSame] at run
  obtain ⟨_, op, opRun, run⟩ := run_bind_ok.mp run
  obtain ⟨-, found, rfl⟩ := run_getop_ok.mp opRun
  split at run
  case h_4 =>
    obtain ⟨_, heap, heapRun, run⟩ := run_bind_ok.mp run
    obtain ⟨rfl, rfl⟩ := run_getHeap_ok.mp heapRun
    exact writes_defeqKids kept found (same ▸ found) run
  all_goals
    refine (?_ : Keeps Writes _) _ _ _ run
    repeat' first
      | exact keeps_writes_defeqUnder kept _ _ _
      | with_reducible refine keeps_bind ?_ fun _ => ?_
      | split
      | simp [kept]

theorem keeps_writes_comparison (this e : Ref) : Keeps Writes (do
    if (← getop this) ≠ (← getop e) then return false
    else defeqSame self this e) := by
  intro before equal after run
  obtain ⟨_, left, leftRun, run⟩ := run_bind_ok.mp run
  obtain ⟨-, leftOp, rfl⟩ := run_getop_ok.mp leftRun
  obtain ⟨_, right, rightRun, run⟩ := run_bind_ok.mp run
  obtain ⟨-, rightOp, rfl⟩ := run_getop_ok.mp rightRun
  split at run
  · exact keeps_writes_pure _ _ _ _ run
  · rename_i same
    exact writes_defeqSame kept (by rw [leftOp, rightOp]; exact not_not.mp same) run

end DefinitionalEquality

@[simp]
theorem keeps_writes_defeq (fuel : Nat) (this e : Ref) : Keeps Writes (defeq fuel this e) := by
  induction fuel generalizing this e with
  | zero => exact keeps_stop _
  | succ fuel hyp =>
      rw [defeq]
      repeat' first
        | exact keeps_writes_defeqLeft hyp _ _ _
        | exact keeps_writes_defeqRight hyp _ _ _
        | exact keeps_writes_comparison hyp _ _
        | with_reducible refine keeps_bind ?_ fun _ => ?_
        | split
        | simp

section Types

variable {frame : Store → Store → Prop} [AllowsWrites frame]

@[simp]
theorem keeps_writes_freeIn (fuel : Nat) (r x : Ref) : Keeps frame (freeIn fuel r x) :=
  keeps_writes_of_eq (keeps_freeIn fuel r x)

@[simp]
theorem keeps_writes_calcFreeIn (fuel : Nat) (r : Ref) : Keeps frame (calcFreeIn fuel r) := by
  rw [calcFreeIn]
  repeat' first
    | with_reducible refine keeps_bind ?_ fun _ => ?_
    | simp

@[simp]
theorem keeps_writes_isTypeWithin (statType : Ref) (steps : Nat) (r : Ref) :
    Keeps frame (isTypeWithin statType steps r) := by
  induction steps generalizing r with
  | zero =>
      unfold isTypeWithin
      refine keeps_ite (keeps_pure true) (keeps_bind (keeps_writes_getop r) fun op => ?_)
      exact keeps_ite (keeps_bind (keeps_writes_kid r 2) fun _ => keeps_stop _) (keeps_pure false)
  | succ steps hyp =>
      unfold isTypeWithin
      refine keeps_ite (keeps_pure true) (keeps_bind (keeps_writes_getop r) fun op => ?_)
      exact keeps_ite (keeps_bind (keeps_writes_kid r 2) hyp) (keeps_pure false)

@[simp]
theorem keeps_writes_isType (r statType : Ref) : Keeps frame (isType r statType) :=
  keeps_bind keeps_writes_getHeap fun _ => keeps_writes_isTypeWithin _ _ _

end Types

end Lfsc
