import Lfsc.FreshCopies
import Lfsc.MemoSearch

/-!
# Occurrence

`free_in` answers false on a shared object that it meets again, also where it is reached below other
binders.  In an acyclic graph of objects it returns, answers like the recursion without a set of
visited objects, and tells whether a path of children and followed values leads to the variable.
-/

namespace Lfsc

open Exec MemoSearch Relation

/-! ## The plain test -/

/-- The loop of `Expr::_free_in` over the children, without the set of visited objects. -/
def anyFreeInPlain (self : Ref → StoreM Bool) : List Ref → StoreM Bool
  | [] => return false
  | kid :: rest => do
      if ← self kid then return true else anyFreeInPlain self rest

/-- `Expr::_free_in` without the set of visited objects. -/
def freeInPlain (x : Ref) : Nat → Ref → StoreM Bool
  | 0, _ => outOfFuel
  | fuel + 1, r => do
      match ← load r with
      | .hole (some val) => freeInPlain x fuel val
      | .hole none => return r = x
      | .sym _ (some val) =>
          match ← load val with
          | .hole _ => freeInPlain x fuel val
          | _ => return r = x
      | .sym _ none => return r = x
      | .int _ | .rat _ => return false
      | .cexpr op kids _ =>
          if (op = .lam ∨ op = .pi) ∧ kids[0]? = some x then return false
          else anyFreeInPlain (freeInPlain x fuel) kids

/-! ## Paths -/

/-- The value that stands for an object: that of a filled hole, and that of a symbol whose value is
a hole. -/
def followedVal (heap : List Node) (r : Ref) : Option Ref :=
  match heap[r]? with
  | some (.hole val) => val
  | some (.sym _ (some val)) =>
      match heap[val]? with
      | some (.hole _) => some val
      | _ => none
  | _ => none

/-- A lambda or pi that binds a variable. -/
def Binds (heap : List Node) (r x : Ref) : Prop :=
  ∃ op kids flag, heap[r]? = some (.cexpr op kids flag) ∧ (op = .lam ∨ op = .pi) ∧
    kids[0]? = some x

/-- An object has another one as a child or as its followed value. -/
def LeadsTo (heap : List Node) (a b : Ref) : Prop := Child heap a b ∨ followedVal heap a = some b

/-- No object that an object leads to leads back to itself. -/
def Acyclic (heap : List Node) (r : Ref) : Prop :=
  ∀ other, ReflTransGen (LeadsTo heap) r other → ¬ TransGen (LeadsTo heap) other other

/-- A path of children and followed values that passes through no abstraction binding `x`. -/
def Path (heap : List Node) (x : Ref) : Ref → Ref → Prop :=
  ReflTransGen fun a b => ¬ Binds heap a x ∧ LeadsTo heap a b

/-- A symbol or a hole. -/
def IsVariable (heap : List Node) (x : Ref) : Prop :=
  (∃ name val, heap[x]? = some (.sym name val)) ∨ ∃ val, heap[x]? = some (.hole val)

/-! ## The search that the test makes -/

/-- What `Expr::_free_in` does at an object that it has not visited. -/
inductive Visit
  /-- It answers at once. -/
  | answers (found : Bool)
  /-- It goes on with a value. -/
  | follows (val : Ref)
  /-- It notes the object and goes through its children. -/
  | descends (kids : List Ref)

/-- What `Expr::_free_in` does at an object of the heap. -/
def visit (heap : List Node) (x r : Ref) : Visit :=
  match heap[r]? with
  | some (.hole (some val)) => .follows val
  | some (.hole none) => .answers (r = x)
  | some (.sym _ (some val)) =>
      match heap[val]? with
      | some (.hole _) => .follows val
      | _ => .answers (r = x)
  | some (.sym _ none) => .answers (r = x)
  | some (.cexpr op kids _) =>
      if (op = .lam ∨ op = .pi) ∧ kids[0]? = some x then .answers false else .descends kids
  | _ => .answers false

/-- The objects that `Expr::_free_in` goes on to. -/
def Visit.next : Visit → List Ref
  | .answers _ => []
  | .follows val => [val]
  | .descends kids => kids

/-- The objects as a graph that is searched for `x`. -/
def occurrences (heap : List Node) (x : Ref) : Graph Ref where
  goal r := visit heap x r matches .answers true
  next r := (visit heap x r).next
  noted r := visit heap x r matches .descends _

/-- The outcome of a test that leaves the store as it is, or runs out of depth. -/
def answered {α : Type} (store : Store) : Option α → Except Stop (α × Store)
  | some answer => .ok (answer, store)
  | none => .error .fuel

theorem answered_bind {α β : Type} {store : Store} {m : StoreM α} {k : α → StoreM β}
    {first : Option α} {rest : α → Option β} (start : m.run store = answered store first)
    (next : ∀ value, first = some value → (k value).run store = answered store (rest value)) :
    (m >>= k).run store = answered store (first >>= rest) := by
  rw [StateT.run_bind, start]
  cases found : first with
  | none => rfl
  | some value => exact next value found

/-- Dereferencing an allocated pointer. -/
theorem run_load_bind {α : Type} {store : Store} {r : Ref} {node : Node} {k : Node → StoreM α}
    (loaded : store.heap[r]? = some node) : (load r >>= k).run store = (k node).run store :=
  run_bind_of_ok (run_load_ok.mpr ⟨loaded, rfl⟩)

theorem exists_loaded {heap : List Node} {r : Ref} (allocated : r < heap.length) :
    ∃ node, heap[r]? = some node := ⟨heap[r], List.getElem?_eq_getElem allocated⟩

/-- What is done at an object, in terms of `visit`. -/
theorem run_freeInFrom_succ {store : Store} {x r : Ref} {fuel : Nat} {visited : List Ref}
    (closed : AllAllocated store.heap) (allocated : r < store.heap.length) (unseen : r ∉ visited) :
    (freeInFrom x (fuel + 1) r visited).run store =
      match visit store.heap x r with
      | .answers found => .ok ((found, visited), store)
      | .follows val => (freeInFrom x fuel val visited).run store
      | .descends kids => (anyFreeIn (freeInFrom x fuel) kids (r :: visited)).run store := by
  obtain ⟨node, loaded⟩ := exists_loaded allocated
  rw [freeInFrom, if_neg unseen, run_load_bind loaded]
  cases node with
  | int value => simp only [visit, loaded]; rfl
  | rat value => simp only [visit, loaded]; rfl
  | hole val =>
      simp only [visit, loaded]
      cases val <;> rfl
  | cexpr op kids flag =>
      simp only [visit, loaded]
      split <;> rfl
  | sym name val =>
      cases val with
      | none => simp only [visit, loaded]; rfl
      | some val =>
          obtain ⟨value, there⟩ := exists_loaded (closed r val ⟨_, loaded, by simp [Node.mentions]⟩)
          simp only [visit, loaded, there]
          rw [run_load_bind there]
          cases value <;> rfl

theorem run_freeInPlain_succ {store : Store} {x r : Ref} {fuel : Nat}
    (closed : AllAllocated store.heap) (allocated : r < store.heap.length) :
    (freeInPlain x (fuel + 1) r).run store =
      match visit store.heap x r with
      | .answers found => .ok (found, store)
      | .follows val => (freeInPlain x fuel val).run store
      | .descends kids => (anyFreeInPlain (freeInPlain x fuel) kids).run store := by
  obtain ⟨node, loaded⟩ := exists_loaded allocated
  rw [freeInPlain, run_load_bind loaded]
  cases node with
  | int value => simp only [visit, loaded]; rfl
  | rat value => simp only [visit, loaded]; rfl
  | hole val =>
      simp only [visit, loaded]
      cases val <;> rfl
  | cexpr op kids flag =>
      simp only [visit, loaded]
      split <;> rfl
  | sym name val =>
      cases val with
      | none => simp only [visit, loaded]; rfl
      | some val =>
          obtain ⟨value, there⟩ := exists_loaded (closed r val ⟨_, loaded, by simp [Node.mentions]⟩)
          simp only [visit, loaded, there]
          rw [run_load_bind there]
          cases value <;> rfl

theorem run_anyFreeIn {store : Store} {self : Ref → List Ref → StoreM (Bool × List Ref)}
    {search : Ref → List Ref → Option (Bool × List Ref)} {kids : List Ref}
    (each : ∀ kid ∈ kids, ∀ visited,
      (self kid visited).run store = answered store (search kid visited)) (visited : List Ref) :
    (anyFreeIn self kids visited).run store =
      answered store (anyFoundNoting search kids visited) := by
  induction kids generalizing visited with
  | nil => rfl
  | cons kid rest hyp =>
      rw [anyFreeIn, anyFoundNoting]
      apply answered_bind (each kid List.mem_cons_self visited)
      rintro ⟨found, between⟩ -
      cases found with
      | true => rfl
      | false => exact hyp (fun other mem => each other (List.mem_cons_of_mem kid mem)) between

theorem run_anyFreeInPlain {store : Store} {self : Ref → StoreM Bool} {search : Ref → Option Bool}
    {kids : List Ref} (each : ∀ kid ∈ kids, (self kid).run store = answered store (search kid)) :
    (anyFreeInPlain self kids).run store = answered store (anyFound search kids) := by
  induction kids with
  | nil => rfl
  | cons kid rest hyp =>
      rw [anyFreeInPlain, anyFound]
      apply answered_bind (each kid List.mem_cons_self)
      intro found _
      cases found with
      | true => rfl
      | false => exact hyp fun other mem => each other (List.mem_cons_of_mem kid mem)

/-- What `_free_in` does at each kind of object. -/
theorem visit_cases (heap : List Node) (x r : Ref) :
    (∃ val, followedVal heap r = some val ∧ (∀ other, ¬ Child heap r other) ∧ ¬ Binds heap r x ∧
      visit heap x r = .follows val) ∨
    (Binds heap r x ∧ ¬ IsVariable heap r ∧ visit heap x r = .answers false) ∨
    (∃ kids, followedVal heap r = none ∧ (∀ other, Child heap r other ↔ other ∈ kids) ∧
      ¬ Binds heap r x ∧ ¬ IsVariable heap r ∧ visit heap x r = .descends kids) ∨
    ∃ found, followedVal heap r = none ∧ (∀ other, ¬ Child heap r other) ∧ ¬ Binds heap r x ∧
      (found = true ↔ r = x ∧ IsVariable heap r) ∧ visit heap x r = .answers found := by
  cases loaded : heap[r]? with
  | none => simp [followedVal, Child, Binds, IsVariable, visit, loaded]
  | some node =>
      cases node with
      | int value => simp [followedVal, Child, Binds, IsVariable, visit, loaded]
      | rat value => simp [followedVal, Child, Binds, IsVariable, visit, loaded]
      | hole val => cases val <;> simp [followedVal, Child, Binds, IsVariable, visit, loaded]
      | sym name val =>
          cases val with
          | none => simp [followedVal, Child, Binds, IsVariable, visit, loaded]
          | some val =>
              by_cases filled : ∃ inner, heap[val]? = some (.hole inner)
              · obtain ⟨inner, there⟩ := filled
                simp [followedVal, Child, Binds, IsVariable, visit, loaded, there]
              · have unfollowed : followedVal heap r = none := by
                  simp only [followedVal, loaded]
                  split
                  · exact (filled ⟨_, ‹_›⟩).elim
                  · rfl
                have answers : visit heap x r = .answers (r = x) := by
                  simp only [visit, loaded]
                  split
                  · exact (filled ⟨_, ‹_›⟩).elim
                  · rfl
                simp [unfollowed, answers, Child, Binds, IsVariable, loaded]
      | cexpr op kids flag =>
          by_cases binder : (op = .lam ∨ op = .pi) ∧ kids[0]? = some x
          · have binds : Binds heap r x := ⟨op, kids, flag, loaded, binder⟩
            exact .inr (.inl ⟨binds, by simp [IsVariable, loaded], by simp [visit, loaded, binder]⟩)
          · have unbound : ¬ Binds heap r x := by
              rintro ⟨_, _, _, same, other⟩
              cases loaded.symm.trans same
              exact binder other
            simp [unbound, followedVal, Child, IsVariable, visit, loaded, binder]

/-- The graph has the children and followed values of an object as its successors, unless the object
binds the variable. -/
theorem occurrences_edge_iff {heap : List Node} {x a b : Ref} :
    (occurrences heap x).Edge a b ↔ ¬ Binds heap a x ∧ LeadsTo heap a b := by
  rcases visit_cases heap x a with ⟨val, followed, childless, unbound, visits⟩ |
    ⟨binds, -, visits⟩ | ⟨kids, unfollowed, children, unbound, -, visits⟩ |
    ⟨found, unfollowed, childless, unbound, -, visits⟩
  · simp [Graph.Edge, occurrences, Visit.next, LeadsTo, visits, followed, childless, unbound, eq_comm]
  · simp [Graph.Edge, occurrences, Visit.next, visits, binds]
  · simp [Graph.Edge, occurrences, Visit.next, LeadsTo, visits, unfollowed, children, unbound]
  · simp [Graph.Edge, occurrences, Visit.next, LeadsTo, visits, unfollowed, childless]

/-- The goal of the graph is the variable, unless its value is followed. -/
theorem occurrences_goal_iff {heap : List Node} {x r : Ref} (var : IsVariable heap x) :
    (occurrences heap x).goal r = true ↔ r = x ∧ followedVal heap x = none := by
  rcases visit_cases heap x r with ⟨val, followed, -, -, visits⟩ | ⟨-, constant, visits⟩ |
    ⟨kids, unfollowed, -, -, constant, visits⟩ | ⟨found, unfollowed, -, -, answer, visits⟩
  · have other : ¬ (r = x ∧ followedVal heap x = none) := by
      rintro ⟨rfl, unfollowed⟩
      simp [followed] at unfollowed
    simp [occurrences, visits, other]
  · have other : r ≠ x := fun same => constant (same ▸ var)
    simp [occurrences, visits, other]
  · have other : r ≠ x := fun same => constant (same ▸ var)
    simp [occurrences, visits, other]
  · have goal : (occurrences heap x).goal r = true ↔ found = true := by
      cases found <;> simp [occurrences, visits]
    rw [goal, answer]
    constructor
    · rintro ⟨rfl, -⟩
      exact ⟨rfl, unfollowed⟩
    · rintro ⟨rfl, -⟩
      exact ⟨rfl, var⟩

/-- The search finds the variable where a path leads to it and its own value is not followed. -/
theorem occurrences_finds_iff {heap : List Node} {x r : Ref} (var : IsVariable heap x) :
    (occurrences heap x).Finds r ↔ followedVal heap x = none ∧ Path heap x r x := by
  have edges : (occurrences heap x).Edge = fun a b => ¬ Binds heap a x ∧ LeadsTo heap a b := by
    funext a b
    exact propext occurrences_edge_iff
  constructor
  · rintro ⟨last, path, goal⟩
    obtain ⟨rfl, unfollowed⟩ := (occurrences_goal_iff var).mp goal
    rw [edges] at path
    exact ⟨unfollowed, path⟩
  · rintro ⟨unfollowed, path⟩
    rw [Path, ← edges] at path
    exact ⟨x, path, (occurrences_goal_iff var).mpr ⟨rfl, unfollowed⟩⟩

theorem leads_of_edge {heap : List Node} {x a b : Ref} (edge : (occurrences heap x).Edge a b) :
    LeadsTo heap a b := (occurrences_edge_iff.mp edge).2

/-- An object leads to objects that it mentions. -/
theorem LeadsTo.refers {heap : List Node} {a b : Ref} (leads : LeadsTo heap a b) : Refers heap a b := by
  rcases leads with child | followed
  · exact child.mentions
  · unfold followedVal at followed
    split at followed
    · exact ⟨_, ‹_›, by simp [Node.mentions, followed]⟩
    · split at followed
      · exact ⟨_, ‹_›, by simpa [Node.mentions, eq_comm] using followed⟩
      · cases followed
    · cases followed

/-! ## The tests are the searches -/

theorem anyFoundNoting_singleton {search : Ref → List Ref → Option (Bool × List Ref)} {r : Ref}
    {visited : List Ref} : anyFoundNoting search [r] visited = search r visited := by
  rw [anyFoundNoting]
  cases search r visited with
  | none => rfl
  | some result =>
      obtain ⟨found, between⟩ := result
      cases found <;> rfl

theorem anyFound_singleton {search : Ref → Option Bool} {r : Ref} :
    anyFound search [r] = search r := by
  rw [anyFound]
  cases search r with
  | none => rfl
  | some found => cases found <;> rfl

theorem memo_occurrences_succ {heap : List Node} {x r : Ref} {fuel : Nat} {visited : List Ref}
    (unseen : r ∉ visited) :
    memo (occurrences heap x) (fuel + 1) r visited =
      match visit heap x r with
      | .answers found => some (found, visited)
      | .follows val => memo (occurrences heap x) fuel val visited
      | .descends kids => anyFoundNoting (memo (occurrences heap x) fuel) kids (r :: visited) := by
  have goal : (occurrences heap x).goal r = (visit heap x r matches .answers true) := rfl
  have noted : (occurrences heap x).noted r = (visit heap x r matches .descends _) := rfl
  have next : (occurrences heap x).next r = (visit heap x r).next := rfl
  rw [memo, if_neg unseen, goal, noted, next]
  cases visit heap x r with
  | answers found => cases found <;> rfl
  | follows val => exact anyFoundNoting_singleton
  | descends kids => rfl

theorem plain_occurrences_succ {heap : List Node} {x r : Ref} {fuel : Nat} :
    plain (occurrences heap x) (fuel + 1) r =
      match visit heap x r with
      | .answers found => some found
      | .follows val => plain (occurrences heap x) fuel val
      | .descends kids => anyFound (plain (occurrences heap x) fuel) kids := by
  have goal : (occurrences heap x).goal r = (visit heap x r matches .answers true) := rfl
  have next : (occurrences heap x).next r = (visit heap x r).next := rfl
  rw [plain, goal, next]
  cases visit heap x r with
  | answers found => cases found <;> rfl
  | follows val => exact anyFound_singleton
  | descends kids => rfl

/-- `Expr::_free_in` is the memoised search. -/
theorem run_freeInFrom {store : Store} {x r : Ref} {fuel : Nat} {visited : List Ref}
    (closed : AllAllocated store.heap) (allocated : r < store.heap.length) :
    (freeInFrom x fuel r visited).run store =
      answered store (memo (occurrences store.heap x) fuel r visited) := by
  induction fuel generalizing r visited with
  | zero => rfl
  | succ fuel hyp =>
      by_cases seen : r ∈ visited
      · rw [freeInFrom, memo, if_pos seen, if_pos seen]
        rfl
      · have below : ∀ next ∈ (visit store.heap x r).next, ∀ visited,
            (freeInFrom x fuel next visited).run store =
              answered store (memo (occurrences store.heap x) fuel next visited) := by
          intro next edge visited
          exact hyp (closed r next (leads_of_edge edge).refers)
        rw [run_freeInFrom_succ closed allocated seen, memo_occurrences_succ seen]
        cases visits : visit store.heap x r with
        | answers found => rfl
        | follows val => exact below val (by simp [visits, Visit.next]) visited
        | descends kids => exact run_anyFreeIn (by simpa [visits, Visit.next] using below) _

/-- The recursion without a set of visited objects is the plain search. -/
theorem run_freeInPlain {store : Store} {x r : Ref} {fuel : Nat}
    (closed : AllAllocated store.heap) (allocated : r < store.heap.length) :
    (freeInPlain x fuel r).run store =
      answered store (plain (occurrences store.heap x) fuel r) := by
  induction fuel generalizing r with
  | zero => rfl
  | succ fuel hyp =>
      have below : ∀ next ∈ (visit store.heap x r).next, (freeInPlain x fuel next).run store =
          answered store (plain (occurrences store.heap x) fuel next) := by
        intro next edge
        exact hyp (closed r next (leads_of_edge edge).refers)
      rw [run_freeInPlain_succ closed allocated, plain_occurrences_succ]
      cases visits : visit store.heap x r with
      | answers found => rfl
      | follows val => exact below val (by simp [visits, Visit.next])
      | descends kids => exact run_anyFreeInPlain (by simpa [visits, Visit.next] using below)

/-! ## The two tests agree -/

/-- Finitely many objects are reached, since all of them are allocated. -/
theorem finite_reached {heap : List Node} {x r : Ref} (closed : AllAllocated heap)
    (allocated : r < heap.length) :
    {other | ReflTransGen (occurrences heap x).Edge r other}.Finite := by
  apply (Set.finite_lt_nat heap.length).subset
  intro other path
  cases path with
  | refl => exact allocated
  | tail _ edge => exact closed _ other (leads_of_edge edge).refers

/-- A graph without cycles has none that avoid the abstractions binding `x`. -/
theorem Acyclic.occurrences {heap : List Node} {r : Ref} (acyclic : Acyclic heap r) (x other : Ref)
    (path : ReflTransGen (occurrences heap x).Edge r other) :
    ¬ TransGen (Lfsc.occurrences heap x).Edge other other := by
  intro cycle
  have leads := ReflTransGen.mono (fun _ _ edge => leads_of_edge edge) _ _ path
  exact acyclic other leads (TransGen.mono (fun _ _ edge => leads_of_edge edge) _ _ cycle)

/-- In an acyclic graph of objects `free_in` returns, answers like the recursion without a set of
visited objects, and tells whether a path leads to the variable, unless the variable itself is one
whose value is followed. -/
theorem freeIn_tells_path {store : Store} {r x : Ref} (closed : AllAllocated store.heap)
    (allocated : r < store.heap.length) (var : IsVariable store.heap x)
    (acyclic : Acyclic store.heap r) :
    ∃ enough, ∀ fuel ≥ enough, ∃ answer,
      (freeIn fuel r x).run store = .ok (answer, store) ∧
      (freeInPlain x fuel r).run store = .ok (answer, store) ∧
      (answer = true ↔ followedVal store.heap x = none ∧ Path store.heap x r x) := by
  have ends := Graph.acc (finite_reached closed allocated) (acyclic.occurrences x)
  obtain ⟨forPlain, plainReturns⟩ := exists_plain ends
  obtain ⟨forMemo, memoReturns⟩ := exists_memo ends
  refine ⟨max forPlain forMemo, fun fuel bound => ?_⟩
  obtain ⟨answer, plainRun⟩ := plainReturns fuel (by omega)
  obtain ⟨result, memoRun⟩ := memoReturns fuel (by omega) []
  have settled : (occurrences store.heap x).Settled [] r := by simp [Graph.Settled]
  have searched := memo_searched (acyclic.occurrences x) settled memoRun
  have meaning := plain_eq_some plainRun
  have same : result.1 = answer := by
    rw [Bool.eq_iff_iff, searched.answer, meaning]
  have memoised : (freeInFrom x fuel r []).run store = .ok (result, store) := by
    rw [run_freeInFrom closed allocated, memoRun]
    rfl
  refine ⟨answer, ?_, ?_, meaning.trans (occurrences_finds_iff var)⟩
  · rw [freeIn, run_bind_of_ok memoised, same]
    rfl
  · rw [run_freeInPlain closed allocated, plainRun]
    rfl

theorem acyclic_of_forall {heap : List Node} {r : Ref}
    (each : ∀ entry ∈ heap.zipIdx, ∀ b ∈ entry.1.mentions, b < entry.2) : Acyclic heap r := by
  have descends : ∀ a b, TransGen (LeadsTo heap) a b → b < a := by
    intro a b path
    induction path with
    | single leads =>
        obtain ⟨node, loaded, member⟩ := leads.refers
        exact each (node, _) (List.mem_zipIdx_iff_getElem?.mpr loaded) _ member
    | tail _ leads hyp =>
        obtain ⟨node, loaded, member⟩ := leads.refers
        exact (each (node, _) (List.mem_zipIdx_iff_getElem?.mpr loaded) _ member).trans hyp
  intro other _ cycle
  exact (descends other other cycle).ne rfl

/-- In `λy. ((λx. h) (y h))` the hole `h`, which is filled with `x`, is met below a lambda that binds
`x` and again outside of it. -/
theorem freeIn_shared_hole :
    let heap : List Node := [.sym "x" none, .hole (some 0), .sym "y" none, .cexpr .lam [0, 1] false,
      .cexpr .app [2, 1] false, .cexpr .app [3, 4] false, .cexpr .lam [2, 5] false]
    let store : Store := ⟨heap, fun _ _ => false, fun _ => false, 0⟩
    ∃ enough, ∀ fuel ≥ enough, ∃ answer,
      (freeIn fuel 6 0).run store = .ok (answer, store) ∧
      (freeInPlain 0 fuel 6).run store = .ok (answer, store) ∧
      (answer = true ↔ followedVal heap 0 = none ∧ Path heap 0 6 0) := by
  intro heap store
  exact freeIn_tells_path (allAllocated_of_forall (by decide)) (by decide) (.inl ⟨"x", none, rfl⟩)
    (acyclic_of_forall (by decide))

/-- A symbol whose value is a hole. -/
def heldHeap : List Node := [.hole none, .sym "x" (some 0)]

/-- A symbol whose value is a hole does not occur in itself, since its value is followed instead. -/
theorem freeIn_misses_followed : ¬ ∀ (store : Store) (r x : Ref), AllAllocated store.heap →
    r < store.heap.length → IsVariable store.heap x → Acyclic store.heap r →
      ∃ enough, ∀ fuel ≥ enough, ∃ answer,
        (freeIn fuel r x).run store = .ok (answer, store) ∧
        (freeInPlain x fuel r).run store = .ok (answer, store) ∧
        (answer = true ↔ Path store.heap x r x) := by
  intro all
  let store : Store := ⟨heldHeap, fun _ _ => false, fun _ => false, 0⟩
  obtain ⟨enough, returns⟩ := all store 1 1 (allAllocated_of_forall (by decide)) (by decide)
    (.inl ⟨"x", some 0, rfl⟩) (acyclic_of_forall (by decide))
  obtain ⟨answer, run, -, meaning⟩ := returns (enough + 2) (Nat.le_add_right _ _)
  have misses : (freeIn (enough + 2) 1 1).run store = .ok (false, store) := rfl
  have answered := Except.ok.inj (run.symm.trans misses)
  obtain rfl : answer = false := congrArg Prod.fst answered
  exact Bool.false_ne_true (meaning.mpr .refl)

end Lfsc
