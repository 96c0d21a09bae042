import Lfsc.Depth
import Lfsc.PiFormation

/-!
# Comparison of classifiers

`defeq` as a relation on the expressions, the comparison of two sorts, which changes nothing, and
computations of the checker that do not look at the expressions.
-/

namespace Lfsc

open Exec

/-! ## Definitional equality -/

/-- `defeq` returns true on two expressions. -/
def Equal (store : Store) (this e : Ref) : Prop :=
  ∃ fuel after, (defeq fuel this e).run store = .ok (true, after)

theorem Equal.refl (store : Store) (r : Ref) : Equal store r r :=
  ⟨1, store, by
    unfold defeq
    rw [if_pos rfl]
    rfl⟩

/-- An expression is `type` or `kind` after so many links at most. -/
def SortWithin (heap : List Node) (steps : Nat) (r final : Ref) : Prop :=
  followFor heap steps r = some final ∧
    (opOf heap final = some .type ∨ opOf heap final = some .kind)

theorem SortWithin.cases {heap : List Node} {steps : Nat} {r final : Ref}
    (sort : SortWithin heap steps r final) :
    (r = final ∧ ∃ op kids flag, heap[r]? = some (.cexpr op kids flag) ∧
      (op = .type ∨ op = .kind)) ∨
    ∃ fewer next, steps = fewer + 1 ∧ SortWithin heap fewer next final ∧
      ((∃ name, heap[r]? = some (.sym name (some next))) ∨
        heap[r]? = some (.hole (some next))) := by
  obtain ⟨followed, op⟩ := sort
  unfold followFor at followed
  cases link : valOf heap r with
  | none =>
      obtain rfl : r = final := by simpa [link] using followed
      refine .inl ⟨rfl, ?_⟩
      unfold opOf at op
      split at op
      · next loaded => exact ⟨_, _, _, loaded, by simpa using op⟩
      · simp at op
  | some next =>
      simp only [link] at followed
      cases steps with
      | zero => simp at followed
      | succ fewer =>
          refine .inr ⟨fewer, next, rfl, ⟨followed, op⟩, ?_⟩
          unfold valOf at link
          split at link
          · next name val loaded => exact .inl ⟨name, by rw [loaded, link]⟩
          · next val loaded => exact .inr (by rw [loaded, link])
          · simp at link

theorem SortWithin.unique {heap : List Node} {steps steps' : Nat} {r final final' : Ref}
    (sort : SortWithin heap steps r final) (sort' : SortWithin heap steps' r final') :
    final = final' := by
  have followed := followFor_mono (Nat.le_max_left steps steps') sort.1
  rw [followFor_mono (Nat.le_max_right steps steps') sort'.1] at followed
  exact (Option.some.inj followed).symm

theorem run_defeqLeft_link {store after : Store} {fuel : Nat} {r e next : Ref}
    {self : Ref → Ref → StoreM Bool} {equal : Bool}
    (loaded : (∃ name, store.heap[r]? = some (.sym name (some next))) ∨
      store.heap[r]? = some (.hole (some next)))
    (run : (self next e).run store = .ok (equal, after)) :
    (defeqLeft fuel self r e).run store = .ok (some equal, after) := by
  rcases loaded with ⟨name, loaded⟩ | loaded
  · exact run_bind_ok.mpr ⟨store, _, run_load_ok.mpr ⟨loaded, rfl⟩,
      run_bind_ok.mpr ⟨after, equal, run, rfl⟩⟩
  · exact run_bind_ok.mpr ⟨store, _, run_load_ok.mpr ⟨loaded, rfl⟩,
      run_bind_ok.mpr ⟨after, equal, run, rfl⟩⟩

theorem run_defeqRight_link {store after : Store} {fuel : Nat} {r e next : Ref}
    {self : Ref → Ref → StoreM Bool} {equal : Bool}
    (loaded : (∃ name, store.heap[e]? = some (.sym name (some next))) ∨
      store.heap[e]? = some (.hole (some next)))
    (run : (self r next).run store = .ok (equal, after)) :
    (defeqRight fuel self r e).run store = .ok (some equal, after) := by
  rcases loaded with ⟨name, loaded⟩ | loaded
  · exact run_bind_ok.mpr ⟨store, _, run_load_ok.mpr ⟨loaded, rfl⟩,
      run_bind_ok.mpr ⟨after, equal, run, rfl⟩⟩
  · exact run_bind_ok.mpr ⟨store, _, run_load_ok.mpr ⟨loaded, rfl⟩,
      run_bind_ok.mpr ⟨after, equal, run, rfl⟩⟩

theorem run_defeqLeft_sort {store : Store} {fuel : Nat} {r e : Ref}
    {self : Ref → Ref → StoreM Bool} {op : Op} {kids : List Ref} {flag : Bool}
    (loaded : store.heap[r]? = some (.cexpr op kids flag)) (sort : op = .type ∨ op = .kind) :
    (defeqLeft fuel self r e).run store = .ok (none, store) := by
  refine run_bind_ok.mpr ⟨store, _, run_load_ok.mpr ⟨loaded, rfl⟩, ?_⟩
  rcases sort with rfl | rfl <;> rfl

theorem run_defeqRight_sort {store : Store} {fuel : Nat} {r e : Ref}
    {self : Ref → Ref → StoreM Bool} {op : Op} {kids : List Ref} {flag : Bool}
    (loaded : store.heap[e]? = some (.cexpr op kids flag)) (sort : op = .type ∨ op = .kind) :
    (defeqRight fuel self r e).run store = .ok (none, store) := by
  refine run_bind_ok.mpr ⟨store, _, run_load_ok.mpr ⟨loaded, rfl⟩, ?_⟩
  rcases sort with rfl | rfl <;> rfl

theorem run_getop_cexpr {store : Store} {r : Ref} {op : Op} {kids : List Ref} {flag : Bool}
    (loaded : store.heap[r]? = some (.cexpr op kids flag)) :
    (getop r).run store = .ok (some op, store) := by
  obtain ⟨bound, -⟩ := List.getElem?_eq_some_iff.mp loaded
  exact run_getop_ok.mpr ⟨bound, by simp [opOf, loaded], rfl⟩

/-- Comparing two expressions that stand for `type` or `kind` changes nothing. -/
theorem run_defeq_sorts {store : Store} {fuel left right : Nat} {this e final final' : Ref}
    (sort : SortWithin store.heap left this final) (sort' : SortWithin store.heap right e final')
    (bound : left + right < fuel) :
    (defeq fuel this e).run store =
      .ok (decide (opOf store.heap final = opOf store.heap final'), store) := by
  induction fuel generalizing left right this e with
  | zero => omega
  | succ fuel hyp =>
      unfold defeq
      by_cases same : this = e
      · subst same
        obtain rfl := sort.unique sort'
        rw [if_pos rfl]
        simp
      · rw [if_neg same]
        rcases sort.cases with ⟨rfl, op, kids, flag, loaded, isSort⟩ | ⟨fewer, next, rfl, rest,
          link⟩
        · refine run_bind_ok.mpr ⟨store, none, run_defeqLeft_sort loaded isSort, ?_⟩
          rcases sort'.cases with ⟨rfl, op', kids', flag', loaded', isSort'⟩ |
            ⟨fewer, next, rfl, rest, link⟩
          · refine run_bind_ok.mpr ⟨store, none, run_defeqRight_sort loaded' isSort', ?_⟩
            refine run_bind_ok.mpr ⟨store, _, run_getop_cexpr loaded, ?_⟩
            refine run_bind_ok.mpr ⟨store, _, run_getop_cexpr loaded', ?_⟩
            have ops : opOf store.heap this = some op := by simp [opOf, loaded]
            have ops' : opOf store.heap e = some op' := by simp [opOf, loaded']
            by_cases agree : op = op'
            · subst agree
              rw [if_neg (by simp)]
              refine run_bind_ok.mpr ⟨store, _, run_getop_cexpr loaded, ?_⟩
              rcases isSort with rfl | rfl <;> simp [ops, ops']
            · rw [if_pos (by simpa using agree)]
              simp [ops, ops', agree]
          · have compared := hyp sort rest (by omega)
            exact run_bind_ok.mpr ⟨store, _, run_defeqRight_link link compared, rfl⟩
        · have compared := hyp rest sort' (by omega)
          exact run_bind_ok.mpr ⟨store, _, run_defeqLeft_link link compared, rfl⟩

theorem Equal.unique {store first second : Store} {this e : Ref} {left right : Nat}
    {equal equal' : Bool} (run : (defeq left this e).run store = .ok (equal, first))
    (run' : (defeq right this e).run store = .ok (equal', second)) :
    equal = equal' ∧ first = second :=
  Extends.unique (fun le => extends_defeq le this e) run run'

/-- Expressions that stand for `type` or `kind` are compared without a trace. -/
theorem DenotesSort.unchanged {store after : Store} {this e : Ref} {fuel : Nat} {equal : Bool}
    (sort : DenotesSort store.heap this) (sort' : DenotesSort store.heap e)
    (run : (defeq fuel this e).run store = .ok (equal, after)) : after = store := by
  obtain ⟨final, sort⟩ := sort
  obtain ⟨final', sort'⟩ := sort'
  exact (Equal.unique run (run_defeq_sorts sort sort' (Nat.lt_succ_self _))).2

theorem DenotesSort.equal_append {store : Store} {this e : Ref} {extra : List Node}
    (sort : DenotesSort store.heap this) (sort' : DenotesSort store.heap e)
    (equal : Equal store this e) : Equal { store with heap := store.heap ++ extra } this e := by
  let wider : Store := { store with heap := store.heap ++ extra }
  obtain ⟨final, sort⟩ := sort
  obtain ⟨final', sort'⟩ := sort'
  obtain ⟨fuel, after, run⟩ := equal
  have ops := (Equal.unique run (run_defeq_sorts sort sort' (Nat.lt_succ_self _))).1
  have kept : ∀ {r last}, followDefs store.heap r = some last →
      (opOf store.heap last = some .type ∨ opOf store.heap last = some .kind) →
        SortWithin wider.heap wider.heap.length r last := by
    intro r last followed sort
    have allocated : last < store.heap.length := sort.elim lt_length_of_opOf lt_length_of_opOf
    refine ⟨followDefs_append followed allocated, ?_⟩
    change opOf (store.heap ++ extra) last = _ ∨ opOf (store.heap ++ extra) last = _
    rwa [opOf_append allocated]
  have allocated : final < store.heap.length := sort.2.elim lt_length_of_opOf lt_length_of_opOf
  have allocated' : final' < store.heap.length := sort'.2.elim lt_length_of_opOf lt_length_of_opOf
  have compared := run_defeq_sorts (kept sort.1 sort.2) (kept sort'.1 sort'.2) (Nat.lt_succ_self _)
  change _ = Except.ok (decide (opOf (store.heap ++ extra) final =
    opOf (store.heap ++ extra) final'), wider) at compared
  rw [opOf_append allocated, opOf_append allocated', ← ops] at compared
  exact ⟨_, _, compared⟩

theorem followFor_congr {heap heap' : List Node} (same : ∀ r, valOf heap r = valOf heap' r)
    (steps : Nat) (r : Ref) : followFor heap steps r = followFor heap' steps r := by
  induction steps generalizing r with
  | zero =>
      unfold followFor
      rw [same]
  | succ steps hyp =>
      unfold followFor
      rw [same]
      split
      · rfl
      · exact hyp _

theorem SortWithin.of_append {heap : List Node} {kids : List Ref} {flag : Bool} {steps : Nat}
    {r final : Ref} (sort : SortWithin (heap ++ [.cexpr .pi kids flag]) steps r final) :
    SortWithin heap steps r final := by
  have vals : ∀ r, valOf (heap ++ [.cexpr .pi kids flag]) r = valOf heap r := by
    intro r
    by_cases allocated : r < heap.length
    · exact valOf_append allocated
    · rcases Nat.lt_or_eq_of_le (Nat.not_lt.mp allocated) with beyond | rfl
      · have outside : heap[r]? = none := List.getElem?_eq_none (Nat.le_of_lt beyond)
        have beyond' : (heap ++ [Node.cexpr .pi kids flag])[r]? = none :=
          List.getElem?_eq_none (by
            rw [List.length_append, List.length_singleton]
            exact beyond)
        unfold valOf
        rw [outside, beyond']
      · simp [valOf]
  obtain ⟨followed, op⟩ := sort
  rw [followFor_congr vals] at followed
  refine ⟨followed, ?_⟩
  have allocated : final < heap.length := by
    have within := op.elim lt_length_of_opOf lt_length_of_opOf
    rw [List.length_append, List.length_singleton] at within
    rcases Nat.lt_or_eq_of_le (Nat.le_of_lt_succ within) with inside | rfl
    · exact inside
    · simp [opOf] at op
  rwa [opOf_append allocated] at op

/-- A new pi abstraction does not make two sorts equal. -/
theorem Equal.of_append {store : Store} {this e : Ref} {kids : List Ref} {flag : Bool}
    (sort : DenotesSort (store.heap ++ [.cexpr .pi kids flag]) this)
    (sort' : DenotesSort (store.heap ++ [.cexpr .pi kids flag]) e)
    (equal : Equal { store with heap := store.heap ++ [.cexpr .pi kids flag] } this e) :
    Equal store this e := by
  obtain ⟨final, sort⟩ := sort
  obtain ⟨final', sort'⟩ := sort'
  obtain ⟨fuel, after, run⟩ := equal
  have ops := (Equal.unique run (run_defeq_sorts sort sort' (Nat.lt_succ_self _))).1
  have inside := SortWithin.of_append sort
  have inside' := SortWithin.of_append sort'
  have allocated : final < store.heap.length :=
    inside.2.elim lt_length_of_opOf lt_length_of_opOf
  have allocated' : final' < store.heap.length :=
    inside'.2.elim lt_length_of_opOf lt_length_of_opOf
  rw [opOf_append allocated, opOf_append allocated'] at ops
  have compared := run_defeq_sorts inside inside' (Nat.lt_succ_self _)
  rw [← ops] at compared
  exact ⟨_, _, compared⟩

theorem run_isTypeOrKind_sort {store : Store} {classifier : Ref}
    (sort : DenotesSort store.heap classifier) :
    (isTypeOrKind classifier).run store = .ok (true, store) := by
  obtain ⟨final, followed, op⟩ := sort
  have allocated : final < store.heap.length := op.elim lt_length_of_opOf lt_length_of_opOf
  refine run_bind_ok.mpr ⟨_, _, run_follow_ok.mpr ⟨followed, rfl⟩, ?_⟩
  refine run_bind_ok.mpr ⟨_, _, run_getop_ok.mpr ⟨allocated, rfl, rfl⟩, ?_⟩
  exact run_pure_ok.mpr ⟨by simpa using op, rfl⟩

/-- The expressions after the allocation of a pi abstraction at most. -/
def GrownByPi (before after : Store) : Prop :=
  after = before ∨
    ∃ kids flag, after = { before with heap := before.heap ++ [.cexpr .pi kids flag] }

theorem GrownByPi.equal {before after : Store} {expected classifier : Ref}
    (grown : GrownByPi before after)
    (sort : DenotesSort before.heap expected) (sort' : DenotesSort before.heap classifier)
    (equal : Equal before expected classifier) : Equal after expected classifier := by
  rcases grown with rfl | ⟨kids, flag, rfl⟩
  · exact equal
  · exact sort.equal_append sort' equal

theorem GrownByPi.of_equal {before after : Store} {expected classifier : Ref}
    (grown : GrownByPi before after)
    (sort : DenotesSort after.heap expected) (sort' : DenotesSort before.heap classifier)
    (equal : Equal after expected classifier) : Equal before expected classifier := by
  rcases grown with rfl | ⟨kids, flag, rfl⟩
  · exact equal
  · exact Equal.of_append sort (denotesSort_append sort') equal

/-! ## States that differ in the expressions -/

/-- A state with other expressions. -/
def Checker.withStore (checker : Checker) (store : Store) : Checker :=
  { checker with runtime := { checker.runtime with store } }

@[simp]
theorem withStore_self (checker : Checker) : checker.withStore checker.store = checker := rfl

theorem run_onStore_withStore {α : Type} {m : StoreM α} {before after : Checker} {value : α} :
    (onStore m).run before = .ok (value, after) ↔
      ∃ store, m.run before.store = .ok (value, store) ∧ before.withStore store = after :=
  run_onStore_ok

/-- A computation that neither reads nor changes the expressions. -/
def Detached {α : Type} (m : CheckerM α) : Prop :=
  ∀ before value after, m.run before = .ok (value, after) →
    after.store = before.store ∧
      ∀ store, m.run (before.withStore store) = .ok (value, after.withStore store)

theorem detached_pure {α : Type} (value : α) : Detached (pure value) := by
  intro before result after run
  obtain ⟨rfl, rfl⟩ := run_pure_ok.mp run
  exact ⟨rfl, fun _ => rfl⟩

theorem detached_bind {α β : Type} {m : CheckerM α} {k : α → CheckerM β} (first : Detached m)
    (rest : ∀ value, Detached (k value)) : Detached (m >>= k) := by
  intro before result after run
  obtain ⟨middle, value, firstRun, restRun⟩ := run_bind_ok.mp run
  obtain ⟨firstSame, firstAny⟩ := first _ _ _ firstRun
  obtain ⟨restSame, restAny⟩ := rest value _ _ _ restRun
  exact ⟨restSame.trans firstSame, fun store =>
    run_bind_ok.mpr ⟨_, value, firstAny store, restAny store⟩⟩

theorem detached_report {α : Type} (message : String) :
    Detached (report message : CheckerM α) := by
  intro before result after run
  exact (run_stop_ok.mp run).elim

theorem detached_ite {α : Type} {condition : Prop} [Decidable condition] {yes no : CheckerM α}
    (first : Detached yes) (second : Detached no) :
    Detached (if condition then yes else no) := by
  split
  · exact first
  · exact second

theorem detached_nextToken : Detached nextToken := by
  intro before token after run
  cases before with
  | mk runtime symbols progs saved ascHoles openParens allowRun tailCalls bigCheck input text peeked
      trace holeTrace =>
      cases peeked with
      | nil =>
          cases input with
          | nil =>
              cases run
              exact ⟨rfl, fun _ => rfl⟩
          | cons lexeme rest =>
              cases run
              exact ⟨rfl, fun _ => rfl⟩
      | cons token rest =>
          cases run
          exact ⟨rfl, fun _ => rfl⟩

theorem detached_modify {change : Checker → Checker}
    (unseen : ∀ checker, (change checker).store = checker.store)
    (commutes : ∀ checker store, change (checker.withStore store) =
      (change checker).withStore store) :
    Detached (modify change) := by
  intro before value after run
  obtain rfl := run_modify_ok.mp run
  exact ⟨unseen before, fun store => run_modify_ok.mpr (commutes before store)⟩

theorem detached_getOpenParens : Detached getOpenParens := by
  intro before value after run
  cases run
  exact ⟨rfl, fun _ => rfl⟩

theorem detached_addOpenParens (change : Int) : Detached (addOpenParens change) :=
  detached_modify (fun _ => rfl) fun _ _ => rfl

theorem detached_symbolsInsert (name : String) (pair : Binding) :
    Detached (symbolsInsert name pair) := by
  intro before value after run
  cases run
  exact ⟨rfl, fun _ => rfl⟩

theorem detached_eatRparen : Detached eatRparen := by
  refine detached_bind (detached_bind detached_nextToken fun token => ?_) fun _ =>
    detached_addOpenParens (-1)
  exact detached_ite (detached_report _) (detached_pure ())

theorem detached_eatRparens (count : Nat) : Detached (eatRparens count) := by
  induction count with
  | zero => exact detached_pure ()
  | succ count hyp => exact detached_bind detached_eatRparen fun _ => hyp

theorem detached_eatExcess (prev : Int) : Detached (eatExcess prev) :=
  detached_bind detached_getOpenParens fun _ => detached_eatRparens _

end Lfsc
