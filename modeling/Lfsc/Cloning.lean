import Lfsc.Denotation

/-!
# Copies

`clone` assigns a new symbol to each binder while it copies the body.  The copy stands for the same
term; the binders in it are new, and no symbol free in it has a value, unless it is a program.
-/

namespace Lfsc

open Exec Lambda

/-! ## Renamed binders -/

/-- A symbol that a copy keeps: it has no value, or is a program. -/
def Unvalued (heap : List Node) (x : Ref) : Prop :=
  ∃ name val, heap[x]? = some (.sym name val) ∧ ∀ v ∈ val, opOf heap v = some .prog

/-- The symbols that a copy meets: new binders, and settled symbols that are not renamed. -/
def copyNames (heap : List Node) (env : List Ref) (fresh : Nat) : Names :=
  ⟨(fresh ≤ ·), fun x => x ∉ env ∧ Unvalued heap x⟩

/-- A heap in which each binder in scope stands for a new symbol of its own. -/
structure Renamed (heap : List Node) (env news : List Ref) (current : List Node) : Prop where
  agrees : SameObjects (· ∉ env) heap current
  length : news.length = env.length
  fresh : ∀ new ∈ news, heap.length ≤ new ∧ new < current.length
  nodup : news.Nodup
  stands : ∀ x ∈ env, ∃ name new text, current[x]? = some (.sym name (some new)) ∧
    news[env.idxOf x]? = some new ∧ current[new]? = some (.sym text none)

theorem renamed_nil (heap : List Node) : Renamed heap [] [] heap :=
  ⟨sameObjects_refl _ heap, rfl, by simp, List.nodup_nil, by simp⟩

theorem Renamed.append {heap current : List Node} {env news : List Ref}
    (renamed : Renamed heap env news current) (extra : List Node) :
    Renamed heap env news (current ++ extra) where
  agrees := renamed.agrees.trans (agrees_append _ _ _)
  length := renamed.length
  fresh new member := by
    obtain ⟨beyond, inside⟩ := renamed.fresh new member
    rw [List.length_append]
    exact ⟨beyond, Nat.lt_add_right _ inside⟩
  nodup := renamed.nodup
  stands x member := by
    obtain ⟨name, new, text, assigned, found, unset⟩ := renamed.stands x member
    have keeps : ∀ {r : Ref} {node : Node}, current[r]? = some node →
        (current ++ extra)[r]? = some node := fun loaded =>
      (List.getElem?_append_left (List.getElem?_eq_some_iff.mp loaded).1).trans loaded
    exact ⟨name, new, text, keeps assigned, found, keeps unset⟩

theorem SameObjects.exists_node {kept : Ref → Prop} {heap heap' : List Node}
    (agrees : SameObjects kept heap heap') {r : Ref} {node : Node} (loaded : heap[r]? = some node) :
    ∃ node', heap'[r]? = some node' := by
  cases node with
  | int value => exact ⟨_, agrees.int loaded⟩
  | rat value => exact ⟨_, agrees.rat loaded⟩
  | hole val => exact ⟨_, agrees.hole loaded⟩
  | sym name val =>
      obtain ⟨val', loaded', -⟩ := agrees.sym loaded
      exact ⟨_, loaded'⟩
  | cexpr op kids flag =>
      obtain ⟨flag', loaded'⟩ := agrees.cexpr loaded
      exact ⟨_, loaded'⟩

theorem SameObjects.length_le {kept : Ref → Prop} {heap heap' : List Node}
    (agrees : SameObjects kept heap heap') : heap.length ≤ heap'.length := by
  by_contra shorter
  have inside : heap'.length < heap.length := Nat.lt_of_not_le shorter
  obtain ⟨node, loaded⟩ := agrees.exists_node (List.getElem?_eq_getElem inside)
  exact Nat.lt_irrefl _ (List.getElem?_eq_some_iff.mp loaded).1

/-- While the body of an abstraction is copied, its binder stands for a new symbol. -/
theorem Renamed.bind {heap current : List Node} {env news : List Ref} {var new : Ref}
    {name text : String} {val prev : Option Ref} (renamed : Renamed heap env news current)
    (symbol : heap[var]? = some (.sym name val)) (loaded : current[var]? = some (.sym name prev))
    (unset : current[new]? = some (.sym text none)) (beyond : heap.length ≤ new)
    (other : new ∉ news) :
    Renamed heap (var :: env) (new :: news) (current.set var (.sym name (some new))) := by
  have inside : var < heap.length := (List.getElem?_eq_some_iff.mp symbol).1
  have keeps : ∀ {r : Ref}, heap.length ≤ r →
      (current.set var (.sym name (some new)))[r]? = current[r]? := fun outside =>
    List.getElem?_set_ne (Nat.ne_of_lt (Nat.lt_of_lt_of_le inside outside))
  refine ⟨?_, by simp [renamed.length], ?_, List.nodup_cons.mpr ⟨other, renamed.nodup⟩, ?_⟩
  · have grown : SameObjects (· ∉ var :: env) heap current :=
      renamed.agrees.mono fun x outside => List.not_mem_of_not_mem_cons outside
    refine grown.trans ((agrees_setSym loaded _).mono fun x outside => ?_)
    exact List.ne_of_not_mem_cons outside
  · intro new' member
    rw [List.length_set]
    rcases List.mem_cons.mp member with rfl | member
    · exact ⟨beyond, (List.getElem?_eq_some_iff.mp unset).1⟩
    · exact renamed.fresh new' member
  · intro x member
    by_cases same : x = var
    · subst same
      have assigned : (current.set x (.sym name (some new)))[x]? = some (.sym name (some new)) :=
        List.getElem?_set_self (List.getElem?_eq_some_iff.mp loaded).1
      exact ⟨name, new, text, assigned, by simp, (keeps beyond).trans unset⟩
    · have member' : x ∈ env := (List.mem_cons.mp member).resolve_left same
      obtain ⟨name', new', text', found, index, unset'⟩ := renamed.stands x member'
      have outside := (renamed.fresh new' (List.mem_of_getElem? index)).1
      refine ⟨name', new', text', (List.getElem?_set_ne (Ne.symm same)).trans found, ?_,
        (keeps outside).trans unset'⟩
      rw [List.idxOf_cons_ne _ (Ne.symm same)]
      exact index

theorem Renamed.new_notMem {heap current : List Node} {env news : List Ref}
    (renamed : Renamed heap env news current) : current.length ∉ news :=
  fun member => Nat.lt_irrefl _ (renamed.fresh _ member).2

theorem loaded_append {heap : List Node} {r : Ref} {node : Node} (loaded : heap[r]? = some node)
    (extra : List Node) : (heap ++ extra)[r]? = some node :=
  (List.getElem?_append_left (List.getElem?_eq_some_iff.mp loaded).1).trans loaded

theorem newSymbol_loaded (current : List Node) (name : String) :
    (current ++ [Node.sym name none])[current.length]? = some (.sym name none) := by
  simp

/-! ## Copying -/

/-- In every heap that renames the binders in scope, copies of an expression are made that stand for
a term, once the recursion depth is enough. -/
def Copies (heap : List Node) (env : List Ref) (r : Ref) (t : Term Leaf) : Prop :=
  ∀ news current, Renamed heap env news current → ∃ enough copy extra,
    Denotes (copyNames heap env current.length) (current ++ extra) news copy t ∧
      ∀ fuel, enough ≤ fuel → ∀ store : Store, store.heap = current →
        (clone fuel r).run store = .ok (copy, { store with heap := current ++ extra })

theorem Denotes.mono_fresh {heap heap' : List Node} {env news : List Ref} {fresh more : Nat}
    {r : Ref} {t : Term Leaf} (le : fresh ≤ more)
    (denotes : Denotes (copyNames heap env more) heap' news r t) :
    Denotes (copyNames heap env fresh) heap' news r t := by
  refine Denotes.mono ?_ ?_ denotes
  · exact fun _ beyond => Nat.le_trans le beyond
  · exact fun _ named => named

/-- An object that is copied by returning it. -/
theorem copies_self {heap : List Node} {env : List Ref} {r : Ref} {t : Term Leaf}
    (stands : ∀ news current, Renamed heap env news current →
      Denotes (copyNames heap env current.length) current news r t)
    (returned : ∀ news current, Renamed heap env news current → ∀ fuel (store : Store),
      store.heap = current → (clone (fuel + 1) r).run store = .ok (r, store)) :
    Copies heap env r t := by
  intro news current renamed
  refine ⟨1, r, [], by simpa using stands news current renamed, fun fuel le store same => ?_⟩
  obtain ⟨fuel, rfl⟩ := Nat.exists_eq_add_of_le' le
  rw [returned news current renamed fuel store same]
  subst same
  simp

/-- An object that is copied by copying its value. -/
theorem copies_value {heap : List Node} {env : List Ref} {r val : Ref} {t : Term Leaf}
    (copies : Copies heap env val t)
    (passes : ∀ news current, Renamed heap env news current → ∀ fuel (store : Store),
      store.heap = current → (clone (fuel + 1) r).run store = (clone fuel val).run store) :
    Copies heap env r t := by
  intro news current renamed
  obtain ⟨enough, copy, extra, stands, run⟩ := copies news current renamed
  refine ⟨enough + 1, copy, extra, stands, fun fuel le store same => ?_⟩
  obtain ⟨fuel, rfl⟩ := Nat.exists_eq_add_of_le' (Nat.le_trans (Nat.le_add_left 1 enough) le)
  rw [passes news current renamed fuel store same]
  exact run fuel (Nat.le_of_succ_le_succ le) store same

/-- Children are copied one after the other. -/
theorem copies_all {heap : List Node} {env kids : List Ref} {terms : List (Term Leaf)}
    (len : kids.length = terms.length)
    (each : ∀ kid term, (kid, term) ∈ kids.zip terms → Copies heap env kid term)
    {news : List Ref} {current : List Node} (renamed : Renamed heap env news current) :
    ∃ enough copies extra, copies.length = terms.length ∧
      (∀ copy term, (copy, term) ∈ copies.zip terms →
        Denotes (copyNames heap env current.length) (current ++ extra) news copy term) ∧
      ∀ fuel, enough ≤ fuel → ∀ store : Store, store.heap = current →
        (kids.mapM (clone fuel)).run store = .ok
          (copies, { store with heap := current ++ extra }) := by
  induction kids generalizing terms current with
  | nil =>
      obtain rfl : terms = [] := List.length_eq_zero_iff.mp len.symm
      refine ⟨0, [], [], rfl, by simp, fun fuel _ store same => ?_⟩
      subst same
      simp
  | cons kid kids hyp =>
      cases terms with
      | nil => exact absurd len (by simp)
      | cons term terms =>
          obtain ⟨enough, copy, extra, stands, run⟩ :=
            each kid term (by simp) news current renamed
          obtain ⟨enough', copies, extra', len', stands', run'⟩ := hyp (Nat.succ.inj len)
            (fun kid' term' member => each kid' term' (by simp [member])) (renamed.append extra)
          refine ⟨max enough enough', copy :: copies, extra ++ extra', by simp [len'], ?_, ?_⟩
          · intro copy' term' member
            rw [← List.append_assoc]
            rcases List.mem_cons.mp member with same | member
            · obtain ⟨rfl, rfl⟩ := Prod.mk.inj same
              exact stands.frame (agrees_append _ _ _)
            · exact (stands' copy' term' member).mono_fresh (by simp)
          · intro fuel le store same
            have first := run fuel (Nat.le_trans (Nat.le_max_left _ _) le) store same
            have rest := run' fuel (Nat.le_trans (Nat.le_max_right _ _) le)
              { store with heap := current ++ extra } rfl
            rw [List.mapM_cons, run_bind_of_ok first, run_bind_of_ok rest, ← List.append_assoc]
            rfl

/-- An assignment is undone. -/
theorem set_append_set {heap extra : List Node} {x : Ref} {node other : Node}
    (loaded : heap[x]? = some node) : (heap.set x other ++ extra).set x node = heap ++ extra := by
  obtain ⟨inside, same⟩ := List.getElem?_eq_some_iff.mp loaded
  have within : x < (heap.set x other).length := by simpa using inside
  rw [List.set_append_left _ _ within, List.set_set, ← same, List.set_getElem_self]

/-- The body of an abstraction is copied under a new binder, and the old one gets its value back. -/
theorem copies_under {heap : List Node} {env : List Ref} {var body new : Ref} {name text : String}
    {val : Option Ref} {t : Term Leaf} (copies : Copies heap (var :: env) body t)
    (symbol : heap[var]? = some (.sym name val)) {news : List Ref} {current : List Node}
    (renamed : Renamed heap env news current) (unset : current[new]? = some (.sym text none))
    (beyond : heap.length ≤ new) (other : new ∉ news) :
    ∃ enough copy extra,
      Denotes (copyNames heap env current.length) (current ++ extra) (new :: news) copy t ∧
      ∀ fuel, enough ≤ fuel → ∀ store : Store, store.heap = current →
        (cloneUnder (clone fuel) var new body).run store =
          .ok (copy, { store with heap := current ++ extra }) := by
  obtain ⟨prev, loaded, -⟩ := renamed.agrees.sym symbol
  have inside := (List.getElem?_eq_some_iff.mp loaded).1
  have bound := renamed.bind symbol loaded unset beyond other
  obtain ⟨enough, copy, extra, stands, run⟩ := copies _ _ bound
  let opened := current.set var (.sym name (some new))
  have within : var < opened.length := by simpa [opened] using inside
  have assigned : (opened ++ extra)[var]? = some (.sym name (some new)) := by
    rw [List.getElem?_append_left within, List.getElem?_set_self inside]
  have restored : (opened ++ extra).set var (.sym name prev) = current ++ extra :=
    set_append_set loaded
  refine ⟨enough, copy, extra, ?_, fun fuel le store same => ?_⟩
  · have frame := agrees_setSym assigned prev
    rw [restored] at frame
    have kept := stands.frame (frame.mono fun x named => List.ne_of_not_mem_cons named.1)
    refine Denotes.mono (fun x beyond => ?_) (fun x named => ?_) kept
    · exact Nat.le_trans (Nat.le_of_eq List.length_set.symm) beyond
    · exact ⟨List.not_mem_of_not_mem_cons named.1, named.2⟩
  · subst same
    have read : (symVal var).run store = .ok (prev, store) :=
      run_symVal_ok.mpr ⟨⟨name, loaded⟩, rfl⟩
    have set : (setSymVal var (some new)).run store = .ok ((), { store with heap := opened }) :=
      run_setSymVal_ok.mpr ⟨name, prev, loaded, rfl⟩
    have copied := run fuel le { store with heap := opened } rfl
    have reset : (setSymVal var prev).run { store with heap := opened ++ extra } =
        .ok ((), { store with heap := store.heap ++ extra }) :=
      run_setSymVal_ok.mpr ⟨name, _, assigned, by rw [restored]⟩
    rw [cloneUnder, run_bind_of_ok read, run_bind_of_ok set, run_bind_of_ok copied,
      run_bind_of_ok reset]
    rfl

/-- An object without children and without a value is copied by returning it. -/
theorem run_clone_leaf {r : Ref} {node : Node} {fuel : Nat} {store : Store}
    (loaded : store.heap[r]? = some node) (unset : valOf store.heap r = none)
    (childless : ∀ op kids flag, node ≠ .cexpr op kids flag) :
    (clone (fuel + 1) r).run store = .ok (r, store) := by
  rw [clone, run_bind_of_ok (run_load_ok.mpr ⟨loaded, rfl⟩)]
  cases node with
  | int value => rfl
  | rat value => rfl
  | sym name val =>
      obtain rfl : val = none := by simpa [valOf, loaded] using unset
      rfl
  | hole val =>
      obtain rfl : val = none := by simpa [valOf, loaded] using unset
      rfl
  | cexpr op kids flag => exact (childless op kids flag rfl).elim

/-- A filled hole is copied by copying its value. -/
theorem run_clone_hole {r val : Ref} {fuel : Nat} {store : Store}
    (loaded : store.heap[r]? = some (.hole (some val))) :
    (clone (fuel + 1) r).run store = (clone fuel val).run store := by
  rw [clone, run_bind_of_ok (run_load_ok.mpr ⟨loaded, rfl⟩)]

/-- A program symbol is copied by returning it. -/
theorem run_clone_prog {r val : Ref} {name : String} {fuel : Nat} {store : Store}
    (loaded : store.heap[r]? = some (.sym name (some val)))
    (program : opOf store.heap val = some .prog) :
    (clone (fuel + 1) r).run store = .ok (r, store) := by
  have op : (getop val).run store = .ok (some .prog, store) :=
    run_getop_ok.mpr ⟨lt_length_of_opOf program, program, rfl⟩
  rw [clone, run_bind_of_ok (run_load_ok.mpr ⟨loaded, rfl⟩)]
  simp only
  rw [run_bind_of_ok op]
  rfl

/-- An assigned symbol that is no program is copied by copying its value. -/
theorem run_clone_sym {r val : Ref} {name : String} {fuel : Nat} {store : Store}
    (loaded : store.heap[r]? = some (.sym name (some val))) (allocated : val < store.heap.length)
    (other : opOf store.heap val ≠ some .prog) :
    (clone (fuel + 1) r).run store = (clone fuel val).run store := by
  have op : (getop val).run store = .ok (opOf store.heap val, store) :=
    run_getop_ok.mpr ⟨allocated, rfl, rfl⟩
  rw [clone, run_bind_of_ok (run_load_ok.mpr ⟨loaded, rfl⟩)]
  simp only
  rw [run_bind_of_ok op, if_pos other]

/-- An object other than an abstraction is copied by copying its children. -/
theorem run_clone_node {r : Ref} {op : Op} {kids : List Ref} {flag : Bool} {fuel : Nat}
    {store : Store} (loaded : store.heap[r]? = some (.cexpr op kids flag)) (notLam : op ≠ .lam)
    (notPi : op ≠ .pi) : (clone (fuel + 1) r).run store =
      (kids.mapM (clone fuel) >>= fun copies =>
        if copies ≠ kids then new (.cexpr op copies false) else return r).run store := by
  rw [clone, run_bind_of_ok (run_load_ok.mpr ⟨loaded, rfl⟩)]
  cases op <;> first | rfl | exact absurd rfl notLam | exact absurd rfl notPi

/-- A lambda is copied by copying its body under a new binder. -/
theorem run_clone_lam {r var body : Ref} {flag : Bool} {name : String} {val : Option Ref}
    {fuel : Nat} {store : Store} (loaded : store.heap[r]? = some (.cexpr .lam [var, body] flag))
    (symbol : store.heap[var]? = some (.sym name val)) :
    (clone (fuel + 1) r).run store =
      (cloneUnder (clone fuel) var store.heap.length body >>= fun copy =>
        new (.cexpr .lam [store.heap.length, copy] flag)).run
          { store with heap := store.heap ++ [.sym name none] } := by
  let opened : Store := { store with heap := store.heap ++ [.sym name none] }
  have first : (kid r 0).run store = .ok (var, store) :=
    run_kid_ok.mpr ⟨⟨_, _, _, loaded, rfl⟩, rfl⟩
  have text : (symName var).run store = .ok (name, store) := run_symName_ok.mpr ⟨⟨_, symbol⟩, rfl⟩
  have newvar : (newSym name).run store = .ok (store.heap.length, opened) :=
    run_new_ok.mpr ⟨rfl, rfl⟩
  have second : (kid r 1).run opened = .ok (body, opened) :=
    run_kid_ok.mpr ⟨⟨_, _, _, loaded_append loaded _, rfl⟩, rfl⟩
  rw [clone, run_bind_of_ok (run_load_ok.mpr ⟨loaded, rfl⟩)]
  simp only
  rw [run_bind_of_ok first, run_bind_of_ok text, run_bind_of_ok newvar, run_bind_of_ok second]

/-- A pi is copied by copying its domain, and then its range under a new binder. -/
theorem run_clone_pi {r var domain range : Ref} {flag : Bool} {name : String} {val : Option Ref}
    {fuel : Nat} {store : Store}
    (loaded : store.heap[r]? = some (.cexpr .pi [var, domain, range] flag))
    (symbol : store.heap[var]? = some (.sym name val)) :
    (clone (fuel + 1) r).run store =
      (clone fuel domain >>= fun dom => kid r 2 >>= fun range' =>
        cloneUnder (clone fuel) var store.heap.length range' >>= fun copy =>
          new (.cexpr .pi [store.heap.length, dom, copy] flag)).run
            { store with heap := store.heap ++ [.sym name none] } := by
  let opened : Store := { store with heap := store.heap ++ [.sym name none] }
  have first : (kid r 0).run store = .ok (var, store) :=
    run_kid_ok.mpr ⟨⟨_, _, _, loaded, rfl⟩, rfl⟩
  have text : (symName var).run store = .ok (name, store) := run_symName_ok.mpr ⟨⟨_, symbol⟩, rfl⟩
  have newvar : (newSym name).run store = .ok (store.heap.length, opened) :=
    run_new_ok.mpr ⟨rfl, rfl⟩
  have second : (kid r 1).run opened = .ok (domain, opened) :=
    run_kid_ok.mpr ⟨⟨_, _, _, loaded_append loaded _, rfl⟩, rfl⟩
  rw [clone, run_bind_of_ok (run_load_ok.mpr ⟨loaded, rfl⟩)]
  simp only
  rw [run_bind_of_ok first, run_bind_of_ok text, run_bind_of_ok newvar, run_bind_of_ok second]

/-- Every expression that stands for a term is copied, and the copy stands for the same term. -/
theorem Denotes.copies {names : Names} {heap : List Node} {env : List Ref} {r : Ref}
    {t : Term Leaf} (denotes : Denotes names heap env r t) : Copies heap env r t := by
  induction denotes with
  | @int env r value loaded =>
      refine copies_self (fun news current renamed => .int (renamed.agrees.int loaded))
        fun news current renamed fuel store same => ?_
      have loaded' := renamed.agrees.int loaded
      subst same
      exact run_clone_leaf loaded' (by simp [valOf, loaded']) (by simp)
  | @rat env r value loaded =>
      refine copies_self (fun news current renamed => .rat (renamed.agrees.rat loaded))
        fun news current renamed fuel store same => ?_
      have loaded' := renamed.agrees.rat loaded
      subst same
      exact run_clone_leaf loaded' (by simp [valOf, loaded']) (by simp)
  | @unfilled env r loaded =>
      refine copies_self (fun news current renamed => .unfilled (renamed.agrees.hole loaded))
        fun news current renamed fuel store same => ?_
      have loaded' := renamed.agrees.hole loaded
      subst same
      exact run_clone_leaf loaded' (by simp [valOf, loaded']) (by simp)
  | @filled env r val t loaded _ hyp =>
      refine copies_value hyp fun news current renamed fuel store same => ?_
      exact run_clone_hole (same ▸ renamed.agrees.hole loaded)
  | @bound env r name val loaded member =>
      intro news current renamed
      obtain ⟨name', new, text, assigned, found, unset⟩ := renamed.stands r member
      obtain ⟨index, same⟩ := List.getElem?_eq_some_iff.mp found
      have place : news.idxOf new = env.idxOf r := by
        rw [← same, renamed.nodup.idxOf_getElem]
      refine ⟨2, new, [], ?_, fun fuel le store same => ?_⟩
      · rw [← place, List.append_nil]
        exact .bound unset (List.mem_of_getElem? found)
      · obtain ⟨fuel, rfl⟩ := Nat.exists_eq_add_of_le' le
        subst same
        have leaf : opOf store.heap new ≠ some .prog := by simp [opOf, unset]
        rw [run_clone_sym assigned (List.getElem?_eq_some_iff.mp unset).1 leaf,
          run_clone_leaf unset (by simp [valOf, unset]) (by simp), List.append_nil]
  | @free env r name loaded outside named =>
      refine copies_self (fun news current renamed => ?_)
        fun news current renamed fuel store same => ?_
      · have inside := (List.getElem?_eq_some_iff.mp loaded).1
        exact .free (renamed.agrees.keptSym outside loaded)
          (fun member => Nat.not_lt.mpr (renamed.fresh r member).1 inside)
          ⟨outside, name, none, loaded, by simp⟩
      · have loaded' := renamed.agrees.keptSym outside loaded
        subst same
        exact run_clone_leaf loaded' (by simp [valOf, loaded']) (by simp)
  | @prog env r val name loaded outside named program =>
      have same : ∀ {news : List Ref} {current : List Node}, Renamed heap env news current →
          opOf current val = some .prog := fun renamed =>
        (renamed.agrees.opOf_eq (lt_length_of_opOf program)).trans program
      refine copies_self (fun news current renamed => ?_)
        fun news current renamed fuel store at_ => ?_
      · have inside := (List.getElem?_eq_some_iff.mp loaded).1
        exact .prog (renamed.agrees.keptSym outside loaded)
          (fun member => Nat.not_lt.mpr (renamed.fresh r member).1 inside)
          ⟨outside, name, some val, loaded, by simpa using program⟩ (same renamed)
      · subst at_
        exact run_clone_prog (renamed.agrees.keptSym outside loaded) (same renamed)
  | @defined env r val name t loaded outside named other value hyp =>
      refine copies_value hyp fun news current renamed fuel store same => ?_
      subst same
      have op := renamed.agrees.opOf_eq value.allocated
      exact run_clone_sym (renamed.agrees.keptSym outside loaded)
        (Nat.lt_of_lt_of_le value.allocated renamed.agrees.length_le) (op ▸ other)
  | @lam env r var body flag name val t loaded symbol named _ hyp =>
      intro news current renamed
      obtain ⟨flag', loaded'⟩ := renamed.agrees.cexpr loaded
      obtain ⟨val', symbol', -⟩ := renamed.agrees.sym symbol
      obtain ⟨enough, copy, extra, stands, run⟩ := copies_under hyp symbol (renamed.append [_])
        (newSymbol_loaded current name) renamed.agrees.length_le renamed.new_notMem
      let made := current ++ [Node.sym name none] ++ extra
      let lam := Node.cexpr .lam [current.length, copy] flag'
      have split : current ++ (Node.sym name none :: extra ++ [lam]) = made ++ [lam] := by
        simp [made]
      refine ⟨enough + 1, made.length, Node.sym name none :: extra ++ [lam], ?_, ?_⟩
      · rw [split]
        have new : (made ++ [lam])[made.length]? = some lam := by simp
        have binder : (made ++ [lam])[current.length]? = some (.sym name none) := by simp [made]
        exact .lam new binder (Nat.le_refl _)
          ((stands.frame (agrees_append _ _ _)).mono_fresh (by simp))
      · intro fuel le store same
        obtain ⟨fuel, rfl⟩ := Nat.exists_eq_add_of_le' (Nat.le_trans (Nat.le_add_left 1 enough) le)
        subst same
        have copied := run fuel (Nat.le_of_succ_le_succ le)
          { store with heap := store.heap ++ [.sym name none] } rfl
        rw [run_clone_lam loaded' symbol', run_bind_of_ok copied, split]
        rfl
  | @pi env r var domain range flag name val d t loaded symbol named _ _ outer under =>
      intro news current renamed
      obtain ⟨flag', loaded'⟩ := renamed.agrees.cexpr loaded
      obtain ⟨val', symbol', -⟩ := renamed.agrees.sym symbol
      obtain ⟨enough, dom, extra, standsDom, runDom⟩ :=
        outer news _ (renamed.append [.sym name none])
      have unset := loaded_append (newSymbol_loaded current name) extra
      obtain ⟨enough', copy, extra', stands, run⟩ := copies_under under symbol
        ((renamed.append [.sym name none]).append extra) unset renamed.agrees.length_le
        renamed.new_notMem
      let made := current ++ [Node.sym name none] ++ extra ++ extra'
      let pi := Node.cexpr .pi [current.length, dom, copy] flag'
      have split : current ++ (Node.sym name none :: extra ++ extra' ++ [pi]) = made ++ [pi] := by
        simp [made]
      refine ⟨max enough enough' + 1, made.length, Node.sym name none :: extra ++ extra' ++ [pi],
        ?_, ?_⟩
      · rw [split]
        have new : (made ++ [pi])[made.length]? = some pi := by simp
        have binder : (made ++ [pi])[current.length]? = some (.sym name none) := by simp [made]
        have standsDom' := (standsDom.frame (agrees_append _ _ extra')).frame
          (agrees_append _ _ [pi])
        exact .pi new binder (Nat.le_refl _) (standsDom'.mono_fresh (by simp))
          ((stands.frame (agrees_append _ _ _)).mono_fresh (by simp))
      · intro fuel le store same
        obtain ⟨fuel, rfl⟩ := Nat.exists_eq_add_of_le' (Nat.le_trans (Nat.le_add_left 1 _) le)
        have le := Nat.le_of_succ_le_succ le
        subst same
        let opened : Store := { store with heap := store.heap ++ [.sym name none] }
        let domained : Store := { store with heap := store.heap ++ [.sym name none] ++ extra }
        have copiedDom : (clone fuel domain).run opened = .ok (dom, domained) :=
          runDom fuel (Nat.le_trans (Nat.le_max_left _ _) le) opened rfl
        have third : (kid r 2).run domained = .ok (range, domained) :=
          run_kid_ok.mpr ⟨⟨_, _, _, loaded_append (loaded_append loaded' _) _, rfl⟩, rfl⟩
        have copied := run fuel (Nat.le_trans (Nat.le_max_right _ _) le) domained rfl
        rw [run_clone_pi loaded' symbol', run_bind_of_ok copiedDom, run_bind_of_ok third,
          run_bind_of_ok copied, split]
        rfl
  | @node env r op kids flag terms loaded plain len _ each =>
      intro news current renamed
      obtain ⟨flag', loaded'⟩ := renamed.agrees.cexpr loaded
      obtain ⟨enough, copies, extra, len', stands, run⟩ := copies_all len each renamed
      have returned : ∀ fuel (store : Store), store.heap = current → enough ≤ fuel →
          (clone (fuel + 1) r).run store =
            (if copies ≠ kids then new (.cexpr op copies false) else return r : StoreM Ref).run
              { store with heap := current ++ extra } := by
        intro fuel store same le
        have mapped := run fuel le store same
        subst same
        rw [run_clone_node loaded' plain.1 plain.2.1, run_bind_of_ok mapped]
      by_cases changed : copies = kids
      · refine ⟨enough + 1, r, extra, ?_, fun fuel le store same => ?_⟩
        · subst changed
          exact .node (loaded_append loaded' extra) plain len' stands
        · obtain ⟨fuel, rfl⟩ := Nat.exists_eq_add_of_le'
            (Nat.le_trans (Nat.le_add_left 1 enough) le)
          rw [returned fuel store same (Nat.le_of_succ_le_succ le), if_neg (not_not.mpr changed)]
          rfl
      · let made := current ++ extra
        have split : current ++ (extra ++ [Node.cexpr op copies false]) =
            made ++ [.cexpr op copies false] := by simp [made]
        refine ⟨enough + 1, made.length, extra ++ [.cexpr op copies false], ?_,
          fun fuel le store same => ?_⟩
        · rw [split]
          have new : (made ++ [Node.cexpr op copies false])[made.length]? =
              some (.cexpr op copies false) := by simp
          exact .node new plain len' fun copy term member =>
            (stands copy term member).frame (agrees_append _ _ _)
        · obtain ⟨fuel, rfl⟩ := Nat.exists_eq_add_of_le'
            (Nat.le_trans (Nat.le_add_left 1 enough) le)
          rw [returned fuel store same (Nat.le_of_succ_le_succ le), if_pos changed, split]
          rfl

end Lfsc
