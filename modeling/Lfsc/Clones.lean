import Lfsc.FreshCopies

/-!
# Clones

`clone` makes a copy that stands for what the expression stands for, with new binders, and leaves
every object as it was.  Where no value mentions a symbol bound around it, the copy is the expansion
of the expression.
-/

namespace Lfsc

open Exec

/-! ## What a run allocates -/

/-- In every heap that renames the binders in scope, what is allocated while an expression is copied
belongs to the copy. -/
def CopiesAnew (heap : List Node) (env : List Ref) (r : Ref) : Prop :=
  ∀ news current, Renamed heap env news current → AllAllocated current →
    ∀ fuel (store after : Store) copy, store.heap = current →
      (clone fuel r).run store = .ok (copy, after) →
        ∃ extra, { store with heap := current ++ extra } = after ∧
          Copying current [r] [r] [copy] extra

theorem not_run_clone_zero {r copy : Ref} {store after : Store} :
    (clone 0 r).run store ≠ .ok (copy, after) :=
  fun run => (run_stop_ok.mp run).elim

/-- An object without children is its own copy. -/
theorem copying_leaf {heap : List Node} {r : Ref} {node : Node} (allocated : AllAllocated heap)
    (loaded : heap[r]? = some node) (leaf : ∀ op kids flag, node ≠ .cexpr op kids flag) :
    Copying heap [r] [r] [r] [] := by
  refine copying_self allocated (List.getElem?_eq_some_iff.mp loaded).1 ?_
  rintro a binder body within ⟨op, kids, flag, -, loaded', -⟩
  rcases within.cases_head with rfl | ⟨next, ⟨op', kids', flag', loaded'', -⟩, -⟩
  · exact leaf _ _ _ (Option.some.inj (loaded.symm.trans loaded'))
  · exact leaf _ _ _ (Option.some.inj (loaded.symm.trans loaded''))

/-- A leaf that is copied by returning it. -/
theorem copiesAnew_self {heap : List Node} {env : List Ref} {r : Ref}
    (leaf : ∀ news current, Renamed heap env news current →
      ∃ node, current[r]? = some node ∧ ∀ op kids flag, node ≠ .cexpr op kids flag)
    (returned : ∀ news current, Renamed heap env news current → ∀ fuel (store : Store),
      store.heap = current → (clone (fuel + 1) r).run store = .ok (r, store)) :
    CopiesAnew heap env r := by
  intro news current renamed allocated fuel store after copy same run
  cases fuel with
  | zero => exact (not_run_clone_zero run).elim
  | succ fuel =>
      rw [returned news current renamed fuel store same] at run
      cases run
      obtain ⟨node, loaded, childless⟩ := leaf news current renamed
      subst same
      exact ⟨[], by simp, copying_leaf allocated loaded childless⟩

/-- An object that is copied by copying its value. -/
theorem copiesAnew_value {heap : List Node} {env : List Ref} {r val : Ref}
    (copies : CopiesAnew heap env val)
    (linked : ∀ news current, Renamed heap env news current → valOf current r = some val)
    (passes : ∀ news current, Renamed heap env news current → ∀ fuel (store : Store),
      store.heap = current → (clone (fuel + 1) r).run store = (clone fuel val).run store) :
    CopiesAnew heap env r := by
  intro news current renamed allocated fuel store after copy same run
  cases fuel with
  | zero => exact (not_run_clone_zero run).elim
  | succ fuel =>
      rw [passes news current renamed fuel store same] at run
      obtain ⟨extra, grown, copying⟩ :=
        copies news current renamed allocated fuel store after copy same run
      exact ⟨extra, grown, copying.value (linked news current renamed)⟩

/-- Children are copied one after the other. -/
theorem copiesAnew_all {heap : List Node} {env kids : List Ref}
    (each : ∀ kid ∈ kids, CopiesAnew heap env kid) {news : List Ref} {current : List Node}
    (renamed : Renamed heap env news current) (allocated : AllAllocated current)
    (inside : ∀ kid ∈ kids, kid < current.length) {fuel : Nat} {store after : Store}
    {copies : List Ref} (same : store.heap = current)
    (run : (kids.mapM (clone fuel)).run store = .ok (copies, after)) :
    ∃ extra, { store with heap := current ++ extra } = after ∧
      Copying current kids kids copies extra := by
  induction kids generalizing copies current store with
  | nil =>
      rw [List.mapM_nil] at run
      obtain ⟨rfl, rfl⟩ := run_pure_ok.mp run
      subst same
      exact ⟨[], by simp, copying_nil allocated⟩
  | cons kid kids hyp =>
      rw [List.mapM_cons] at run
      obtain ⟨middle, copy, first, rest⟩ := run_bind_ok.mp run
      obtain ⟨last, copies', second, result⟩ := run_bind_ok.mp rest
      obtain ⟨rfl, rfl⟩ := run_pure_ok.mp result
      obtain ⟨extra, rfl, copying⟩ := each kid List.mem_cons_self news current renamed allocated
        fuel store middle copy same first
      obtain ⟨more, rfl, copying'⟩ := hyp
        (fun other member => each other (List.mem_cons_of_mem _ member)) (renamed.append extra)
        copying.allocated (fun other member => Nat.lt_of_lt_of_le
          (inside other (List.mem_cons_of_mem _ member)) (by simp)) rfl second
      refine ⟨extra ++ more, by rw [List.append_assoc], ?_⟩
      exact copying.append allocated copying' fun other member =>
        .inl (inside other (List.mem_cons_of_mem _ member))

/-- The body of an abstraction is copied while the binder stands for the new one. -/
theorem copiesAnew_under {heap : List Node} {env : List Ref} {var body new : Ref}
    {name text : String} {val : Option Ref} (copies : CopiesAnew heap (var :: env) body)
    (symbol : heap[var]? = some (.sym name val)) {news : List Ref} {current : List Node}
    (renamed : Renamed heap env news current) (allocated : AllAllocated current)
    (unset : current[new]? = some (.sym text none)) (beyond : heap.length ≤ new)
    (other : new ∉ news) {fuel : Nat} {store after : Store} {copy : Ref}
    (same : store.heap = current)
    (run : (cloneUnder (clone fuel) var new body).run store = .ok (copy, after)) :
    ∃ extra, { store with heap := current ++ extra } = after ∧
      Copying (current.set var (.sym name (some new))) [body] [body] [copy] extra := by
  obtain ⟨prev, loaded, -⟩ := renamed.agrees.sym symbol
  have inside := (List.getElem?_eq_some_iff.mp loaded).1
  subst same
  unfold cloneUnder at run
  have read : (symVal var).run store = .ok (prev, store) := run_symVal_ok.mpr ⟨⟨name, loaded⟩, rfl⟩
  have set : (setSymVal var (some new)).run store =
      .ok ((), { store with heap := store.heap.set var (.sym name (some new)) }) :=
    run_setSymVal_ok.mpr ⟨name, prev, loaded, rfl⟩
  rw [run_bind_of_ok read, run_bind_of_ok set] at run
  obtain ⟨middle, copy', copied, rest⟩ := run_bind_ok.mp run
  have opened : AllAllocated (store.heap.set var (.sym name (some new))) := by
    intro a b mentions
    rw [List.length_set]
    by_cases here : a = var
    · subst here
      rw [mentions_assignee loaded mentions]
      exact (List.getElem?_eq_some_iff.mp unset).1
    · exact allocated a b ((mentions_assigned here).mp mentions)
  obtain ⟨extra, rfl, copying⟩ := copies _ _ (renamed.bind symbol loaded unset beyond other) opened
    fuel _ middle copy' rfl copied
  obtain ⟨done, result, reset, returned⟩ := run_bind_ok.mp rest
  obtain ⟨rfl, rfl⟩ := run_pure_ok.mp returned
  obtain ⟨text', old, found, rfl⟩ := run_setSymVal_ok.mp reset
  have assigned : (store.heap.set var (.sym name (some new)) ++ extra)[var]? =
      some (.sym name (some new)) :=
    loaded_append (List.getElem?_set_self inside) extra
  obtain ⟨rfl, -⟩ : name = text' ∧ some new = old := by simpa [assigned] using found
  exact ⟨extra, by rw [set_append_set loaded], copying⟩

/-- Whatever is allocated while an expression is copied belongs to the copy. -/
theorem Denotes.copiesAnew {names : Names} {heap : List Node} {env : List Ref} {r : Ref}
    {t : Lambda.Term Leaf} (denotes : Denotes names heap env r t) : CopiesAnew heap env r := by
  induction denotes with
  | @int env r value loaded =>
      refine copiesAnew_self (fun news current renamed => ⟨_, renamed.agrees.int loaded, by simp⟩)
        fun news current renamed fuel store same => ?_
      have loaded' := renamed.agrees.int loaded
      subst same
      exact run_clone_leaf loaded' (by simp [valOf, loaded']) (by simp)
  | @rat env r value loaded =>
      refine copiesAnew_self (fun news current renamed => ⟨_, renamed.agrees.rat loaded, by simp⟩)
        fun news current renamed fuel store same => ?_
      have loaded' := renamed.agrees.rat loaded
      subst same
      exact run_clone_leaf loaded' (by simp [valOf, loaded']) (by simp)
  | @unfilled env r loaded =>
      refine copiesAnew_self (fun news current renamed => ⟨_, renamed.agrees.hole loaded, by simp⟩)
        fun news current renamed fuel store same => ?_
      have loaded' := renamed.agrees.hole loaded
      subst same
      exact run_clone_leaf loaded' (by simp [valOf, loaded']) (by simp)
  | @filled env r val t loaded _ hyp =>
      refine copiesAnew_value hyp (fun news current renamed => ?_)
        fun news current renamed fuel store same => ?_
      · simp [valOf, renamed.agrees.hole loaded]
      · exact run_clone_hole (same ▸ renamed.agrees.hole loaded)
  | @bound env r name val loaded member =>
      intro news current renamed allocated fuel store after copy same run
      obtain ⟨name', new, text, assigned, found, unset⟩ := renamed.stands r member
      have linked : valOf current r = some new := by simp [valOf, assigned]
      have copying : Copying current [r] [r] [new] [] :=
        (copying_leaf allocated unset (by simp)).value linked
      subst same
      have other : opOf store.heap new ≠ some .prog := by simp [opOf, unset]
      have inside := (List.getElem?_eq_some_iff.mp unset).1
      rcases fuel with _ | _ | fuel
      · exact (not_run_clone_zero run).elim
      · rw [run_clone_sym assigned inside other] at run
        exact (not_run_clone_zero run).elim
      · rw [run_clone_sym assigned inside other,
          run_clone_leaf unset (by simp [valOf, unset]) (by simp)] at run
        cases run
        exact ⟨[], by simp, copying⟩
  | @free env r name loaded outside named =>
      refine copiesAnew_self
        (fun news current renamed => ⟨_, renamed.agrees.keptSym outside loaded, by simp⟩)
        fun news current renamed fuel store same => ?_
      have loaded' := renamed.agrees.keptSym outside loaded
      subst same
      exact run_clone_leaf loaded' (by simp [valOf, loaded']) (by simp)
  | @prog env r val name loaded outside named program =>
      refine copiesAnew_self
        (fun news current renamed => ⟨_, renamed.agrees.keptSym outside loaded, by simp⟩)
        fun news current renamed fuel store same => ?_
      subst same
      have same := renamed.agrees.opOf_eq (lt_length_of_opOf program)
      exact run_clone_prog (renamed.agrees.keptSym outside loaded) (same.trans program)
  | @defined env r val name t loaded outside named other value hyp =>
      refine copiesAnew_value hyp (fun news current renamed => ?_)
        fun news current renamed fuel store same => ?_
      · simp [valOf, renamed.agrees.keptSym outside loaded]
      · subst same
        have op := renamed.agrees.opOf_eq value.allocated
        exact run_clone_sym (renamed.agrees.keptSym outside loaded)
          (Nat.lt_of_lt_of_le value.allocated renamed.agrees.length_le) (op ▸ other)
  | @lam env r var body flag name val t loaded symbol named _ hyp =>
      intro news current renamed allocated fuel store after copy same run
      obtain ⟨flag', loaded'⟩ := renamed.agrees.cexpr loaded
      obtain ⟨val', symbol', -⟩ := renamed.agrees.sym symbol
      subst same
      cases fuel with
      | zero => exact (not_run_clone_zero run).elim
      | succ fuel =>
          rw [run_clone_lam loaded' symbol'] at run
          obtain ⟨middle, body', first, made⟩ := run_bind_ok.mp run
          obtain ⟨rfl, rfl⟩ := run_new_ok.mp made
          have opened := (copying_symbol allocated symbol').allocated
          obtain ⟨inner, rfl, copying⟩ := copiesAnew_under hyp symbol (renamed.append [_]) opened
            (newSymbol_loaded _ name) renamed.agrees.length_le renamed.new_notMem rfl first
          have none := copying_nil opened
          rw [← List.append_nil (store.heap ++ [Node.sym name .none])] at copying
          have built : Copying store.heap [r] [r] _ _ :=
            Copying.abstraction allocated loaded' (fun _ => rfl) symbol' none copying
          refine ⟨_, ?_, by simpa using built⟩
          simp
  | @pi env r var domain range flag name val d t loaded symbol named _ _ outer under =>
      intro news current renamed allocated fuel store after copy same run
      obtain ⟨flag', loaded'⟩ := renamed.agrees.cexpr loaded
      obtain ⟨val', symbol', -⟩ := renamed.agrees.sym symbol
      subst same
      cases fuel with
      | zero => exact (not_run_clone_zero run).elim
      | succ fuel =>
          rw [run_clone_pi loaded' symbol'] at run
          obtain ⟨middle, domain', first, rest⟩ := run_bind_ok.mp run
          have opened := (copying_symbol allocated symbol').allocated
          obtain ⟨outside, rfl, copyingDom⟩ := outer news _ (renamed.append [.sym name none]) opened
            fuel _ middle domain' rfl first
          have third : (kid r 2).run { store with
              heap := store.heap ++ [.sym name none] ++ outside } = .ok (range, { store with
              heap := store.heap ++ [.sym name none] ++ outside }) :=
            run_kid_ok.mpr ⟨⟨_, _, _, loaded_append (loaded_append loaded' _) _, rfl⟩, rfl⟩
          rw [run_bind_of_ok third] at rest
          obtain ⟨last, range', second, made⟩ := run_bind_ok.mp rest
          obtain ⟨rfl, rfl⟩ := run_new_ok.mp made
          obtain ⟨inner, rfl, copying⟩ := copiesAnew_under under symbol
            ((renamed.append [_]).append outside) copyingDom.allocated
            (loaded_append (newSymbol_loaded _ name) outside) renamed.agrees.length_le
            renamed.new_notMem rfl second
          have built : Copying store.heap [r] [r] _ _ :=
            Copying.abstraction allocated loaded' (fun _ => rfl) symbol' copyingDom copying
          refine ⟨_, ?_, by simpa using built⟩
          simp
  | @node env r op kids flag terms loaded plain len _ each =>
      intro news current renamed allocated fuel store after copy same run
      obtain ⟨flag', loaded'⟩ := renamed.agrees.cexpr loaded
      have inside : ∀ kid ∈ kids, kid < current.length := fun kid member =>
        allocated r kid ⟨_, loaded', member⟩
      have copied : ∀ kid ∈ kids, CopiesAnew heap env kid := by
        intro kid member
        obtain ⟨term, pair⟩ := exists_mem_zip_of_mem len member
        exact each kid term pair
      subst same
      cases fuel with
      | zero => exact (not_run_clone_zero run).elim
      | succ fuel =>
          rw [run_clone_node loaded' plain.1 plain.2.1] at run
          obtain ⟨middle, copies, mapped, rest⟩ := run_bind_ok.mp run
          obtain ⟨extra, rfl, copying⟩ := copiesAnew_all copied renamed allocated inside rfl mapped
          split at rest
          · obtain ⟨rfl, rfl⟩ := run_new_ok.mp rest
            exact ⟨_, by simp, copying.rebuilt loaded' plain.1 plain.2.1⟩
          · rename_i same
            obtain rfl : copies = kids := not_not.mp same
            obtain ⟨rfl, rfl⟩ := run_pure_ok.mp rest
            obtain ⟨rfl, unchanged⟩ := copying.unchanged allocated loaded' plain.1 plain.2.1
            exact ⟨[], rfl, unchanged⟩

/-! ## Copies of expressions -/

/-- `clone` returns a copy whose binders are new, and changes no object. -/
structure Clones (heap : List Node) (r copy : Ref) (extra : List Node) : Prop where
  returns : ∃ enough, ∀ fuel, enough ≤ fuel → ∀ store : Store, store.heap = heap →
    (clone fuel r).run store = .ok (copy, { store with heap := heap ++ extra })
  mirrors : Mirrors (heap ++ extra) r copy
  /-- The binder of an abstraction of the copy occurs in the abstraction only. -/
  binders : ∀ a binder body, Within (heap ++ extra) copy a →
    Abstracts (heap ++ extra) a binder body → heap.length ≤ a ∧ heap.length ≤ binder ∧
      (∀ a' body', Abstracts (heap ++ extra) a' binder body' → a' = a) ∧
        ∀ b, Refers (heap ++ extra) b binder → b = a ∨ Within (heap ++ extra) body b

theorem Copying.clones {heap extra : List Node} {r copy : Ref}
    (copying : Copying heap [r] [r] [copy] extra) {enough : Nat}
    (run : ∀ fuel, enough ≤ fuel → ∀ store : Store, store.heap = heap →
      (clone fuel r).run store = .ok (copy, { store with heap := heap ++ extra })) :
    Clones heap r copy extra := by
  refine ⟨⟨enough, run⟩, copying.mirrors r copy (by simp), ?_⟩
  intro a binder body within abstracts
  have above := copying.renewed copy (List.mem_singleton_self _) a binder body within abstracts
  obtain ⟨fresh, -, sole, only⟩ := copying.owned a binder body above abstracts
  exact ⟨above, fresh, sole, only⟩

theorem Unvalued.append {heap : List Node} {x : Ref} (unvalued : Unvalued heap x)
    (allocated : AllAllocated heap) (extra : List Node) : Unvalued (heap ++ extra) x := by
  obtain ⟨name, val, loaded, program⟩ := unvalued
  refine ⟨name, val, loaded_append loaded extra, fun v assigned => ?_⟩
  have inside : v < heap.length := allocated x v
    ⟨_, loaded, by simpa [Node.mentions] using assigned⟩
  rw [opOf_append inside]
  exact program v assigned

/-- A clone stands for what the expression stands for, with each value in its place.  Where no value
mentions a symbol bound around it, this is the expansion of the expression. -/
theorem clone_expands {heap : List Node} {captures : Prop} {r : Ref}
    (expression : Expression heap captures [] [] r) (allocated : AllAllocated heap) :
    ∃ copy extra t, Clones heap r copy extra ∧ Denotes .any heap [] r t ∧
      Expands (heap ++ extra) [] copy t ∧ (¬ captures → Expands heap [] r t) := by
  obtain ⟨t, denotes, expands⟩ := expression.exists_term
  obtain ⟨enough, copy, extra, stands, run⟩ := denotes.copies [] heap (renamed_nil heap)
  obtain ⟨extra', same, copying⟩ := denotes.copiesAnew [] heap (renamed_nil heap) allocated enough
    ⟨heap, fun _ _ => false, fun _ => false, 0⟩ _ copy rfl (run enough (Nat.le_refl _) _ rfl)
  obtain rfl : extra' = extra := List.append_cancel_left (congrArg Store.heap same)
  refine ⟨copy, extra', t, copying.clones run, denotes, stands.expands ?_, expands⟩
  exact fun x named => named.2.append allocated extra'

/-- The body of `λx. y h`, where `x` has a leftover value, `y` has a value, and the hole `h` is
filled with `x`, is copied with all of them in place. -/
theorem leftover_clone_expands :
    let heap : List Node := [.sym "x" (some 1), .int 3, .sym "y" (some 1), .hole (some 0),
      .cexpr .app [2, 3] false, .cexpr .lam [0, 4] true]
    ∃ copy extra t, Clones heap 5 copy extra ∧ Denotes .any heap [] 5 t ∧
      Expands (heap ++ extra) [] copy t ∧ (¬ False → Expands heap [] 5 t) := by
  intro heap
  have y : Expression heap False [] [0] 2 :=
    .defined rfl (by decide) (by simp) (by decide) (.int rfl)
  have h : Expression heap False [] [0] 3 := .filled rfl (.bound rfl (by decide))
  have body : Expression heap False [] [0] 4 := .node rfl (by decide) (by simp [y, h])
  exact clone_expands (.lam rfl rfl body) (allAllocated_of_forall (by decide))

/-- `λx. y` where the value of `y` is `x`. -/
def capturedHeap : List Node := [.sym "x" none, .sym "y" (some 0), .cexpr .lam [0, 1] false]

/-- A value that mentions a symbol bound around it is captured. -/
theorem clone_captures : ¬ ∀ (heap : List Node) (r : Ref), AllAllocated heap →
    Expression heap True [] [] r → ∃ copy extra t, Clones heap r copy extra ∧
      Expands heap [] r t ∧ Expands (heap ++ extra) [] copy t := by
  intro all
  have value : Expression capturedHeap True ([0] ++ []) [] 0 :=
    .free rfl (by simp) fun _ => trivial
  have body : Expression capturedHeap True [] [0] 1 :=
    .defined rfl (by decide) (by simp) (by decide) value
  obtain ⟨copy, extra, t, clones, expands, copied⟩ :=
    all capturedHeap 2 (allAllocated_of_forall (by decide)) (.lam rfl rfl body)
  obtain ⟨enough, returns⟩ := clones.returns
  let store : Store := ⟨capturedHeap, fun _ _ => false, fun _ => false, 0⟩
  have run : (clone (enough + 4) 2).run store = .ok (4, { store with
      heap := capturedHeap ++ [.sym "x" none, .cexpr .lam [3, 3] false] }) := rfl
  have same := (returns (enough + 4) (Nat.le_add_right _ _) store rfl).symm.trans run
  obtain ⟨rfl, grown⟩ := Prod.mk.inj (Except.ok.inj same)
  obtain rfl : extra = [.sym "x" none, .cexpr .lam [3, 3] false] :=
    List.append_cancel_left (congrArg Store.heap grown)
  obtain ⟨inner, rfl, under⟩ := expands.lam_inv rfl
  obtain ⟨inner', same', under'⟩ := copied.lam_inv rfl
  obtain rfl : inner = inner' := Lambda.Term.lam.inj same'
  have bound : inner = .bvar 0 := by simpa using under'.sym_inv rfl
  have free : inner = .leaf (.sym 0) := by
    have value : Expands capturedHeap [] 0 inner := by
      simpa [capturedHeap, opOf] using under.sym_inv rfl
    simpa using value.sym_inv rfl
  rw [bound] at free
  cases free

end Lfsc
