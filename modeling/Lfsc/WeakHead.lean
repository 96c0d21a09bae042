import Lfsc.Cloning
import Lfsc.Modes

/-!
# Weak head reduction

Where the first child of an application stands for an abstraction directly, `whr` contracts the head
redex with the arguments in order and assigns no symbol but binders.  Where that child is itself an
application, its head is taken for the binder and a defined symbol is overwritten.
-/

namespace Lfsc

open Exec Lambda

/-! ## Binders and arguments -/

/-- The binders of an abstraction and of the abstractions that are its body in turn. -/
inductive LeadingBinder (heap : List Node) : Ref → Ref → Prop
  | here {head var body : Ref} {flag : Bool}
      (loaded : heap[head]? = some (.cexpr .lam [var, body] flag)) : LeadingBinder heap head var
  | inner {head var body x : Ref} {flag : Bool}
      (loaded : heap[head]? = some (.cexpr .lam [var, body] flag))
      (deeper : LeadingBinder heap body x) : LeadingBinder heap head x

/-- Binders were assigned to arguments, the last one first, whose terms are `values`.  No binder
occurs free in an argument. -/
structure Assigned (binder : Ref → Prop) (heap current : List Node) (xs : List Ref)
    (values : List (Term Leaf)) : Prop where
  agrees : SameObjects (· ∉ xs) heap current
  binders : ∀ x ∈ xs, binder x
  stands : ∀ x ∈ xs, ∃ value, values[xs.idxOf x]? = some value ∧
    Denotes ⟨fun _ => True, fun y => ¬ binder y ∨ y = x⟩ current [] x value

/-- An argument, whose free symbols are no binders. -/
abbrev Argument (binder : Ref → Prop) (heap : List Node) (arg : Ref) (t : Term Leaf) : Prop :=
  Denotes ⟨fun _ => True, fun x => ¬ binder x⟩ heap [] arg t

theorem Assigned.argument {binder : Ref → Prop} {heap current : List Node} {xs : List Ref}
    {values : List (Term Leaf)} (assigned : Assigned binder heap current xs values) {arg : Ref}
    {t : Term Leaf} (denotes : Argument binder heap arg t) : Argument binder current arg t :=
  denotes.frame (assigned.agrees.mono fun x other member => other (assigned.binders x member))

/-- One more binder is assigned. -/
theorem Assigned.assign {binder : Ref → Prop} {heap current : List Node} {xs : List Ref}
    {values : List (Term Leaf)} (assigned : Assigned binder heap current xs values)
    {var arg last : Ref} {name : String} {old val : Option Ref} {t : Term Leaf}
    (symbol : heap[var]? = some (.sym name val)) (loaded : current[var]? = some (.sym name old))
    (isBinder : binder var) (denotes : Argument binder heap arg t)
    (followed : followDefs current arg = some last) :
    Assigned binder heap (current.set var (.sym name (some last))) (var :: xs) (t :: values) := by
  have frame := agrees_setSym loaded (some last)
  refine ⟨?_, List.forall_mem_cons.mpr ⟨isBinder, assigned.binders⟩, fun x member => ?_⟩
  · have grown : SameObjects (· ∉ var :: xs) heap current :=
      assigned.agrees.mono fun x outside => List.not_mem_of_not_mem_cons outside
    exact grown.trans (frame.mono fun x outside => List.ne_of_not_mem_cons outside)
  · by_cases same : x = var
    · subst same
      have set : (current.set x (.sym name (some last)))[x]? = some (.sym name (some last)) :=
        List.getElem?_set_self (List.getElem?_eq_some_iff.mp loaded).1
      refine ⟨t, by simp, ?_⟩
      refine (assigned.argument denotes).assigned followed (frame.mono ?_) set (.inr rfl) ?_ ?_
      · rintro y other rfl
        exact other isBinder
      · exact fun _ _ => trivial
      · exact fun y other => .inl other
    · have member' : x ∈ xs := (List.mem_cons.mp member).resolve_left same
      obtain ⟨value, found, stands⟩ := assigned.stands x member'
      refine ⟨value, ?_, stands.frame (frame.mono ?_)⟩
      · rw [List.idxOf_cons_ne _ (Ne.symm same)]
        exact found
      · rintro y (other | rfl) rfl
        · exact other isBinder
        · exact same rfl

/-! ## The loop of `whr` -/

/-- What the loop of `whr` leaves. -/
structure Contraction where
  /-- The body that is left. -/
  body : Ref
  /-- The arguments that are left. -/
  left : List Ref
  /-- The objects. -/
  final : List Node
  /-- The binders that were assigned, the last one first. -/
  vars : List Ref
  /-- The terms of the arguments that were used. -/
  used : List (Term Leaf)
  /-- The terms of the arguments that are left. -/
  rest : List (Term Leaf)
  /-- The term of the body under the binders. -/
  inner : Term Leaf

/-- Of an abstraction under some binders and its arguments, some were used in order, and their terms
stand for the binders. -/
structure Contraction.Of (c : Contraction) (binder : Ref → Prop) (heap current : List Node)
    (xs : List Ref) (values : List (Term Leaf)) (head : Ref) (fn : Term Leaf)
    (terms : List (Term Leaf)) : Prop where
  terms_eq : terms = c.used ++ c.rest
  used : c.used ≠ []
  length : c.left.length = c.rest.length
  left : ∀ arg t, (arg, t) ∈ c.left.zip c.rest → Argument binder heap arg t
  fn_eq : fn = Term.lams c.used.length c.inner
  inner : Denotes ⟨binder, fun _ => True⟩ heap (c.vars ++ xs) c.body c.inner
  assigned : Assigned binder heap c.final (c.vars ++ xs) (c.used.reverse ++ values)
  stops : c.left = [] ∨ opOf heap c.body ≠ some .lam
  kept : ∀ y, ¬ LeadingBinder heap head y → c.final[y]? = current[y]?

theorem Denotes.lam_inv {names : Names} {heap : List Node} {env : List Ref} {head : Ref}
    {fn : Term Leaf} (denotes : Denotes names heap env head fn)
    (lam : opOf heap head = some .lam) : ∃ var body flag name val t,
      heap[head]? = some (.cexpr .lam [var, body] flag) ∧ heap[var]? = some (.sym name val) ∧
      names.binder var ∧ Denotes names heap (var :: env) body t ∧ fn = .lam t := by
  cases denotes with
  | int loaded | rat loaded | unfilled loaded | filled loaded | bound loaded | free loaded
  | prog loaded | defined loaded | pi loaded => simp [opOf, loaded] at lam
  | lam loaded symbol named under => exact ⟨_, _, _, _, _, _, loaded, symbol, named, under, rfl⟩
  | node loaded plain =>
      exact absurd (Option.some.inj ((opOf_of_load loaded).symm.trans lam)) plain.1

/-- The loop of `whr` assigns the binders of an abstraction to its arguments in order. -/
theorem run_assignBinders {binder : Ref → Prop} {heap : List Node} {args : List Ref}
    {terms values : List (Term Leaf)} {xs : List Ref} {current : List Node} {head : Ref}
    {fn : Term Leaf} (some_ : args ≠ []) (len : args.length = terms.length)
    (lam : opOf heap head = some .lam)
    (denotes : Denotes ⟨binder, fun _ => True⟩ heap xs head fn)
    (each : ∀ arg t, (arg, t) ∈ args.zip terms → Argument binder heap arg t)
    (assigned : Assigned binder heap current xs values) :
    ∃ c : Contraction, c.Of binder heap current xs values head fn terms ∧
      ∀ store : Store, store.heap = current → (assignBinders head args).run store =
        .ok ((c.body, c.left), { store with heap := c.final }) := by
  induction args generalizing terms values xs current head fn with
  | nil => exact absurd rfl some_
  | cons arg rest hyp =>
      cases terms with
      | nil => exact absurd len (by simp)
      | cons term terms =>
          obtain ⟨var, body, flag, name, val, t, loaded, symbol, isBinder, under, rfl⟩ :=
            denotes.lam_inv lam
          obtain ⟨flag', loaded'⟩ := assigned.agrees.cexpr loaded
          obtain ⟨old, symbol', -⟩ := assigned.agrees.sym symbol
          have first := each arg term (by simp)
          obtain ⟨last, followed⟩ := (assigned.argument first).exists_followDefs
          have next := assigned.assign symbol symbol' isBinder first followed
          let bound := current.set var (.sym name (some last))
          obtain ⟨flag'', loaded''⟩ := (agrees_setSym symbol' (some last)).cexpr loaded'
          have op : opOf bound body = opOf heap body := next.agrees.opOf_eq under.allocated
          have steps : ∀ store : Store, store.heap = current →
            (assignBinders head (arg :: rest)).run store =
              (if opOf heap body = some .lam ∧ rest ≠ [] then assignBinders body rest
                else return (body, rest) :
                  StoreM (Ref × List Ref)).run { store with heap := bound } := by
            rintro store rfl
            have value : (follow arg).run store = .ok (last, store) :=
              run_follow_ok.mpr ⟨followed, rfl⟩
            have first : (kid head 0).run store = .ok (var, store) :=
              run_kid_ok.mpr ⟨⟨_, _, _, loaded', rfl⟩, rfl⟩
            have set : (setSymVal var (some last)).run store =
                .ok ((), { store with heap := bound }) := run_setSymVal_ok.mpr ⟨_, _, symbol', rfl⟩
            have second : (kid head 1).run { store with heap := bound } =
                .ok (body, { store with heap := bound }) :=
              run_kid_ok.mpr ⟨⟨_, _, _, loaded'', rfl⟩, rfl⟩
            have read : (getop body).run { store with heap := bound } =
                .ok (opOf heap body, { store with heap := bound }) :=
              run_getop_ok.mpr ⟨Nat.lt_of_lt_of_le under.allocated next.agrees.length_le, op, rfl⟩
            rw [assignBinders, run_bind_of_ok value, run_bind_of_ok first, run_bind_of_ok set,
              run_bind_of_ok second, run_bind_of_ok read]
          have other : ∀ y, ¬ LeadingBinder heap head y → bound[y]? = current[y]? := by
            intro y outside
            refine List.getElem?_set_ne ?_
            rintro rfl
            exact outside (.here loaded)
          by_cases more : opOf heap body = some .lam ∧ rest ≠ []
          · obtain ⟨c, of, run⟩ := hyp more.2 (Nat.succ.inj len) more.1 under
              (fun arg t member => each arg t (by simp [member])) next
            refine ⟨{ c with vars := c.vars ++ [var], used := term :: c.used }, ?_,
              fun store same => ?_⟩
            · refine ⟨by rw [of.terms_eq]; rfl, by simp, of.length, of.left, ?_, ?_, ?_, of.stops,
                ?_⟩
              · rw [of.fn_eq]
                rfl
              · simpa using of.inner
              · simpa using of.assigned
              · intro y outside
                exact (of.kept y fun deeper => outside (.inner loaded deeper)).trans
                  (other y outside)
            · rw [steps store same, if_pos more]
              exact run _ rfl
          · refine ⟨⟨body, rest, bound, [var], [term], terms, t⟩, ?_, fun store same => ?_⟩
            · have stops : rest = [] ∨ opOf heap body ≠ some .lam := by tauto
              exact ⟨rfl, by simp, Nat.succ.inj len, fun arg t member =>
                each arg t (by simp [member]),
                rfl, by simpa using under, by simpa using next, stops, other⟩
            · rw [steps store same, if_neg more]
              rfl

/-! ## Reduction -/

theorem assigned_nil (binder : Ref → Prop) (heap : List Node) : Assigned binder heap heap [] [] :=
  ⟨sameObjects_refl _ heap, by simp, by simp⟩

/-- The binders of an abstraction are among those that its derivation meets. -/
theorem LeadingBinder.met {names : Names} {heap : List Node} {env : List Ref} {head x : Ref}
    {fn : Term Leaf} (leading : LeadingBinder heap head x)
    (denotes : Denotes names heap env head fn) : names.binder x := by
  induction leading generalizing env fn with
  | here loaded =>
      obtain ⟨_, _, _, _, _, _, loaded', _, named, -⟩ := denotes.lam_inv (opOf_of_load loaded)
      cases loaded.symm.trans loaded'
      exact named
  | inner loaded _ hyp =>
      obtain ⟨_, _, _, _, _, _, loaded', _, _, under, -⟩ := denotes.lam_inv (opOf_of_load loaded)
      cases loaded.symm.trans loaded'
      exact hyp under

/-- An application whose first child is no abstraction object. -/
def ReducedOnce (heap : List Node) (r : Ref) : Prop :=
  ∃ first args flag, heap[r]? = some (.cexpr .app (first :: args) flag) ∧
    opOf heap first ≠ some .lam

/-- The end of `whr`: the body that is left is applied to the arguments that are left. -/
theorem Contraction.Of.run_buildApp {c : Contraction} {binder : Ref → Prop} {heap : List Node}
    {head : Ref} {fn : Term Leaf} {terms : List (Term Leaf)}
    (of : c.Of binder heap heap [] [] head fn terms) :
    ∃ result extra, Denotes .any (c.final ++ extra) [] result
        ((c.inner.fill 0 c.used.reverse).apps c.rest) ∧
      (c.rest = [] ∨ ReducedOnce (c.final ++ extra) result) ∧
      ∀ store : Store, store.heap = c.final → (buildApp c.body c.left).run store =
        .ok (result, { store with heap := c.final ++ extra }) := by
  have filled : Denotes .any c.final [] c.body (c.inner.fill 0 c.used.reverse) := by
    have assigned := of.assigned
    simp only [List.append_nil] at assigned
    exact Denotes.fill assigned.agrees assigned.stands of.inner [] (by simp) (by simp)
  cases rest : c.left with
  | nil =>
      have none : c.rest = [] := List.length_eq_zero_iff.mp (by rw [← of.length, rest]; rfl)
      refine ⟨c.body, [], ?_, .inl none, fun store same => ?_⟩
      · rw [none, List.append_nil]
        exact filled
      · obtain ⟨heap', before, fewer, asked⟩ := store
        obtain rfl : heap' = c.final := same
        simp [buildApp]
  | cons arg left =>
      let app := Node.cexpr .app (c.body :: arg :: left) false
      have loaded : (c.final ++ [app])[c.final.length]? = some app := by simp
      refine ⟨c.final.length, [app], ?_, ?_, fun store same => ?_⟩
      · let body := c.inner.fill 0 c.used.reverse
        have len : (c.body :: arg :: left).length = (body :: c.rest).length := by
          have same := of.length
          rw [rest] at same
          exact congrArg Nat.succ same
        suffices each : ∀ kid term, (kid, term) ∈ (c.body :: arg :: left).zip (body :: c.rest) →
            Denotes .any (c.final ++ [app]) [] kid term from .node loaded (by simp) len each
        intro kid term member
        rw [← rest, List.zip_cons_cons] at member
        rcases List.mem_cons.mp member with same | member
        · obtain ⟨rfl, rfl⟩ := Prod.mk.inj same
          exact filled.frame (agrees_append _ _ _)
        · have denotes := of.assigned.argument (of.left kid term member)
          have any : Denotes .any c.final [] kid term :=
            Denotes.mono (fun _ _ => trivial) (fun _ _ => trivial) denotes
          exact any.frame (agrees_append _ _ _)
      · have grown := agrees_append (fun _ => True) c.final [app]
        have same := of.assigned.agrees.opOf_eq of.inner.allocated
        have stops := of.stops.resolve_left (by simp [rest])
        refine .inr ⟨c.body, arg :: left, false, loaded, ?_⟩
        rw [grown.opOf_eq (Nat.lt_of_lt_of_le of.inner.allocated of.assigned.agrees.length_le),
          same]
        exact stops
      · obtain ⟨heap', before, fewer, asked⟩ := store
        obtain rfl : heap' = c.final := same
        rfl

/-- An application whose first child stands for an abstraction directly. -/
structure DirectRedex (heap : List Node) (e : Ref) (args : List Ref) (head : Ref) : Prop where
  loaded : ∃ first flag, heap[e]? = some (.cexpr .app (first :: args) flag) ∧
    followDefs heap first = some head
  some_args : args ≠ []
  lam : opOf heap head = some .lam

/-- No binder of an abstraction, also deeper inside, occurs free in its arguments. -/
def Hygienic (heap : List Node) (head : Ref) (args : List Ref) : Prop :=
  ∃ binder : Ref → Prop,
    (∀ t, Denotes .any heap [] head t → Denotes ⟨binder, fun _ => True⟩ heap [] head t) ∧
    ∀ arg ∈ args, ∀ t, Denotes .any heap [] arg t → Argument binder heap arg t

theorem DirectRedex.run_getHead {heap : List Node} {e head : Ref} {args : List Ref}
    (redex : DirectRedex heap e args head) {store : Store} (same : store.heap = heap) :
    (getHead e true).run store = .ok (head, store) := by
  subst same
  obtain ⟨first, flag, loaded, followed⟩ := redex.loaded
  have inside := (List.getElem?_eq_some_iff.mp loaded).1
  have heap : getHeap.run store = .ok (store.heap, store) := rfl
  have op : (getop e).run store = .ok (some .app, store) :=
    run_getop_ok.mpr ⟨inside, opOf_of_load loaded, rfl⟩
  have kid : (kid e 0).run store = .ok (first, store) :=
    run_kid_ok.mpr ⟨⟨_, _, _, loaded, rfl⟩, rfl⟩
  have follow : (follow first).run store = .ok (head, store) := run_follow_ok.mpr ⟨followed, rfl⟩
  have op' : (getop head).run store = .ok (some .lam, store) :=
    run_getop_ok.mpr ⟨lt_length_of_opOf redex.lam, redex.lam, rfl⟩
  obtain ⟨steps, length⟩ := Nat.exists_eq_add_of_le' (Nat.succ_le_of_lt (Nat.zero_lt_of_lt inside))
  rw [getHead, run_bind_of_ok heap, length, headWithin_eq, run_bind_of_ok op, if_pos rfl,
    run_bind_of_ok kid, if_pos rfl, run_bind_of_ok follow]
  simp only
  rw [headWithin_eq, run_bind_of_ok op', if_neg (by simp)]
  rfl

theorem DirectRedex.run_collectArgs {heap : List Node} {e head : Ref} {args : List Ref}
    (redex : DirectRedex heap e args head) {store : Store} (same : store.heap = heap) :
    (collectArgs e true).run store = .ok ((head, args), store) := by
  subst same
  obtain ⟨first, flag, loaded, followed⟩ := redex.loaded
  have follow : (follow first).run store = .ok (head, store) := run_follow_ok.mpr ⟨followed, rfl⟩
  have load : (load e).run store = .ok (.cexpr .app (first :: args) flag, store) :=
    run_load_ok.mpr ⟨loaded, rfl⟩
  rw [collectArgs, run_bind_of_ok load]
  simp only [deref, List.getElem?_cons_zero, pure_bind, if_true, List.drop_succ_cons,
    List.drop_zero]
  rw [run_bind_of_ok follow]
  rfl

/-- The copy of an abstraction is an abstraction. -/
theorem opOf_clone_lam {r copy : Ref} {kids : List Ref} {flag : Bool} {fuel : Nat}
    {store after : Store} (loaded : store.heap[r]? = some (.cexpr .lam kids flag))
    (run : (clone fuel r).run store = .ok (copy, after)) : opOf after.heap copy = some .lam := by
  cases fuel with
  | zero => exact (run_stop_ok.mp run).elim
  | succ fuel =>
      rw [clone, run_bind_of_ok (run_load_ok.mpr ⟨loaded, rfl⟩)] at run
      obtain ⟨_, var, -, run⟩ := run_bind_ok.mp run
      obtain ⟨_, name, -, run⟩ := run_bind_ok.mp run
      obtain ⟨_, newvar, -, run⟩ := run_bind_ok.mp run
      obtain ⟨_, body, -, run⟩ := run_bind_ok.mp run
      obtain ⟨_, body', -, run⟩ := run_bind_ok.mp run
      obtain ⟨rfl, rfl⟩ := run_new_ok.mp run
      simp [opOf]

theorem valOf_setFlag {heap : List Node} {r : Ref} {op : Op} {kids : List Ref} {old flag : Bool}
    (loaded : heap[r]? = some (.cexpr op kids old)) (y : Ref) :
    valOf (heap.set r (.cexpr op kids flag)) y = valOf heap y := by
  by_cases same : r = y
  · subst same
    rw [valOf, valOf, loaded, List.getElem?_set_self (List.getElem?_eq_some_iff.mp loaded).1]
  · rw [valOf, valOf, List.getElem?_set_ne same]

theorem LeadingBinder.of_setFlag {heap : List Node} {r head y : Ref} {op : Op} {kids : List Ref}
    {old flag : Bool} (loaded : heap[r]? = some (.cexpr op kids old))
    (leading : LeadingBinder (heap.set r (.cexpr op kids flag)) head y) :
    LeadingBinder heap head y := by
  have back : ∀ {r' var body : Ref} {flag' : Bool},
      (heap.set r (.cexpr op kids flag))[r']? = some (.cexpr .lam [var, body] flag') →
      ∃ flag'', heap[r']? = some (.cexpr .lam [var, body] flag'') := by
    intro r' var body flag' found
    by_cases same : r = r'
    · subst same
      rw [List.getElem?_set_self (List.getElem?_eq_some_iff.mp loaded).1] at found
      cases found
      exact ⟨old, loaded⟩
    · rw [List.getElem?_set_ne same] at found
      exact ⟨flag', found⟩
  induction leading with
  | here found =>
      obtain ⟨_, found'⟩ := back found
      exact .here found'
  | inner found _ hyp =>
      obtain ⟨_, found'⟩ := back found
      exact .inner found' hyp

/-- The head of a direct redex and its arguments stand for terms. -/
theorem DirectRedex.terms {heap : List Node} {e head : Ref} {args : List Ref} {t : Term Leaf}
    (redex : DirectRedex heap e args head) (denotes : Denotes .any heap [] e t) :
    ∃ fn terms, t = fn.apps terms ∧ args.length = terms.length ∧ Denotes .any heap [] head fn ∧
      ∀ arg term, (arg, term) ∈ args.zip terms → Denotes .any heap [] arg term := by
  obtain ⟨first, flag, loaded, followed⟩ := redex.loaded
  cases denotes with
  | int loaded' | rat loaded' | unfilled loaded' | filled loaded' | bound loaded' | free loaded'
  | prog loaded' | defined loaded' | lam loaded' | pi loaded' => simp [loaded] at loaded'
  | @node _ _ op kids flag' terms loaded' plain len each =>
      cases loaded.symm.trans loaded'
      cases terms with
      | nil => exact absurd len (by simp)
      | cons fn terms =>
          refine ⟨fn, terms, rfl, Nat.succ.inj len, ?_, fun arg term member =>
            each arg term (by simp [member])⟩
          have head := each first fn (by simp)
          rcases head.followFor followed with ⟨stands, -⟩ | ⟨program, -⟩
          · exact stands
          · exact absurd (redex.lam.symm.trans program) (by simp)

/-- The head that `whr` contracts, chosen by the flag. -/
def contractedHead (fuel : Nat) (head : Ref) : StoreM Ref := do
  if ← getFlag head then clone fuel head
  else
    setFlag head true
    return head

theorem whr_eq (fuel : Nat) (r : Ref) : whr fuel r = (do
    if (← getop (← getHead r true)) = some .lam then
      let (head, args) ← collectArgs r true
      let head ← contractedHead fuel head
      let (body, rest) ← assignBinders head args
      buildApp body rest
    else return r) := by
  unfold whr contractedHead
  refine bind_congr fun top => bind_congr fun op => ?_
  split
  · refine bind_congr fun found => ?_
    obtain ⟨head, args⟩ := found
    dsimp only
    rw [bind_assoc]
    refine bind_congr fun flag => ?_
    cases flag
    · simp only [Bool.false_eq_true, if_false, bind_assoc]
    · rfl
  · rfl

/-- The head that `whr` contracts: a copy of the abstraction, or the abstraction itself when it is
met for the first time. -/
theorem DirectRedex.run_head {heap : List Node} {e head : Ref} {args : List Ref} {t : Term Leaf}
    (redex : DirectRedex heap e args head) (denotes : Denotes .any heap [] e t)
    (hygienic : (∃ kids, heap[head]? = some (.cexpr .lam kids true)) ∨ Hygienic heap head args) :
    ∃ enough head' heap' binder fn terms, t = fn.apps terms ∧ args.length = terms.length ∧
      opOf heap' head' = some .lam ∧ Denotes ⟨binder, fun _ => True⟩ heap' [] head' fn ∧
      (∀ arg term, (arg, term) ∈ args.zip terms → Argument binder heap' arg term) ∧
      heap.length ≤ heap'.length ∧ (∀ y < heap.length, valOf heap' y = valOf heap y) ∧
      (∀ y < heap.length, LeadingBinder heap' head' y →
        (∃ kids, heap[head]? = some (.cexpr .lam kids false)) ∧ LeadingBinder heap head y) ∧
      ∀ fuel, enough ≤ fuel → ∀ store : Store, store.heap = heap →
        (contractedHead fuel head).run store = .ok (head', { store with heap := heap' }) := by
  obtain ⟨fn, terms, rfl, len, stands, each⟩ := redex.terms denotes
  obtain ⟨var, body, flag, name, val, t', loaded, -⟩ := stands.lam_inv redex.lam
  cases flag with
  | true =>
      obtain ⟨enough, copy, extra, copied, run⟩ := stands.copies [] heap (renamed_nil heap)
      have lam : opOf (heap ++ extra) copy = some .lam :=
        opOf_clone_lam loaded (run enough (Nat.le_refl _)
          ⟨heap, fun _ _ => false, fun _ => false, 0⟩ rfl)
      have fresh : ∀ y < heap.length, ¬ LeadingBinder (heap ++ extra) copy y := fun y old leading =>
        Nat.not_lt.mpr (leading.met copied) old
      refine ⟨enough, copy, heap ++ extra, (heap.length ≤ ·), fn, terms, rfl, len, lam, ?_, ?_,
        by simp, ?_, ?_, ?_⟩
      · refine Denotes.mono ?_ ?_ copied
        · exact fun _ new => new
        · exact fun _ _ => trivial
      · intro arg term member
        have kept := ((each arg term member).inHeap).frame (agrees_append _ _ extra)
        refine Denotes.mono ?_ ?_ kept
        · exact fun _ _ => trivial
        · exact fun x named => Nat.not_le.mpr named.2
      · exact fun y old => valOf_append old
      · exact fun y old leading => absurd leading (fresh y old)
      · rintro fuel le store rfl
        have flag : (getFlag head).run store = .ok (true, store) := by
          rw [getFlag, run_bind_of_ok (run_load_ok.mpr ⟨loaded, rfl⟩)]
          rfl
        rw [contractedHead, run_bind_of_ok flag, if_pos rfl]
        exact run fuel le store rfl
  | false =>
      have unflagged : ¬ ∃ kids, heap[head]? = some (.cexpr .lam kids true) := by
        rintro ⟨kids, flagged⟩
        cases loaded.symm.trans flagged
      obtain ⟨binder, named, apart⟩ := hygienic.resolve_left unflagged
      have frame := fun kept => agrees_setFlag kept loaded true
      refine ⟨0, head, _, binder, fn, terms, rfl, len, ?_, (named fn stands).frame (frame _), ?_,
        by simp, ?_, ?_, ?_⟩
      · rw [(frame fun _ => True).opOf_eq (lt_length_of_opOf redex.lam), redex.lam]
      · intro arg term member
        exact (apart arg (List.of_mem_zip member).1 term (each arg term member)).frame (frame _)
      · exact fun y _ => valOf_setFlag loaded y
      · exact fun y _ leading => ⟨⟨_, loaded⟩, leading.of_setFlag loaded⟩
      · rintro fuel - store rfl
        have flag : (getFlag head).run store = .ok (false, store) := by
          rw [getFlag, run_bind_of_ok (run_load_ok.mpr ⟨loaded, rfl⟩)]
          rfl
        rw [contractedHead, run_bind_of_ok flag, if_neg (by simp),
          run_bind_of_ok (run_setFlag_cexpr loaded)]
        rfl

/-- Where the first child of an application stands for an abstraction directly, `whr` returns a term
equal to the application, obtained by contracting its head redex with the arguments in order, and
assigns no symbol but binders of the abstraction, which it reduces in place only when it is met for
the first time. -/
theorem whr_contracts_head {before : Store} {e head : Ref} {args : List Ref} {t : Term Leaf}
    (redex : DirectRedex before.heap e args head) (denotes : Denotes .any before.heap [] e t)
    (hygienic : (∃ kids, before.heap[head]? = some (.cexpr .lam kids true)) ∨
      Hygienic before.heap head args) :
    ∃ enough result after, (∀ fuel, enough ≤ fuel → (whr fuel e).run before = .ok (result, after)) ∧
      (∃ fn used rest body, t = Term.apps fn (used ++ rest) ∧ used ≠ [] ∧ Term.Feeds fn used body ∧
        Denotes .any after.heap [] result (body.apps rest) ∧ Term.BetaEq t (body.apps rest) ∧
        (rest = [] ∨ ReducedOnce after.heap result)) ∧
      ∀ y < before.heap.length, valOf after.heap y ≠ valOf before.heap y →
        (∃ kids, before.heap[head]? = some (.cexpr .lam kids false)) ∧
          LeadingBinder before.heap head y := by
  obtain ⟨enough, head', heap', binder, fn, terms, rfl, len, lam, stands, each, wider, kept,
    binders,
    runHead⟩ := redex.run_head denotes hygienic
  obtain ⟨c, of, runLoop⟩ := run_assignBinders redex.some_args len lam stands each
    (assigned_nil binder heap')
  obtain ⟨result, extra, stands', once, runBuild⟩ := of.run_buildApp
  have closed : ∀ value ∈ c.used, value.Closed := by
    intro value member
    have member' : value ∈ terms := by
      rw [of.terms_eq]
      exact List.mem_append_left _ member
    obtain ⟨arg, pair⟩ := exists_mem_zip len member'
    exact (each arg value pair).closedBelow
  have feeds : Term.Feeds fn c.used (c.inner.fill 0 c.used.reverse) := by
    rw [of.fn_eq]
    exact Term.feeds_lams closed c.inner
  refine ⟨enough, result, { before with heap := c.final ++ extra }, fun fuel le => ?_,
    ⟨fn, c.used, c.rest, _, by rw [of.terms_eq], of.used, feeds, stands', ?_, once⟩, ?_⟩
  · have op : (getop head).run before = .ok (some .lam, before) :=
      run_getop_ok.mpr ⟨lt_length_of_opOf redex.lam, redex.lam, rfl⟩
    have choose := runHead fuel le before rfl
    have loop := runLoop { before with heap := heap' } rfl
    have build := runBuild { before with heap := c.final } rfl
    rw [whr_eq, run_bind_of_ok (redex.run_getHead rfl), run_bind_of_ok op, if_pos rfl,
      run_bind_of_ok (redex.run_collectArgs rfl)]
    simp only
    rw [run_bind_of_ok choose, run_bind_of_ok loop]
    exact build
  · rw [of.terms_eq]
    exact feeds.betaEq c.rest
  · intro y old changed
    have grown : before.heap.length ≤ c.final.length :=
      Nat.le_trans wider of.assigned.agrees.length_le
    by_contra outside
    refine changed ?_
    have same : c.final[y]? = heap'[y]? := of.kept y fun leading => outside (binders y old leading)
    change valOf (c.final ++ extra) y = valOf before.heap y
    rw [valOf_append (Nat.lt_of_lt_of_le old grown), ← kept y old, valOf, valOf, same]

/-- Objects of the abstraction `f`, which is `fun x y => x`, the constants `a` and `c`, the
application `(f a)`, a variable `v` that stands for it, and the applications `(v c)` and
`(f a c)`. -/
def macroHeap : List Node :=
  [.sym "x" none, .sym "y" none, .cexpr .lam [1, 0] true, .cexpr .lam [0, 2] true,
    .sym "f" (some 3),
    .sym "a" none, .sym "c" none, .cexpr .app [4, 5] false, .sym "v" (some 7),
    .cexpr .app [8, 6] false, .cexpr .app [4, 5, 6] false]

/-- A store with these objects. -/
def macroStore : Store := ⟨macroHeap, fun _ _ => false, fun _ => false, 0⟩

/-- The term of `f`. -/
def constantFunction : Term Leaf := .lam (.lam (.bvar 1))

theorem denotes_macro_f : Denotes .any macroHeap [] 4 constantFunction := by
  have x : macroHeap[0]? = some (.sym "x" none) := rfl
  have y : macroHeap[1]? = some (.sym "y" none) := rfl
  have f : macroHeap[4]? = some (.sym "f" (some 3)) := rfl
  have body : Denotes .any macroHeap [1, 0] 0 (.bvar 1) := .bound x (by decide)
  have inner : Denotes .any macroHeap [0] 2 (.lam (.bvar 1)) := .lam rfl y trivial body
  exact .defined f (by decide) trivial (by decide) (.lam rfl x trivial inner)

theorem denotes_macro_const {r : Ref} {name : String}
    (loaded : macroHeap[r]? = some (.sym name none)) :
    Denotes .any macroHeap [] r (.leaf (.sym r)) :=
  .free loaded List.not_mem_nil trivial

theorem denotes_app {heap : List Node} {r head arg : Ref} {flag : Bool} {fn term : Term Leaf}
    (loaded : heap[r]? = some (.cexpr .app [head, arg] flag))
    (fnStands : Denotes .any heap [] head fn)
    (argStands : Denotes .any heap [] arg term) : Denotes .any heap [] r (fn.apps [term]) := by
  have each : ∀ kid t, (kid, t) ∈ [head, arg].zip [fn, term] → Denotes .any heap [] kid t := by
    intro kid t member
    simp only [List.zip_cons_cons, List.zip_nil_right, List.mem_cons, Prod.mk.injEq,
      List.not_mem_nil, or_false] at member
    rcases member with ⟨rfl, rfl⟩ | ⟨rfl, rfl⟩
    · exact fnStands
    · exact argStands
  exact .node loaded (by decide) rfl each

/-- The application `(f a c)` is contracted with both arguments. -/
theorem whr_contracts_head_macro : ∃ enough result after,
    (∀ fuel, enough ≤ fuel → (whr fuel 10).run macroStore = .ok (result, after)) ∧
      ∃ t, Denotes .any after.heap [] result t ∧
        Term.BetaEq (constantFunction.apps [.leaf (.sym 5), .leaf (.sym 6)]) t := by
  have a : macroHeap[5]? = some (.sym "a" none) := rfl
  have c : macroHeap[6]? = some (.sym "c" none) := rfl
  have loaded : macroHeap[10]? = some (.cexpr .app [4, 5, 6] false) := rfl
  have redex : DirectRedex macroStore.heap 10 [5, 6] 3 :=
    ⟨⟨4, false, rfl, by decide⟩, by decide, by decide⟩
  have denotes : Denotes .any macroStore.heap [] 10
      (constantFunction.apps [.leaf (.sym 5), .leaf (.sym 6)]) := by
    have each : ∀ kid term, (kid, term) ∈ [4, 5, 6].zip
        [constantFunction, .leaf (.sym 5), .leaf (.sym 6)] →
        Denotes .any macroHeap [] kid term := by
      intro kid term member
      simp only [List.zip_cons_cons, List.zip_nil_right, List.mem_cons, Prod.mk.injEq,
        List.not_mem_nil, or_false] at member
      rcases member with ⟨rfl, rfl⟩ | ⟨rfl, rfl⟩ | ⟨rfl, rfl⟩
      · exact denotes_macro_f
      · exact denotes_macro_const a
      · exact denotes_macro_const c
    exact .node loaded (by decide) rfl each
  obtain ⟨enough, result, after, run, ⟨_, _, _, _, _, _, _, stands, equal, _⟩, _⟩ :=
    whr_contracts_head redex denotes (.inl ⟨[0, 2], rfl⟩)
  exact ⟨enough, result, after, run, _, stands, equal⟩

/-! ## Nested applications -/

/-- Where the first child of an application stands for an application of a symbol, the symbol is
assigned to the first argument of the outer application, and the first argument of the inner one is
returned. -/
theorem whr_nested {before : Store} {fuel : Nat} {e first arg inner f b value top : Ref}
    {more : List Ref} {flag : Bool} {name : String} {old : Option Ref}
    (loaded : before.heap[e]? = some (.cexpr .app [first, arg] flag))
    (followed : followDefs before.heap first = some inner)
    (nested : before.heap[inner]? = some (.cexpr .app (f :: b :: more) false))
    (symbol : before.heap[f]? = some (.sym name old))
    (argument : followDefs before.heap arg = some value)
    (allocated : b < before.heap.length)
    (head : (getHead e true).run before = .ok (top, before))
    (lam : opOf before.heap top = some .lam) :
    ∃ after, (whr fuel e).run before = .ok (b, after) ∧ valOf after.heap f = some value := by
  let flagged := before.heap.set inner (.cexpr .app (f :: b :: more) true)
  have same : followDefs flagged arg = some value := by
    rw [followDefs, List.length_set, followFor_congr fun r => valOf_setFlag nested r]
    exact argument
  obtain ⟨flag', nested'⟩ := (agrees_setFlag (fun _ => True) nested true).cexpr nested
  have symbol' := (agrees_setFlag (fun _ => True) nested true).keptSym trivial symbol
  obtain ⟨flag'', nested''⟩ := (agrees_setSym symbol' (some value)).cexpr nested'
  let after : Store := { before with heap := flagged.set f (.sym name (some value)) }
  have op : (getop top).run before = .ok (some .lam, before) :=
    run_getop_ok.mpr ⟨lt_length_of_opOf lam, lam, rfl⟩
  have load : (load e).run before = .ok (.cexpr .app [first, arg] flag, before) :=
    run_load_ok.mpr ⟨loaded, rfl⟩
  have follow : (follow first).run before = .ok (inner, before) := run_follow_ok.mpr ⟨followed, rfl⟩
  have collect : (collectArgs e true).run before = .ok ((inner, [arg]), before) := by
    rw [collectArgs, run_bind_of_ok load]
    simp only [deref, List.getElem?_cons_zero, pure_bind, if_true, List.drop_succ_cons,
      List.drop_zero]
    rw [run_bind_of_ok follow]
    rfl
  have chosen : (contractedHead fuel inner).run before =
    .ok (inner, { before with heap := flagged }) := by
    have unset : (getFlag inner).run before = .ok (false, before) := by
      rw [getFlag, run_bind_of_ok (run_load_ok.mpr ⟨nested, rfl⟩)]
      rfl
    rw [contractedHead, run_bind_of_ok unset, if_neg (by simp),
      run_bind_of_ok (run_setFlag_cexpr nested)]
    rfl
  have loop : (assignBinders inner [arg]).run { before with heap := flagged } =
    .ok ((b, []), after) := by
    have read : (Lfsc.follow arg).run { before with heap := flagged } =
        .ok (value, { before with heap := flagged }) := run_follow_ok.mpr ⟨same, rfl⟩
    have kid : (kid inner 0).run { before with heap := flagged } =
        .ok (f, { before with heap := flagged }) := run_kid_ok.mpr ⟨⟨_, _, _, nested', rfl⟩, rfl⟩
    have set : (setSymVal f (some value)).run { before with heap := flagged } = .ok ((), after) :=
      run_setSymVal_ok.mpr ⟨_, _, symbol', rfl⟩
    have body : (Lfsc.kid inner 1).run after = .ok (b, after) :=
      run_kid_ok.mpr ⟨⟨_, _, _, nested'', rfl⟩, rfl⟩
    have tested : (getop b).run after = .ok (opOf after.heap b, after) :=
      run_getop_ok.mpr ⟨by simpa [after, flagged] using allocated, rfl, rfl⟩
    rw [assignBinders, run_bind_of_ok read, run_bind_of_ok kid, run_bind_of_ok set,
      run_bind_of_ok body, run_bind_of_ok tested, if_neg (by simp)]
    rfl
  refine ⟨after, ?_, ?_⟩
  · rw [whr_eq, run_bind_of_ok head, run_bind_of_ok op, if_pos rfl, run_bind_of_ok collect]
    simp only
    rw [run_bind_of_ok chosen, run_bind_of_ok loop]
    rfl
  · have inside := (List.getElem?_eq_some_iff.mp symbol').1
    exact valOf_sym (List.getElem?_set_self inside)

/-- A signature with a macro `f` that returns its first argument, a constant `pa` of a type `P` at
`a`, and a rule whose second premise has a type that applies the first argument, and some
commands. -/
def macroThen (commands : List (List String)) : List Lexeme := scan
  (["(", "declare", "A", "type", ")", "(", "declare", "P", "(", "!", "x", "A", "type", ")", ")",
    "(", "declare", "a", "A", ")", "(", "declare", "c", "A", ")",
    "(", "define", "f", "(", "#", "x", "A", "(", "#", "y", "A", "x", ")", ")", ")",
    "(", "declare", "pa", "(", "P", "a", ")", ")",
    "(", "declare", "r", "(", "!", "v", "(", "!", "z", "A", "A", ")",
      "(", "!", "u", "(", "P", "(", "v", "c", ")", ")", "A", ")", ")", ")"] ++ commands.flatten)

/-- A check that `pa` has the type `P` at `(f a c)`, which is `a`. -/
def checkMacro : List String :=
  ["(", "check", "(", ":", "(", "P", "(", "f", "a", "c", ")", ")", "pa", ")", ")"]

/-- A check of the rule with the partial application `(f a)` as its first argument. -/
def checkRule : List String := ["(", "check", "(", "r", "(", "f", "a", ")", "pa", ")", ")"]

/-- Comparing the type of a premise, in which a variable that stands for a partial application of a
macro is applied, overwrites the macro: a check accepted before is rejected afterwards. -/
theorem macro_overwritten :
    verdictOn (macroThen [checkMacro, checkRule]) = .ok () ∧
      verdictOn (macroThen [checkRule, checkMacro]) = .error
        (.report "The type expected for a symbol does not match the symbol's type.\n") ∧
      ¬ ∀ (before after : Store) (fuel : Nat) (e top result : Ref) (t : Term Leaf),
        Denotes .any before.heap [] e t → opOf before.heap e = some .app →
        (getHead e true).run before = .ok (top, before) → opOf before.heap top = some .lam →
        (whr fuel e).run before = .ok (result, after) →
        ∀ y d, valOf before.heap y = some d → opOf before.heap d = some .lam →
          valOf after.heap y = some d := by
  refine ⟨by decide +kernel, by decide +kernel, fun every => ?_⟩
  have a : macroHeap[5]? = some (.sym "a" none) := rfl
  have c : macroHeap[6]? = some (.sym "c" none) := rfl
  have v : macroHeap[8]? = some (.sym "v" (some 7)) := rfl
  have inner : macroHeap[7]? = some (.cexpr .app [4, 5] false) := rfl
  have outer : macroHeap[9]? = some (.cexpr .app [8, 6] false) := rfl
  have part : Denotes .any macroHeap [] 7 (constantFunction.apps [.leaf (.sym 5)]) :=
    denotes_app inner denotes_macro_f (denotes_macro_const a)
  have stands : Denotes .any macroHeap [] 8 (constantFunction.apps [.leaf (.sym 5)]) :=
    .defined v (by decide) trivial (by decide) part
  have denotes := denotes_app outer stands (denotes_macro_const c)
  have f : macroStore.heap[4]? = some (.sym "f" (some 3)) := rfl
  have first : followDefs macroStore.heap 8 = some 7 := by decide
  have argument : followDefs macroStore.heap 6 = some 6 := by decide
  have head : (getHead 9 true).run macroStore = .ok (3, macroStore) := rfl
  obtain ⟨after, run, assigned⟩ : ∃ after, (whr 0 9).run macroStore = .ok (5, after) ∧ _ :=
    whr_nested outer first inner f argument (by decide) head (by decide)
  have kept := every _ _ _ _ _ _ _ denotes (by decide) head (by decide) run 4 3 (by decide)
    (by decide)
  exact absurd (assigned.symm.trans kept) (by decide)

end Lfsc
