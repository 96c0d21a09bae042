import Lfsc.SideCondition.Representation

/-!
# Comparing values

On objects that stand for values `defeq` decides whether the values are the same, and what objects
stand for is kept although children are exchanged.  This holds from every store, by induction on the
recursion depth.
-/

namespace Lfsc

open Exec

/-! ## Kept representations -/

/-- The objects of a program: its symbol, its parameters and its body. -/
def ProgramAt (sig : Signature) (heap : List Node) (name : Ref) (params : List Ref) (body : Code) :
    Prop :=
  ∃ text prog type vars code flag varsFlag, heap[name]? = some (.sym text (some prog)) ∧
    heap[prog]? = some (.cexpr .prog [type, vars, code] flag) ∧
    heap[vars]? = some (.cexpr .progvars params varsFlag) ∧ Encodes sig heap code body

/-- The heap holds all programs of a signature. -/
def Defines (sig : Signature) (heap : List Node) : Prop :=
  ∀ name params body, sig name = .program params body → ProgramAt sig heap name params body

/-- Whatever stands for a value, for code or for a program still does, and only applications have
other children. -/
structure Evolves (sig : Signature) (before after : Store) : Prop where
  represents : ∀ r value, Represents sig before.heap r value → Represents sig after.heap r value
  encodes : ∀ r code, Encodes sig before.heap r code → Encodes sig after.heap r code
  defines : Defines sig before.heap → Defines sig after.heap
  cexprs : ∀ (r : Ref) op kids flag, op ≠ .app → before.heap[r]? = some (.cexpr op kids flag) →
    after.heap[r]? = some (.cexpr op kids flag)
  order : after.before = before.before

/-- The same, and every symbol and hole has the `val` that it had. -/
structure Retains (sig : Signature) (before after : Store) : Prop extends
    Evolves sig before after where
  vals : valOf after.heap = valOf before.heap

instance {sig : Signature} : Std.Refl (Evolves sig) :=
  ⟨fun _ => ⟨fun _ _ kept => kept, fun _ _ kept => kept, fun kept => kept,
    fun _ _ _ _ _ loaded => loaded, rfl⟩⟩

instance {sig : Signature} : IsTrans Store (Evolves sig) :=
  ⟨fun _ _ _ first second =>
    ⟨fun r value kept => second.represents r value (first.represents r value kept),
      fun r code kept => second.encodes r code (first.encodes r code kept),
      fun kept => second.defines (first.defines kept),
      fun r op kids flag other loaded =>
        second.cexprs r op kids flag other (first.cexprs r op kids flag other loaded),
      second.order.trans first.order⟩⟩

instance {sig : Signature} : Std.Refl (Retains sig) :=
  ⟨fun store => ⟨Std.Refl.refl store, rfl⟩⟩

instance {sig : Signature} : IsTrans Store (Retains sig) :=
  ⟨fun _ _ _ first second =>
    ⟨IsTrans.trans _ _ _ first.toEvolves second.toEvolves, second.vals.trans first.vals⟩⟩

section Steps

variable {sig : Signature}

theorem Rearranges.defines {heap heap' : List Node} (moved : Rearranges sig heap heap')
    (defined : Defines sig heap) : Defines sig heap' := by
  intro name params body role
  obtain ⟨text, prog, type, vars, code, flag, varsFlag, symLoaded, progLoaded, varsLoaded,
    encoded⟩ :=
    defined name params body role
  obtain ⟨val', symLoaded', assigned | rfl⟩ := moved.syms _ _ _ symLoaded
  · simp [role] at assigned
  · exact ⟨text, prog, type, vars, code, flag, varsFlag, symLoaded',
      moved.cexpr progLoaded (by simp), moved.cexpr varsLoaded (by simp), moved.encodes encoded⟩

theorem Rearranges.evolves {before after : Store} (moved : Rearranges sig before.heap after.heap)
    (order : after.before = before.before) : Evolves sig before after :=
  ⟨fun _ _ => moved.represents, fun _ _ => moved.encodes, moved.defines,
    fun _ _ _ _ other loaded => moved.cexpr loaded other, order⟩

theorem exchanged_refl {heap : List Node} (kids : List Ref) :
    List.Forall₂ (Exchanged sig heap) kids kids :=
  List.forall₂_same.mpr fun _ _ => .inl rfl

theorem rearranges_append (heap extra : List Node) : Rearranges sig heap (heap ++ extra) := by
  have kept : ∀ (r : Ref) node, heap[r]? = some node → (heap ++ extra)[r]? = some node := by
    intro r node loaded
    rw [List.getElem?_append_left (List.getElem?_eq_some_iff.mp loaded).1, loaded]
  constructor
  · intro r kids flag loaded
    exact ⟨kids, kept r _ loaded, exchanged_refl kids⟩
  · intro r text val loaded
    exact ⟨val, kept r _ loaded, .inr rfl⟩
  · intro r node loaded _ _
    exact kept r node loaded

/-- Assigning a variable. -/
theorem rearranges_assign {heap : List Node} {var : Ref} {text : String} {old val : Option Ref}
    (loaded : heap[var]? = some (.sym text old)) (role : sig var = .var) :
    Rearranges sig heap (heap.set var (.sym text val)) := by
  have bound := (List.getElem?_eq_some_iff.mp loaded).1
  constructor
  · intro r kids flag found
    have other : var ≠ r := by
      rintro rfl
      simp [loaded] at found
    exact ⟨kids, by rw [List.getElem?_set_ne other, found], exchanged_refl kids⟩
  · intro r text' val' found
    by_cases same : var = r
    · subst same
      obtain ⟨rfl, -⟩ : text = text' ∧ old = val' := by simpa [loaded] using found
      exact ⟨val, by simp [bound], .inl role⟩
    · exact ⟨val', by rw [List.getElem?_set_ne same, found], .inr rfl⟩
  · intro r node found _ symbolic
    have other : var ≠ r := by
      rintro rfl
      rw [loaded, Option.some.injEq] at found
      exact symbolic _ _ found.symm
    rw [List.getElem?_set_ne other, found]

/-- Exchanging a child of an application. -/
theorem rearranges_exchange {heap : List Node} {r kid kid' : Ref} {kids : List Ref} {flag : Bool}
    {index : Nat} (loaded : heap[r]? = some (.cexpr .app kids flag))
    (found : kids[index]? = some kid)
    (exchanged : Exchanged sig heap kid kid') :
    Rearranges sig heap (heap.set r (.cexpr .app (kids.set index kid') flag)) := by
  have bound := (List.getElem?_eq_some_iff.mp loaded).1
  constructor
  · intro r' kids' flag' found'
    by_cases same : r = r'
    · subst same
      obtain ⟨rfl, rfl⟩ : kids = kids' ∧ flag = flag' := by simpa [loaded] using found'
      refine ⟨kids.set index kid', by simp [bound], ?_⟩
      refine List.forall₂_iff_get.mpr ⟨by simp, fun i left right => ?_⟩
      by_cases here : index = i
      · subst here
        obtain ⟨_, rfl⟩ := List.getElem?_eq_some_iff.mp found
        simpa using exchanged
      · refine .inl ?_
        simp [here]
    · exact ⟨kids', by rw [List.getElem?_set_ne same, found'], exchanged_refl kids'⟩
  · intro r' text val found'
    have other : r ≠ r' := by
      rintro rfl
      simp [loaded] at found'
    exact ⟨val, by rw [List.getElem?_set_ne other, found'], .inr rfl⟩
  · intro r' node found' application _
    have other : r ≠ r' := by
      rintro rfl
      rw [loaded, Option.some.injEq] at found'
      exact application _ _ found'.symm
    rw [List.getElem?_set_ne other, found']

theorem valOf_set_app {heap : List Node} {r : Ref} {kids kids' : List Ref} {flag : Bool}
    (loaded : heap[r]? = some (.cexpr .app kids flag)) :
    valOf (heap.set r (.cexpr .app kids' flag)) = valOf heap := by
  funext r'
  by_cases same : r = r'
  · subst same
    rw [valOf, valOf, loaded, List.getElem?_set_self (List.getElem?_eq_some_iff.mp loaded).1]
  · rw [valOf, valOf, List.getElem?_set_ne same]

theorem run_setKid_ok {r value : Ref} {index : Nat} {result : Unit} {before after : Store} :
    (setKid r index value).run before = .ok (result, after) ↔
      ∃ op kids flag, before.heap[r]? = some (.cexpr op kids flag) ∧
        { before with heap := before.heap.set r (.cexpr op (kids.set index value) flag) } =
          after := by
  rw [setKid, run_bind_ok]
  simp only [run_load_ok]
  constructor
  · rintro ⟨_, node, ⟨loaded, rfl⟩, rest⟩
    cases node with
    | cexpr op kids flag => exact ⟨op, kids, flag, loaded, run_put_ok.mp rest⟩
    | _ => exact (run_stop_ok.mp rest).elim
  · rintro ⟨op, kids, flag, loaded, rfl⟩
    exact ⟨_, _, ⟨loaded, rfl⟩, run_put_ok.mpr rfl⟩

theorem retains_setKid {before after : Store} {r kid kid' : Ref} {kids : List Ref} {flag : Bool}
    {index : Nat} {result : Unit} (loaded : before.heap[r]? = some (.cexpr .app kids flag))
    (found : kids[index]? = some kid) (exchanged : Exchanged sig before.heap kid kid')
    (run : (setKid r index kid').run before = .ok (result, after)) : Retains sig before after := by
  obtain ⟨op, kids', flag', loaded', rfl⟩ := run_setKid_ok.mp run
  obtain ⟨⟨rfl, rfl⟩, rfl⟩ : (.app = op ∧ kids = kids') ∧ flag = flag' := by
    simpa [loaded, and_assoc] using loaded'
  exact ⟨(rearranges_exchange loaded found exchanged).evolves rfl, valOf_set_app loaded⟩

/-- The head and the arguments of an application, as its children. -/
theorem represents_kids {heap : List Node} {r : Ref} {head : Val} {args : List Val} :
    Represents sig heap r (.app head args) ↔
      ∃ kids flag, heap[r]? = some (.cexpr .app kids flag) ∧
        List.Forall₂ (Represents sig heap) kids (head :: args) := by
  rw [represents_app_iff]
  constructor
  · rintro ⟨first, kids, flag, loaded, headed, all⟩
    exact ⟨first :: kids, flag, loaded, .cons headed all⟩
  · rintro ⟨kids, flag, loaded, all⟩
    obtain ⟨first, rest, headed, others, rfl⟩ := List.forall₂_cons_right_iff.mp all
    exact ⟨first, rest, flag, loaded, headed, others⟩

theorem forall₂_getElem? {α β : Type} {relation : α → β → Prop} {as : List α} {bs : List β}
    (all : List.Forall₂ relation as bs) {index : Nat} {a : α} (found : as[index]? = some a) :
    ∃ b, bs[index]? = some b ∧ relation a b := by
  induction all generalizing index with
  | nil => simp at found
  | cons related _ hyp =>
      cases index with
      | zero =>
          obtain rfl : _ = a := by simpa using found
          exact ⟨_, rfl, related⟩
      | succ index => simpa using hyp (by simpa using found)

/-- Sharing a child at which two applications have the same value. -/
theorem retains_shareKid {before after : Store} {this e : Ref} {head head' : Val}
    {args args' : List Val} {counter : Nat} {result : Unit}
    (first : Represents sig before.heap this (.app head args))
    (second : Represents sig before.heap e (.app head' args'))
    (same : (head :: args)[counter]? = (head' :: args')[counter]?)
    (run : (shareKid this e counter).run before = .ok (result, after)) :
    Retains sig before after := by
  obtain ⟨kids, flag, loaded, all⟩ := represents_kids.mp first
  obtain ⟨kids', flag', loaded', all'⟩ := represents_kids.mp second
  obtain ⟨_, left, leftRun, rest⟩ := run_bind_ok.mp run
  obtain ⟨⟨_, _, _, again, found⟩, rfl⟩ := run_kid_ok.mp leftRun
  rw [loaded] at again
  cases again
  obtain ⟨_, right, rightRun, rest⟩ := run_bind_ok.mp rest
  obtain ⟨⟨_, _, _, again', found'⟩, rfl⟩ := run_kid_ok.mp rightRun
  rw [loaded'] at again'
  cases again'
  obtain ⟨value, here, leftRep⟩ := forall₂_getElem? all found
  obtain ⟨value', there, rightRep⟩ := forall₂_getElem? all' found'
  obtain rfl : value = value' := by simpa [here, there] using same
  have decided : ∀ (keepRight : Bool) (middle : Store), middle.heap = before.heap →
      middle.before = before.before →
      (if keepRight = true then setKid this counter right else setKid e counter left).run middle =
        .ok (result, after) → Retains sig before after := by
    intro keepRight middle heapSame orderSame rest
    have start : Retains sig before middle :=
      ⟨⟨fun _ _ => heapSame ▸ id, fun _ _ => heapSame ▸ id, heapSame ▸ id,
        fun _ _ _ _ _ => heapSame ▸ id, orderSame⟩, by rw [heapSame]⟩
    refine IsTrans.trans _ _ _ start ?_
    rw [← heapSame] at loaded loaded' leftRep rightRep
    split at rest
    · exact retains_setKid loaded found (.inr ⟨value, leftRep, rightRep⟩) rest
    · exact retains_setKid loaded' found' (.inr ⟨value, rightRep, leftRep⟩) rest
  obtain ⟨_, rightNode, loadRun, rest⟩ := run_bind_ok.mp rest
  obtain ⟨-, rfl⟩ := run_load_ok.mp loadRun
  split at rest
  · obtain ⟨_, leftNode, loadRun, rest⟩ := run_bind_ok.mp rest
    obtain ⟨-, rfl⟩ := run_load_ok.mp loadRun
    exact decided true _ rfl rfl rest
  · obtain ⟨_, leftNode, loadRun, rest⟩ := run_bind_ok.mp rest
    obtain ⟨-, rfl⟩ := run_load_ok.mp loadRun
    split at rest
    · exact decided false _ rfl rfl rest
    · obtain ⟨_, keepRight, askRun, rest⟩ := run_bind_ok.mp rest
      cases askRun
      exact decided (before.fewer before.asked) { before with asked := before.asked + 1 } rfl rfl
        rest

end Steps

/-! ## Heads -/

section Heads

variable {sig : Signature}

theorem run_follow_value {r last : Ref} {value : Val} {before after : Store}
    (represented : Represents sig before.heap r value)
    (run : (follow r).run before = .ok (last, after)) : last = r ∧ before = after := by
  obtain ⟨followed, rfl⟩ := run_follow_ok.mp run
  refine ⟨?_, rfl⟩
  cases length : before.heap.length with
  | zero =>
      have bound := represented.lt_length
      simp [length] at bound
  | succ steps => simpa [followDefs, followFor, represented.valOf_eq, eq_comm] using followed

/-- The operator of an object that stands for a value. -/
theorem Represents.opOf_eq {heap : List Node} {r : Ref} {value : Val}
    (represented : Represents sig heap r value) :
    (opOf heap r = some .app ∧ ∃ head args, value = .app head args) ∨
      (opOf heap r = none ∧ ∀ head args, value ≠ .app head args) := by
  cases represented with
  | app loaded => exact .inl ⟨by simp [opOf, loaded], _, _, rfl⟩
  | sym _ loaded | int loaded | rat loaded => exact .inr ⟨by simp [opOf, loaded], by simp⟩

theorem Represents.opOf_congr {heap : List Node} {r r' : Ref} {value : Val}
    (first : Represents sig heap r value) (second : Represents sig heap r' value) :
    opOf heap r = opOf heap r' := by
  obtain ⟨found, head, args, rfl⟩ | ⟨found, other⟩ := first.opOf_eq
  · obtain ⟨found', -⟩ | ⟨-, other'⟩ := second.opOf_eq
    · rw [found, found']
    · exact (other' head args rfl).elim
  · obtain ⟨-, head, args, rfl⟩ | ⟨found', -⟩ := second.opOf_eq
    · exact (other head args rfl).elim
    · rw [found, found']

/-- The first child of an application of a value. -/
theorem run_kid_head {r first : Ref} {head : Val} {args : List Val} {before after : Store}
    (represented : Represents sig before.heap r (.app head args))
    (run : (kid r 0).run before = .ok (first, after)) :
    before = after ∧ Represents sig before.heap first head := by
  obtain ⟨⟨op, kids, flag, loaded, found⟩, rfl⟩ := run_kid_ok.mp run
  obtain ⟨first', kids', flag', loaded', headed, -⟩ := represents_app_iff.mp represented
  rw [loaded'] at loaded
  cases loaded
  obtain rfl : first' = first := by simpa using found
  exact ⟨rfl, headed⟩

/-- One step of `get_head` on a value. -/
theorem run_headStep_value {followed : Bool} {m : Ref → StoreM Ref} {r last : Ref} {value : Val}
    {before after : Store} (represented : Represents sig before.heap r value)
    (next : ∀ kid inner, Represents sig before.heap kid inner →
      (m kid).run before = .ok (last, after) →
        before = after ∧ opOf before.heap last = none ∧
          ∃ inner, Represents sig before.heap last inner)
    (run : (do
      if (← getop r) = some .app then
        let first ← kid r 0
        let next ← if followed then follow first else pure first
        m next
      else return r : StoreM Ref).run before = .ok (last, after)) :
    before = after ∧ opOf before.heap last = none ∧
      ∃ inner, Represents sig before.heap last inner := by
  obtain ⟨_, op, opRun, rest⟩ := run_bind_ok.mp run
  obtain ⟨-, rfl, rfl⟩ := run_getop_ok.mp opRun
  obtain ⟨isApp, head, args, rfl⟩ | ⟨notApp, -⟩ := represented.opOf_eq
  · rw [if_pos isApp] at rest
    obtain ⟨_, first, kidRun, rest⟩ := run_bind_ok.mp rest
    obtain ⟨rfl, headed⟩ := run_kid_head represented kidRun
    cases followed with
    | true =>
        obtain ⟨_, followed, followRun, rest⟩ := run_bind_ok.mp rest
        obtain ⟨rfl, rfl⟩ := run_follow_value headed followRun
        exact next _ _ headed rest
    | false => exact next _ _ headed rest
  · rw [if_neg (by simp [notApp])] at rest
    obtain ⟨rfl, rfl⟩ := run_pure_ok.mp rest
    exact ⟨rfl, notApp, _, represented⟩

/-- The head of a value is neither an application nor a hole. -/
theorem run_headWithin_value {followed : Bool} {steps : Nat} {r last : Ref} {value : Val}
    {before after : Store} (represented : Represents sig before.heap r value)
    (run : (headWithin followed steps r).run before = .ok (last, after)) :
    before = after ∧ opOf before.heap last = none ∧
      ∃ inner, Represents sig before.heap last inner := by
  induction steps generalizing r value with
  | zero =>
      rw [headWithin_eq] at run
      exact run_headStep_value (m := fun _ => outOfFuel) represented
        (fun _ _ _ stopped => (run_stop_ok.mp stopped).elim) run
  | succ steps hyp =>
      rw [headWithin_eq] at run
      exact run_headStep_value represented (fun _ _ => hyp) run

theorem run_getHead_value {followed : Bool} {r last : Ref} {value : Val} {before after : Store}
    (represented : Represents sig before.heap r value)
    (run : (getHead r followed).run before = .ok (last, after)) :
    before = after ∧ opOf before.heap last = none ∧
      ∃ inner, Represents sig before.heap last inner := by
  obtain ⟨_, heap, heapRun, rest⟩ := run_bind_ok.mp run
  obtain ⟨-, rfl⟩ := run_getHeap_ok.mp heapRun
  exact run_headWithin_value represented rest

/-- A value is in weak head normal form. -/
theorem run_whr_value {fuel : Nat} {r reduct : Ref} {value : Val} {before after : Store}
    (represented : Represents sig before.heap r value)
    (run : (whr fuel r).run before = .ok (reduct, after)) : reduct = r ∧ before = after := by
  obtain ⟨middle, head, headRun, rest⟩ := run_bind_ok.mp run
  obtain ⟨rfl, notApp, -⟩ := run_getHead_value represented headRun
  obtain ⟨_, op, opRun, rest⟩ := run_bind_ok.mp rest
  obtain ⟨-, rfl, rfl⟩ := run_getop_ok.mp opRun
  rw [if_neg (by simp [notApp])] at rest
  obtain ⟨rfl, rfl⟩ := run_pure_ok.mp rest
  exact ⟨rfl, rfl⟩

end Heads

/-! ## Comparison -/

section Comparison

variable {sig : Signature}

/-- Nothing is decided about values by looking at the left operand. -/
theorem run_defeqLeft_value {fuel : Nat} {self : Ref → Ref → StoreM Bool} {this e : Ref}
    {value : Val} {decided : Option Bool} {before after : Store}
    (represented : Represents sig before.heap this value)
    (run : (defeqLeft fuel self this e).run before = .ok (decided, after)) :
    decided = none ∧ before = after := by
  obtain ⟨_, node, loadRun, rest⟩ := run_bind_ok.mp run
  obtain ⟨loaded, rfl⟩ := run_load_ok.mp loadRun
  cases id represented with
  | sym _ found | int found | rat found =>
      rw [found] at loaded
      cases loaded
      obtain ⟨rfl, rfl⟩ := run_pure_ok.mp rest
      exact ⟨rfl, rfl⟩
  | app found =>
      rw [found] at loaded
      cases loaded
      obtain ⟨_, reduct, whrRun, rest⟩ := run_bind_ok.mp rest
      obtain ⟨rfl, rfl⟩ := run_whr_value represented whrRun
      rw [if_neg (by simp)] at rest
      obtain ⟨_, head, headRun, rest⟩ := run_bind_ok.mp rest
      obtain ⟨rfl, notApp, inner, headed⟩ := run_getHead_value represented headRun
      obtain ⟨_, node, loadRun, rest⟩ := run_bind_ok.mp rest
      obtain ⟨loaded, rfl⟩ := run_load_ok.mp loadRun
      cases headed with
      | sym _ found' | int found' | rat found' =>
          rw [found'] at loaded
          cases loaded
          obtain ⟨rfl, rfl⟩ := run_pure_ok.mp rest
          exact ⟨rfl, rfl⟩
      | app found' => simp [opOf, found'] at notApp

theorem run_defeqRight_value {fuel : Nat} {self : Ref → Ref → StoreM Bool} {this e : Ref}
    {value : Val} {decided : Option Bool} {before after : Store}
    (represented : Represents sig before.heap e value)
    (run : (defeqRight fuel self this e).run before = .ok (decided, after)) :
    decided = none ∧ before = after := by
  obtain ⟨_, node, loadRun, rest⟩ := run_bind_ok.mp run
  obtain ⟨loaded, rfl⟩ := run_load_ok.mp loadRun
  cases id represented with
  | sym _ found | int found | rat found =>
      rw [found] at loaded
      cases loaded
      obtain ⟨rfl, rfl⟩ := run_pure_ok.mp rest
      exact ⟨rfl, rfl⟩
  | app found =>
      rw [found] at loaded
      cases loaded
      obtain ⟨_, reduct, whrRun, rest⟩ := run_bind_ok.mp rest
      obtain ⟨rfl, rfl⟩ := run_whr_value represented whrRun
      rw [if_neg (by simp)] at rest
      obtain ⟨rfl, rfl⟩ := run_pure_ok.mp rest
      exact ⟨rfl, rfl⟩

/-- Two leaves that stand for values; an integer is compared with an integer only, since anything
else has no result. -/
theorem run_defeqLeaves_value {this e : Ref} {left right : Val} {verdict : Bool}
    {before after : Store} (first : Represents sig before.heap this left)
    (second : Represents sig before.heap e right) (leaf : opOf before.heap this = none)
    (run : (defeqLeaves this e).run before = .ok (verdict, after)) :
    verdict = decide (left = right) ∧ before = after := by
  obtain ⟨_, node, loadRun, rest⟩ := run_bind_ok.mp run
  obtain ⟨loaded, rfl⟩ := run_load_ok.mp loadRun
  obtain ⟨_, node', loadRun', rest⟩ := run_bind_ok.mp rest
  obtain ⟨loaded', rfl⟩ := run_load_ok.mp loadRun'
  cases id first with
  | sym _ found =>
      rw [found] at loaded
      cases loaded
      obtain ⟨rfl, rfl⟩ := run_pure_ok.mp rest
      refine ⟨?_, rfl⟩
      congr 1
      refine propext ⟨?_, ?_⟩
      · rintro rfl
        exact represents_unique first second
      · rintro rfl
        exact (represents_sym_iff.mp second).1.symm
  | int found =>
      rw [found] at loaded
      cases loaded
      cases second with
      | int found' =>
          rw [found'] at loaded'
          cases loaded'
          obtain ⟨rfl, rfl⟩ := run_pure_ok.mp rest
          exact ⟨by simp, rfl⟩
      | sym _ found' | rat found' | app found' =>
          rw [found'] at loaded'
          cases loaded'
          exact (run_stop_ok.mp rest).elim
  | rat found =>
      rw [found] at loaded
      cases loaded
      cases second with
      | rat found' =>
          rw [found'] at loaded'
          cases loaded'
          obtain ⟨rfl, rfl⟩ := run_pure_ok.mp rest
          exact ⟨by simp, rfl⟩
      | sym _ found' | int found' | app found' =>
          rw [found'] at loaded'
          cases loaded'
          exact (run_stop_ok.mp rest).elim
  | app found => simp [opOf, found] at leaf

variable {self : Ref → Ref → StoreM Bool}
  (compare : ∀ this e left right verdict before after,
    Represents sig before.heap this left → Represents sig before.heap e right →
    (self this e).run before = .ok (verdict, after) →
      verdict = decide (left = right) ∧ Retains sig before after)

include compare

/-- The children of two applications from some position on. -/
theorem run_defeqKids_value {this e : Ref} {head head' : Val} {args args' : List Val}
    {remaining counter : Nat} {verdict : Bool} {before after : Store}
    (first : Represents sig before.heap this (.app head args))
    (second : Represents sig before.heap e (.app head' args'))
    (rounds : remaining + counter = (head :: args).length)
    (run : (defeqKids self this e remaining counter).run before = .ok (verdict, after)) :
    verdict = decide ((head :: args).drop counter = (head' :: args').drop counter) ∧
      Retains sig before after := by
  induction remaining generalizing counter before with
  | zero =>
      obtain ⟨kids', flag', loaded', all'⟩ := represents_kids.mp second
      obtain ⟨_, found, kidRun, rest⟩ := run_bind_ok.mp run
      obtain ⟨⟨_, _, _, again, rfl⟩, rfl⟩ := run_kid?_ok.mp kidRun
      rw [loaded'] at again
      cases again
      obtain ⟨rfl, rfl⟩ := run_pure_ok.mp rest
      refine ⟨?_, Std.Refl.refl before⟩
      rw [List.drop_eq_nil_of_le (by omega)]
      refine decide_eq_decide.mpr ?_
      rw [List.getElem?_eq_none_iff, all'.length_eq, eq_comm, List.drop_eq_nil_iff]
  | succ remaining hyp =>
      obtain ⟨kids, flag, loaded, all⟩ := represents_kids.mp first
      obtain ⟨kids', flag', loaded', all'⟩ := represents_kids.mp second
      obtain ⟨_, left, kidRun, rest⟩ := run_bind_ok.mp run
      obtain ⟨⟨_, _, _, again, found⟩, rfl⟩ := run_kid_ok.mp kidRun
      rw [loaded] at again
      cases again
      obtain ⟨a, here, leftRep⟩ := forall₂_getElem? all found
      obtain ⟨_, found', kidRun, rest⟩ := run_bind_ok.mp rest
      obtain ⟨⟨_, _, _, again, rfl⟩, rfl⟩ := run_kid?_ok.mp kidRun
      rw [loaded'] at again
      cases again
      obtain ⟨inside, rfl⟩ := List.getElem?_eq_some_iff.mp here
      rw [List.drop_eq_getElem_cons inside]
      cases other : kids'[counter]? with
      | none =>
          rw [other] at rest
          obtain ⟨rfl, rfl⟩ := run_pure_ok.mp rest
          refine ⟨?_, Std.Refl.refl before⟩
          rw [List.getElem?_eq_none_iff, all'.length_eq] at other
          rw [List.drop_eq_nil_of_le other]
          simp
      | some right =>
          rw [other] at rest
          obtain ⟨b, there, rightRep⟩ := forall₂_getElem? all' other
          obtain ⟨inside', rfl⟩ := List.getElem?_eq_some_iff.mp there
          rw [List.drop_eq_getElem_cons inside']
          simp only at rest
          split at rest
          · rename_i same
            subst same
            rw [represents_unique leftRep rightRep]
            simpa using hyp first second (by omega) rest
          · obtain ⟨middle, equal, selfRun, rest⟩ := run_bind_ok.mp rest
            obtain ⟨rfl, kept⟩ := compare _ _ _ _ _ _ _ leftRep rightRep selfRun
            split at rest
            · rename_i same
              have same : (head :: args)[counter] = (head' :: args')[counter] := by simpa using same
              obtain ⟨last, _, shareRun, rest⟩ := run_bind_ok.mp rest
              have shared := retains_shareKid (kept.represents _ _ first)
                (kept.represents _ _ second)
                (by rw [here, there, same]) shareRun
              obtain ⟨rfl, restKept⟩ := hyp (shared.represents _ _ (kept.represents _ _ first))
                (shared.represents _ _ (kept.represents _ _ second)) (by omega) rest
              refine ⟨by simp [same], ?_⟩
              exact IsTrans.trans _ _ _ kept (IsTrans.trans _ _ _ shared restKept)
            · rename_i differs
              obtain ⟨rfl, rfl⟩ := run_pure_ok.mp rest
              refine ⟨?_, kept⟩
              simp only [decide_eq_true_eq] at differs
              simp [differs]

/-- Two values with the same operator, or with none. -/
theorem run_defeqSame_value {this e : Ref} {left right : Val} {verdict : Bool}
    {before after : Store} (first : Represents sig before.heap this left)
    (second : Represents sig before.heap e right)
    (same : opOf before.heap this = opOf before.heap e)
    (run : (defeqSame self this e).run before = .ok (verdict, after)) :
    verdict = decide (left = right) ∧ Retains sig before after := by
  obtain ⟨_, op, opRun, rest⟩ := run_bind_ok.mp run
  obtain ⟨-, rfl, rfl⟩ := run_getop_ok.mp opRun
  obtain ⟨isApp, head, args, rfl⟩ | ⟨leaf, -⟩ := first.opOf_eq
  · obtain ⟨-, head', args', rfl⟩ | ⟨leaf', -⟩ := second.opOf_eq
    · rw [isApp] at rest
      obtain ⟨_, heap, heapRun, rest⟩ := run_bind_ok.mp rest
      obtain ⟨rfl, rfl⟩ := run_getHeap_ok.mp heapRun
      obtain ⟨kids, flag, loaded, all⟩ := represents_kids.mp first
      have rounds : (kidsAt before.heap this).length + 0 = (head :: args).length := by
        simp only [kidsAt, loaded, all.length_eq, Nat.add_zero]
      obtain ⟨rfl, kept⟩ := run_defeqKids_value compare first second rounds rest
      exact ⟨by simp, kept⟩
    · rw [isApp, leaf'] at same
      contradiction
  · rw [leaf] at rest
    obtain ⟨rfl, rfl⟩ := run_defeqLeaves_value first second leaf rest
    exact ⟨rfl, Std.Refl.refl before⟩

end Comparison

/-- `defeq` decides whether two objects stand for the same value. -/
theorem run_defeq_value {sig : Signature} {fuel : Nat} {this e : Ref} {left right : Val}
    {verdict : Bool} {before after : Store} (first : Represents sig before.heap this left)
    (second : Represents sig before.heap e right)
    (run : (defeq fuel this e).run before = .ok (verdict, after)) :
    verdict = decide (left = right) ∧ Retains sig before after := by
  induction fuel generalizing this e left right verdict before after with
  | zero => exact (run_stop_ok.mp run).elim
  | succ fuel hyp =>
      rw [defeq] at run
      split at run
      · rename_i same
        subst same
        obtain ⟨rfl, rfl⟩ := run_pure_ok.mp run
        exact ⟨by simp [represents_unique first second], Std.Refl.refl before⟩
      · obtain ⟨_, decided, leftRun, rest⟩ := run_bind_ok.mp run
        obtain ⟨rfl, rfl⟩ := run_defeqLeft_value first leftRun
        obtain ⟨_, decided, rightRun, rest⟩ := run_bind_ok.mp rest
        obtain ⟨rfl, rfl⟩ := run_defeqRight_value second rightRun
        obtain ⟨_, op, opRun, rest⟩ := run_bind_ok.mp rest
        obtain ⟨-, rfl, rfl⟩ := run_getop_ok.mp opRun
        obtain ⟨_, op', opRun', rest⟩ := run_bind_ok.mp rest
        obtain ⟨-, rfl, rfl⟩ := run_getop_ok.mp opRun'
        split at rest
        · rename_i differs
          obtain ⟨rfl, rfl⟩ := run_pure_ok.mp rest
          refine ⟨?_, Std.Refl.refl before⟩
          rw [eq_comm, decide_eq_false_iff_not]
          rintro rfl
          exact differs (first.opOf_congr second)
        · exact run_defeqSame_value (fun _ _ _ _ _ _ _ => hyp) first second
            (not_not.mp ‹¬ opOf before.heap this ≠ opOf before.heap e›) rest

end Lfsc
