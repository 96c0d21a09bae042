import Mathlib.Data.List.Basic
import Lfsc.Lambda.Term
import Lfsc.Writes

/-!
# The terms that expressions stand for

An expression stands for a lambda term: a symbol bound by an abstraction around it for a variable,
an assigned symbol or a filled hole for what its value stands for, and a program symbol for the
program. A binder that still has a value is a variable all the same.
-/

namespace Lfsc

open Lambda

/-! ## Denotation -/

/-- The constants of terms. -/
inductive Leaf
  /-- A symbol without a value. -/
  | sym (r : Ref)
  /-- A program, given by its `PROG` object. -/
  | prog (r : Ref)
  /-- An unfilled hole. -/
  | hole (r : Ref)
  /-- A numeral. -/
  | int (value : Int)
  /-- A rational numeral. -/
  | rat (value : Rat)
  /-- An operator, applied to its operands. -/
  | op (op : Op)
  deriving DecidableEq

/-- The term of an operator over the terms of its children. -/
def spine : Op → List (Term Leaf) → Term Leaf
  | .app, fn :: args => fn.apps args
  | op, args => (Term.leaf (.op op)).apps args

/-- Which symbols a derivation meets: at abstractions and free. -/
structure Names where
  /-- The symbols that abstractions bind. -/
  binder : Ref → Prop
  /-- The symbols that occur free. -/
  free : Ref → Prop

/-- Any symbols. -/
def Names.any : Names := ⟨fun _ => True, fun _ => True⟩

/-- An expression stands for a term, below abstractions that bind some symbols, innermost first. -/
inductive Denotes (names : Names) (heap : List Node) : List Ref → Ref → Term Leaf → Prop
  | int {env : List Ref} {r : Ref} {value : Int} (loaded : heap[r]? = some (.int value)) :
      Denotes names heap env r (.leaf (.int value))
  | rat {env : List Ref} {r : Ref} {value : Rat} (loaded : heap[r]? = some (.rat value)) :
      Denotes names heap env r (.leaf (.rat value))
  | unfilled {env : List Ref} {r : Ref} (loaded : heap[r]? = some (.hole none)) :
      Denotes names heap env r (.leaf (.hole r))
  | filled {env : List Ref} {r val : Ref} {t : Term Leaf}
      (loaded : heap[r]? = some (.hole (some val))) (value : Denotes names heap env val t) :
      Denotes names heap env r t
  | bound {env : List Ref} {r : Ref} {name : String} {val : Option Ref}
      (loaded : heap[r]? = some (.sym name val)) (member : r ∈ env) :
      Denotes names heap env r (.bvar (env.idxOf r))
  | free {env : List Ref} {r : Ref} {name : String} (loaded : heap[r]? = some (.sym name none))
      (outside : r ∉ env) (named : names.free r) : Denotes names heap env r (.leaf (.sym r))
  | prog {env : List Ref} {r val : Ref} {name : String}
      (loaded : heap[r]? = some (.sym name (some val))) (outside : r ∉ env) (named : names.free r)
      (program : opOf heap val = some .prog) : Denotes names heap env r (.leaf (.prog val))
  | defined {env : List Ref} {r val : Ref} {name : String} {t : Term Leaf}
      (loaded : heap[r]? = some (.sym name (some val))) (outside : r ∉ env) (named : names.free r)
      (other : opOf heap val ≠ some .prog) (value : Denotes names heap env val t) :
      Denotes names heap env r t
  | lam {env : List Ref} {r var body : Ref} {flag : Bool} {name : String} {val : Option Ref}
      {t : Term Leaf} (loaded : heap[r]? = some (.cexpr .lam [var, body] flag))
      (symbol : heap[var]? = some (.sym name val)) (named : names.binder var)
      (under : Denotes names heap (var :: env) body t) : Denotes names heap env r (.lam t)
  | pi {env : List Ref} {r var domain range : Ref} {flag : Bool} {name : String} {val : Option Ref}
      {d t : Term Leaf} (loaded : heap[r]? = some (.cexpr .pi [var, domain, range] flag))
      (symbol : heap[var]? = some (.sym name val)) (named : names.binder var)
      (outer : Denotes names heap env domain d) (under : Denotes names heap (var :: env) range t) :
      Denotes names heap env r (spine .pi [d, .lam t])
  | node {env : List Ref} {r : Ref} {op : Op} {kids : List Ref} {flag : Bool}
      {terms : List (Term Leaf)} (loaded : heap[r]? = some (.cexpr op kids flag))
      (plain : op ≠ .lam ∧ op ≠ .pi ∧ op ≠ .prog) (len : kids.length = terms.length)
      (each : ∀ kid term, (kid, term) ∈ kids.zip terms → Denotes names heap env kid term) :
      Denotes names heap env r (spine op terms)

theorem Denotes.allocated {names : Names} {heap : List Node} {env : List Ref} {r : Ref}
    {t : Term Leaf} (denotes : Denotes names heap env r t) : r < heap.length := by
  cases denotes <;> exact (List.getElem?_eq_some_iff.mp ‹_›).1

theorem closedBelow_apps {fn : Term Leaf} {args : List (Term Leaf)} {depth : Nat}
    (head : fn.ClosedBelow depth) (tail : ∀ arg ∈ args, arg.ClosedBelow depth) :
    (fn.apps args).ClosedBelow depth := by
  induction args generalizing fn with
  | nil => exact head
  | cons arg args hyp =>
      exact hyp ⟨head, tail arg List.mem_cons_self⟩
        fun other member => tail other (List.mem_cons_of_mem _ member)

theorem closedBelow_spine {op : Op} {terms : List (Term Leaf)} {depth : Nat}
    (each : ∀ term ∈ terms, term.ClosedBelow depth) : (spine op terms).ClosedBelow depth := by
  unfold spine
  split
  · rename_i fn args
    exact closedBelow_apps (each fn List.mem_cons_self)
      fun arg member => each arg (List.mem_cons_of_mem _ member)
  · exact closedBelow_apps trivial each

theorem fill_apps (fn : Term Leaf) (args : List (Term Leaf)) (depth : Nat)
    (values : List (Term Leaf)) : (fn.apps args).fill depth values =
      (fn.fill depth values).apps (args.map (Term.fill depth values)) := by
  induction args generalizing fn with
  | nil => rfl
  | cons arg args hyp => exact hyp (.app fn arg)

theorem fill_spine (op : Op) (terms : List (Term Leaf)) (depth : Nat) (values : List (Term Leaf)) :
    (spine op terms).fill depth values = spine op (terms.map (Term.fill depth values)) := by
  cases op <;> cases terms <;> exact fill_apps _ _ _ _

theorem getElem_mem_zip {α β : Type*} {kids : List α} {terms : List β} {index : Nat}
    (inside : index < kids.length) (bound : index < terms.length) :
    (kids[index], terms[index]) ∈ kids.zip terms := by
  have both : index < (kids.zip terms).length := by
    rw [List.length_zip]
    exact Nat.lt_min.mpr ⟨inside, bound⟩
  exact List.mem_iff_getElem.mpr ⟨index, both, List.getElem_zip⟩

theorem exists_mem_zip {α β : Type*} {kids : List α} {terms : List β} {term : β}
    (len : kids.length = terms.length) (member : term ∈ terms) :
    ∃ kid, (kid, term) ∈ kids.zip terms := by
  obtain ⟨index, bound, rfl⟩ := List.mem_iff_getElem.mp member
  exact ⟨_, getElem_mem_zip (len ▸ bound) bound⟩

theorem exists_mem_zip_of_mem {α β : Type*} {kids : List α} {terms : List β} {kid : α}
    (len : kids.length = terms.length) (member : kid ∈ kids) :
    ∃ term, (kid, term) ∈ kids.zip terms := by
  obtain ⟨index, inside, rfl⟩ := List.mem_iff_getElem.mp member
  exact ⟨_, getElem_mem_zip inside (len ▸ inside)⟩

/-- A term has no variables other than those that the abstractions around it bind. -/
theorem Denotes.closedBelow {names : Names} {heap : List Node} {env : List Ref} {r : Ref}
    {t : Term Leaf} (denotes : Denotes names heap env r t) : t.ClosedBelow env.length := by
  induction denotes with
  | int | rat | unfilled | free | prog => trivial
  | filled _ _ hyp => exact hyp
  | defined _ _ _ _ _ hyp => exact hyp
  | bound _ member => exact List.idxOf_lt_length_of_mem member
  | lam _ _ _ _ hyp => exact hyp
  | pi _ _ _ _ _ outer under =>
      refine closedBelow_spine fun term member => ?_
      simp only [List.mem_cons, List.not_mem_nil, or_false] at member
      rcases member with rfl | rfl
      · exact outer
      · exact under
  | @node env r op kids flag terms _ _ len _ each =>
      refine closedBelow_spine fun term member => ?_
      obtain ⟨kid, pair⟩ := exists_mem_zip len member
      exact each kid term pair

theorem Denotes.mono {names wider : Names} {heap : List Node} {env : List Ref} {r : Ref}
    {t : Term Leaf} (binder : ∀ x, names.binder x → wider.binder x)
    (free : ∀ x, names.free x → wider.free x) (denotes : Denotes names heap env r t) :
    Denotes wider heap env r t := by
  induction denotes with
  | int loaded => exact .int loaded
  | rat loaded => exact .rat loaded
  | unfilled loaded => exact .unfilled loaded
  | filled loaded _ hyp => exact .filled loaded hyp
  | bound loaded member => exact .bound loaded member
  | free loaded outside named => exact .free loaded outside (free _ named)
  | prog loaded outside named program => exact .prog loaded outside (free _ named) program
  | defined loaded outside named other _ hyp =>
      exact .defined loaded outside (free _ named) other hyp
  | lam loaded symbol named _ hyp => exact .lam loaded symbol (binder _ named) hyp
  | pi loaded symbol named _ _ outer under =>
      exact .pi loaded symbol (binder _ named) outer under
  | node loaded plain len _ each => exact .node loaded plain len each

/-- Only symbols of the heap are met. -/
theorem Denotes.inHeap {names : Names} {heap : List Node} {env : List Ref} {r : Ref}
    {t : Term Leaf} (denotes : Denotes names heap env r t) :
    Denotes ⟨names.binder, fun x => names.free x ∧ x < heap.length⟩ heap env r t := by
  induction denotes with
  | int loaded => exact .int loaded
  | rat loaded => exact .rat loaded
  | unfilled loaded => exact .unfilled loaded
  | filled loaded _ hyp => exact .filled loaded hyp
  | bound loaded member => exact .bound loaded member
  | free loaded outside named =>
      exact .free loaded outside ⟨named, (List.getElem?_eq_some_iff.mp loaded).1⟩
  | prog loaded outside named program =>
      exact .prog loaded outside ⟨named, (List.getElem?_eq_some_iff.mp loaded).1⟩ program
  | defined loaded outside named other _ hyp =>
      exact .defined loaded outside ⟨named, (List.getElem?_eq_some_iff.mp loaded).1⟩ other hyp
  | lam loaded symbol named _ hyp => exact .lam loaded symbol named hyp
  | pi loaded symbol named _ _ outer under => exact .pi loaded symbol named outer under
  | node loaded plain len _ each => exact .node loaded plain len each

/-- Below more abstractions, whose symbols do not occur free, the term is the same. -/
theorem Denotes.weaken {names : Names} {heap : List Node} {env : List Ref} {r : Ref}
    {t : Term Leaf} (denotes : Denotes names heap env r t) {more : List Ref}
    (apart : ∀ x, names.free x → x ∉ more) : Denotes names heap (env ++ more) r t := by
  have outside' : ∀ {env : List Ref} {x : Ref}, x ∉ env → names.free x → x ∉ env ++ more :=
    fun outside named member => (List.mem_append.mp member).elim outside (apart _ named)
  induction denotes with
  | int loaded => exact .int loaded
  | rat loaded => exact .rat loaded
  | unfilled loaded => exact .unfilled loaded
  | filled loaded _ hyp => exact .filled loaded hyp
  | @bound env r name val loaded member =>
      rw [← List.idxOf_append_of_mem member]
      exact .bound loaded (List.mem_append_left _ member)
  | free loaded outside named => exact .free loaded (outside' outside named) named
  | prog loaded outside named program =>
      exact .prog loaded (outside' outside named) named program
  | defined loaded outside named other _ hyp =>
      exact .defined loaded (outside' outside named) named other hyp
  | lam loaded symbol named _ hyp => exact .lam loaded symbol named hyp
  | pi loaded symbol named _ _ outer under => exact .pi loaded symbol named outer under
  | node loaded plain len _ each => exact .node loaded plain len each

/-! ## Other heaps -/

/-- A heap has the objects of another one, with other flags, and other values of symbols that are
not kept. -/
structure SameObjects (kept : Ref → Prop) (heap heap' : List Node) : Prop where
  int {r : Ref} {value : Int} : heap[r]? = some (.int value) → heap'[r]? = some (.int value)
  rat {r : Ref} {value : Rat} : heap[r]? = some (.rat value) → heap'[r]? = some (.rat value)
  hole {r : Ref} {val : Option Ref} : heap[r]? = some (.hole val) → heap'[r]? = some (.hole val)
  sym {r : Ref} {name : String} {val : Option Ref} : heap[r]? = some (.sym name val) →
    ∃ val', heap'[r]? = some (.sym name val') ∧ (kept r → val' = val)
  cexpr {r : Ref} {op : Op} {kids : List Ref} {flag : Bool} :
    heap[r]? = some (.cexpr op kids flag) → ∃ flag', heap'[r]? = some (.cexpr op kids flag')

theorem SameObjects.keptSym {kept : Ref → Prop} {heap heap' : List Node}
    (agrees : SameObjects kept heap heap')
    {r : Ref} {name : String} {val : Option Ref} (keeps : kept r)
    (loaded : heap[r]? = some (.sym name val)) : heap'[r]? = some (.sym name val) := by
  obtain ⟨val', loaded', same⟩ := agrees.sym loaded
  rw [loaded', same keeps]

theorem SameObjects.opOf_eq {kept : Ref → Prop} {heap heap' : List Node}
    (agrees : SameObjects kept heap heap') {r : Ref} (allocated : r < heap.length) :
    opOf heap' r = opOf heap r := by
  have loaded := List.getElem?_eq_getElem allocated
  cases node : heap[r] with
  | cexpr op kids flag =>
      rw [node] at loaded
      obtain ⟨flag', loaded'⟩ := agrees.cexpr loaded
      rw [opOf_of_load loaded, opOf_of_load loaded']
  | int value => simp [opOf, loaded, node, agrees.int (node ▸ loaded)]
  | rat value => simp [opOf, loaded, node, agrees.rat (node ▸ loaded)]
  | hole val => simp [opOf, loaded, node, agrees.hole (node ▸ loaded)]
  | sym name val =>
      obtain ⟨val', loaded', -⟩ := agrees.sym (node ▸ loaded)
      simp [opOf, loaded, node, loaded']

theorem SameObjects.mono {kept fewer : Ref → Prop} {heap heap' : List Node}
    (le : ∀ r, fewer r → kept r) (agrees : SameObjects kept heap heap') :
    SameObjects fewer heap heap' where
  int := agrees.int
  rat := agrees.rat
  hole := agrees.hole
  sym loaded := by
    obtain ⟨val', loaded', same⟩ := agrees.sym loaded
    exact ⟨val', loaded', fun keeps => same (le _ keeps)⟩
  cexpr := agrees.cexpr

theorem SameObjects.trans {kept : Ref → Prop} {heap middle heap' : List Node}
    (first : SameObjects kept heap middle) (second : SameObjects kept middle heap') :
    SameObjects kept heap heap' where
  int loaded := second.int (first.int loaded)
  rat loaded := second.rat (first.rat loaded)
  hole loaded := second.hole (first.hole loaded)
  sym loaded := by
    obtain ⟨val, loaded', same⟩ := first.sym loaded
    obtain ⟨val', loaded'', same'⟩ := second.sym loaded'
    exact ⟨val', loaded'', fun keeps => (same' keeps).trans (same keeps)⟩
  cexpr loaded := by
    obtain ⟨flag, loaded'⟩ := first.cexpr loaded
    exact second.cexpr loaded'

/-- Allocation keeps all objects. -/
theorem agrees_append (kept : Ref → Prop) (heap extra : List Node) :
    SameObjects kept heap (heap ++ extra) := by
  have keeps : ∀ {r : Ref} {node : Node}, heap[r]? = some node → (heap ++ extra)[r]? = some node :=
    fun loaded => (List.getElem?_append_left (List.getElem?_eq_some_iff.mp loaded).1).trans loaded
  exact ⟨keeps, keeps, keeps, fun loaded => ⟨_, keeps loaded, fun _ => rfl⟩,
    fun loaded => ⟨_, keeps loaded⟩⟩

theorem sameObjects_refl (kept : Ref → Prop) (heap : List Node) : SameObjects kept heap heap := by
  simpa using agrees_append kept heap []

/-- An assignment to a symbol changes no other object. -/
theorem agrees_setSym {heap : List Node} {x : Ref} {name : String} {old : Option Ref}
    (loaded : heap[x]? = some (.sym name old)) (val : Option Ref) :
    SameObjects (· ≠ x) heap (heap.set x (.sym name val)) := by
  have other : ∀ {r : Ref} {node : Node}, r ≠ x → heap[r]? = some node →
      (heap.set x (.sym name val))[r]? = some node :=
    fun apart found => (List.getElem?_set_ne (Ne.symm apart)).trans found
  have apart : ∀ {r : Ref} {node : Node}, heap[r]? = some node → (∀ val', node ≠ .sym name val') →
      r ≠ x := by
    rintro r node found leaf rfl
    rw [loaded] at found
    exact leaf old (Option.some.inj found).symm
  refine ⟨fun found => other (apart found (by simp)) found,
    fun found => other (apart found (by simp)) found,
    fun found => other (apart found (by simp)) found, fun {r name' val'} found => ?_,
    fun found => ⟨_, other (apart found (by simp)) found⟩⟩
  by_cases same : r = x
  · subst same
    rw [loaded] at found
    cases found
    exact ⟨val, by simp [(List.getElem?_eq_some_iff.mp loaded).1], fun differs =>
      absurd rfl differs⟩
  · exact ⟨val', other same found, fun _ => rfl⟩

/-- An assignment to a flag changes nothing else. -/
theorem agrees_setFlag (kept : Ref → Prop) {heap : List Node} {r : Ref} {op : Op} {kids : List Ref}
    {old : Bool} (loaded : heap[r]? = some (.cexpr op kids old)) (flag : Bool) :
    SameObjects kept heap (heap.set r (.cexpr op kids flag)) := by
  have other : ∀ {r' : Ref} {node : Node}, r' ≠ r → heap[r']? = some node →
      (heap.set r (.cexpr op kids flag))[r']? = some node :=
    fun apart found => (List.getElem?_set_ne (Ne.symm apart)).trans found
  have apart : ∀ {r' : Ref} {node : Node}, heap[r']? = some node →
      (∀ flag', node ≠ .cexpr op kids flag') → r' ≠ r := by
    rintro r' node found leaf rfl
    rw [loaded] at found
    exact leaf old (Option.some.inj found).symm
  refine ⟨fun found => other (apart found (by simp)) found,
    fun found => other (apart found (by simp)) found,
    fun found => other (apart found (by simp)) found,
    fun found => ⟨_, other (apart found (by simp)) found, fun _ => rfl⟩,
    fun {r' op' kids' flag'} found => ?_⟩
  by_cases same : r' = r
  · subst same
    rw [loaded] at found
    cases found
    exact ⟨flag, by simp [(List.getElem?_eq_some_iff.mp loaded).1]⟩
  · exact ⟨flag', other same found⟩

/-- What an expression stands for depends on the values of the symbols free in it only. -/
theorem Denotes.frame {names : Names} {heap heap' : List Node} {env : List Ref} {r : Ref}
    {t : Term Leaf} (denotes : Denotes names heap env r t)
    (agrees : SameObjects names.free heap heap') : Denotes names heap' env r t := by
  induction denotes with
  | int loaded => exact .int (agrees.int loaded)
  | rat loaded => exact .rat (agrees.rat loaded)
  | unfilled loaded => exact .unfilled (agrees.hole loaded)
  | filled loaded _ hyp => exact .filled (agrees.hole loaded) hyp
  | bound loaded member =>
      obtain ⟨val', loaded', -⟩ := agrees.sym loaded
      exact .bound loaded' member
  | free loaded outside named => exact .free (agrees.keptSym named loaded) outside named
  | prog loaded outside named program =>
      have same := agrees.opOf_eq (lt_length_of_opOf program)
      exact .prog (agrees.keptSym named loaded) outside named (same.trans program)
  | defined loaded outside named other value hyp =>
      have same := agrees.opOf_eq value.allocated
      exact .defined (agrees.keptSym named loaded) outside named (same ▸ other) hyp
  | lam loaded symbol named _ hyp =>
      obtain ⟨flag', loaded'⟩ := agrees.cexpr loaded
      obtain ⟨val', symbol', -⟩ := agrees.sym symbol
      exact .lam loaded' symbol' named hyp
  | pi loaded symbol named _ _ outer under =>
      obtain ⟨flag', loaded'⟩ := agrees.cexpr loaded
      obtain ⟨val', symbol', -⟩ := agrees.sym symbol
      exact .pi loaded' symbol' named outer under
  | node loaded plain len _ each =>
      obtain ⟨flag', loaded'⟩ := agrees.cexpr loaded
      exact .node loaded' plain len each

/-! ## Definitions -/

theorem valOf_sym {heap : List Node} {r : Ref} {name : String} {val : Option Ref}
    (loaded : heap[r]? = some (.sym name val)) : valOf heap r = val := by
  simp [valOf, loaded]

theorem valOf_hole {heap : List Node} {r : Ref} {val : Option Ref}
    (loaded : heap[r]? = some (.hole val)) : valOf heap r = val := by
  simp [valOf, loaded]

theorem valOf_of_opOf {heap : List Node} {r : Ref} {op : Op} (found : opOf heap r = some op) :
    valOf heap r = none := by
  unfold opOf at found
  unfold valOf
  split at found <;> simp_all

/-- Following definitions does not change what an expression stands for. -/
theorem Denotes.followFor {names : Names} {heap : List Node} {steps : Nat} {r last : Ref}
    {t : Term Leaf} (denotes : Denotes names heap [] r t)
    (followed : followFor heap steps r = some last) :
    Denotes names heap [] last t ∧ opOf heap last ≠ some .prog ∨
      opOf heap last = some .prog ∧ t = .leaf (.prog last) := by
  have leaf : ∀ {r : Ref}, valOf heap r = none → Denotes names heap [] r t →
      opOf heap r ≠ some .prog := by
    intro r unset denotes
    cases denotes with
    | bound _ member => exact absurd member List.not_mem_nil
    | int loaded | rat loaded | unfilled loaded | free loaded => simp [opOf, loaded]
    | filled loaded | prog loaded | defined loaded => simp [valOf, loaded] at unset
    | lam loaded | pi loaded => simp [opOf, loaded]
    | node loaded plain => simpa [opOf, loaded] using plain.2.2
  induction steps generalizing r with
  | zero =>
      unfold Lfsc.followFor at followed
      cases link : valOf heap r with
      | some next => simp [link] at followed
      | none =>
          obtain rfl : r = last := by simpa [link] using followed
          exact .inl ⟨denotes, leaf link denotes⟩
  | succ steps hyp =>
      unfold Lfsc.followFor at followed
      cases link : valOf heap r with
      | none =>
          obtain rfl : r = last := by simpa [link] using followed
          exact .inl ⟨denotes, leaf link denotes⟩
      | some next =>
          simp only [link] at followed
          have isNext : ∀ {val : Ref}, valOf heap r = some val → val = next := fun found =>
            Option.some.inj (found.symm.trans link)
          cases denotes with
          | bound _ member => exact absurd member List.not_mem_nil
          | int loaded | rat loaded | unfilled loaded | free loaded => simp [valOf, loaded] at link
          | lam loaded | pi loaded | node loaded => simp [valOf, loaded] at link
          | filled loaded value =>
              obtain rfl := isNext (valOf_hole loaded)
              exact hyp value followed
          | defined loaded _ _ _ value =>
              obtain rfl := isNext (valOf_sym loaded)
              exact hyp value followed
          | @prog _ _ val _ loaded _ _ program =>
              obtain rfl := isNext (valOf_sym loaded)
              obtain rfl : val = last := by
                unfold Lfsc.followFor at followed
                simpa [valOf_of_opOf program] using followed
              exact .inr ⟨program, rfl⟩

/-- The values passed when an expression is followed through definitions. -/
inductive Chain (heap : List Node) : Ref → List Ref → Ref → Prop
  | stop {r : Ref} (unset : valOf heap r = none) : Chain heap r [] r
  | link {r next last : Ref} {path : List Ref} (value : valOf heap r = some next)
      (chain : Chain heap next path last) : Chain heap r (r :: path) last

theorem Chain.unique {heap : List Node} {r last last' : Ref} {path path' : List Ref}
    (chain : Chain heap r path last) (chain' : Chain heap r path' last') : path = path' := by
  induction chain generalizing path' with
  | stop unset =>
      cases chain' with
      | stop => rfl
      | link value => simp [unset] at value
  | link value _ hyp =>
      cases chain' with
      | stop unset => simp [unset] at value
      | link value' chain' =>
          obtain rfl := Option.some.inj (value.symm.trans value')
          rw [hyp chain']

theorem Chain.from_mem {heap : List Node} {r last x : Ref} {path : List Ref}
    (chain : Chain heap r path last) (member : x ∈ path) :
    ∃ rest, rest.length ≤ path.length ∧ Chain heap x rest last := by
  induction chain with
  | stop => exact absurd member List.not_mem_nil
  | @link r next last path value chain hyp =>
      rcases List.mem_cons.mp member with rfl | member
      · exact ⟨x :: path, Nat.le_refl _, .link value chain⟩
      · obtain ⟨rest, le, chain'⟩ := hyp member
        exact ⟨rest, Nat.le_succ_of_le le, chain'⟩

theorem Chain.nodup {heap : List Node} {r last : Ref} {path : List Ref}
    (chain : Chain heap r path last) : path.Nodup := by
  induction chain with
  | stop => exact List.nodup_nil
  | @link r next last path value chain hyp =>
      refine List.nodup_cons.mpr ⟨fun member => ?_, hyp⟩
      obtain ⟨rest, le, chain'⟩ := chain.from_mem member
      obtain rfl := chain'.unique (.link value chain)
      exact Nat.not_succ_le_self _ le

/-- A chain that ends is followed to its end: it has at most as many links as there are objects. -/
theorem Chain.followDefs {heap : List Node} {r last : Ref} {path : List Ref}
    (chain : Chain heap r path last) : Lfsc.followDefs heap r = some last := by
  have inside : ∀ x ∈ path, x ∈ List.range heap.length := by
    induction chain with
    | stop => simp
    | link value _ hyp =>
        exact List.forall_mem_cons.mpr ⟨List.mem_range.mpr (lt_length_of_valOf value), hyp⟩
  have short : path.length ≤ heap.length := by
    simpa using chain.nodup.length_le_of_subset inside
  have followed : Lfsc.followFor heap path.length r = some last := by
    clear short inside
    induction chain with
    | stop unset =>
        unfold Lfsc.followFor
        simp [unset]
    | link value _ hyp =>
        unfold Lfsc.followFor
        simpa [value] using hyp
  exact followFor_mono short followed

/-- An expression that stands for a term is followed to an end. -/
theorem Denotes.exists_followDefs {names : Names} {heap : List Node} {r : Ref} {t : Term Leaf}
    (denotes : Denotes names heap [] r t) : ∃ last, followDefs heap r = some last := by
  suffices ends : ∀ {env : List Ref} {r : Ref} {t : Term Leaf}, Denotes names heap env r t →
      env = [] → ∃ path last, Chain heap r path last by
    obtain ⟨path, last, chain⟩ := ends denotes rfl
    exact ⟨last, chain.followDefs⟩
  intro env r t denotes
  induction denotes with
  | int loaded | rat loaded | unfilled loaded | free loaded | lam loaded | pi loaded
  | node loaded =>
      exact fun _ => ⟨[], _, .stop (by simp [valOf, loaded])⟩
  | bound _ member =>
      rintro rfl
      exact absurd member List.not_mem_nil
  | filled loaded _ hyp =>
      intro top
      obtain ⟨path, last, chain⟩ := hyp top
      exact ⟨_, last, .link (valOf_hole loaded) chain⟩
  | defined loaded _ _ _ _ hyp =>
      intro top
      obtain ⟨path, last, chain⟩ := hyp top
      exact ⟨_, last, .link (valOf_sym loaded) chain⟩
  | prog loaded _ _ program =>
      exact fun _ => ⟨_, _, .link (valOf_sym loaded) (.stop (valOf_of_opOf program))⟩

/-- A symbol assigned to what an expression is followed to stands for what the expression does. -/
theorem Denotes.assigned {names wider : Names} {heap heap' : List Node} {steps : Nat}
    {r last x : Ref} {name : String} {t : Term Leaf} (denotes : Denotes names heap [] r t)
    (followed : Lfsc.followFor heap steps r = some last)
    (agrees : SameObjects names.free heap heap')
    (loaded : heap'[x]? = some (.sym name (some last))) (named : wider.free x)
    (binder : ∀ y, names.binder y → wider.binder y) (free : ∀ y, names.free y → wider.free y) :
    Denotes wider heap' [] x t := by
  rcases denotes.followFor followed with ⟨denotes', other⟩ | ⟨program, rfl⟩
  · have same := agrees.opOf_eq denotes'.allocated
    exact .defined loaded List.not_mem_nil named (same ▸ other)
      ((denotes'.frame agrees).mono binder free)
  · have same := agrees.opOf_eq (lt_length_of_opOf program)
    exact .prog loaded List.not_mem_nil named (same.trans program)

/-- Where symbols are assigned, the terms of their values are substituted for them.  No binder that
the derivation meets may occur free in these values. -/
theorem Denotes.fill {names : Names} {heap heap' : List Node} {xs : List Ref}
    {values : List (Term Leaf)} (agrees : SameObjects (· ∉ xs) heap heap')
    (assigned : ∀ x ∈ xs, ∃ value, values[xs.idxOf x]? = some value ∧
      Denotes ⟨fun _ => True, fun y => ¬ names.binder y ∨ y = x⟩ heap' [] x value)
    {env : List Ref} {r : Ref} {t : Term Leaf} (denotes : Denotes names heap env r t) :
    ∀ inner : List Ref, env = inner ++ xs → (∀ y ∈ inner, names.binder y) →
      Denotes .any heap' inner r (t.fill inner.length values) := by
  have apart : ∀ {inner : List Ref} {x : Ref}, x ∉ inner ++ xs → x ∉ inner ∧ x ∉ xs :=
    fun outside => ⟨fun member => outside (List.mem_append_left _ member),
      fun member => outside (List.mem_append_right _ member)⟩
  induction denotes with
  | int loaded => exact fun inner _ _ => .int (agrees.int loaded)
  | rat loaded => exact fun inner _ _ => .rat (agrees.rat loaded)
  | unfilled loaded => exact fun inner _ _ => .unfilled (agrees.hole loaded)
  | filled loaded _ hyp =>
      exact fun inner split bound => .filled (agrees.hole loaded) (hyp inner split bound)
  | @bound env r name val loaded member =>
      rintro inner rfl bound
      obtain ⟨val', loaded', -⟩ := agrees.sym loaded
      by_cases within : r ∈ inner
      · have index := List.idxOf_lt_length_of_mem within
        rw [List.idxOf_append_of_mem within, Term.fill, if_pos index]
        exact .bound loaded' within
      · have member' : r ∈ xs := (List.mem_append.mp member).resolve_left within
        obtain ⟨value, found, denotes⟩ := assigned r member'
        have index : ¬ inner.length + xs.idxOf r < inner.length := by omega
        have shifted : inner.length + xs.idxOf r - inner.length = xs.idxOf r := by omega
        rw [List.idxOf_append_of_notMem within, Term.fill, if_neg index, shifted, found,
          Option.getD_some]
        have outside : ∀ y, (¬ names.binder y ∨ y = r) → y ∉ inner := by
          rintro y (other | rfl) member
          · exact other (bound y member)
          · exact within member
        exact (denotes.weaken outside).mono (fun _ _ => trivial) (fun _ _ => trivial)
  | free loaded outside named =>
      rintro inner rfl bound
      obtain ⟨outside, kept⟩ := apart outside
      exact .free (agrees.keptSym kept loaded) outside trivial
  | prog loaded outside named program =>
      rintro inner rfl bound
      obtain ⟨outside, kept⟩ := apart outside
      have same := agrees.opOf_eq (lt_length_of_opOf program)
      exact .prog (agrees.keptSym kept loaded) outside trivial (same.trans program)
  | defined loaded outside named other value hyp =>
      rintro inner rfl bound
      obtain ⟨outside, kept⟩ := apart outside
      have same := agrees.opOf_eq value.allocated
      exact .defined (agrees.keptSym kept loaded) outside trivial (same ▸ other)
        (hyp inner rfl bound)
  | @lam env r var body flag name val t loaded symbol named _ hyp =>
      rintro inner rfl bound
      obtain ⟨flag', loaded'⟩ := agrees.cexpr loaded
      obtain ⟨val', symbol', -⟩ := agrees.sym symbol
      exact .lam loaded' symbol' trivial (hyp (var :: inner) rfl
        (List.forall_mem_cons.mpr ⟨named, bound⟩))
  | @pi env r var domain range flag name val d t loaded symbol named _ _ outer under =>
      rintro inner rfl bound
      obtain ⟨flag', loaded'⟩ := agrees.cexpr loaded
      obtain ⟨val', symbol', -⟩ := agrees.sym symbol
      rw [fill_spine]
      exact .pi loaded' symbol' trivial (outer inner rfl bound)
        (under (var :: inner) rfl (List.forall_mem_cons.mpr ⟨named, bound⟩))
  | @node env r op kids flag terms loaded plain len _ each =>
      rintro inner rfl bound
      obtain ⟨flag', loaded'⟩ := agrees.cexpr loaded
      rw [fill_spine]
      refine .node loaded' plain (by rw [len, List.length_map]) fun kid term member => ?_
      rw [List.zip_map_right, List.mem_map] at member
      obtain ⟨⟨kid', term'⟩, member, same⟩ := member
      obtain ⟨rfl, rfl⟩ := Prod.mk.inj same
      exact each kid' term' member inner rfl bound

end Lfsc
