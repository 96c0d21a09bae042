import Mathlib.Data.List.Forall2
import Lfsc.SideCondition.Evaluator

/-!
# Values and code in the expression store

Which objects of a heap stand for a value or for a piece of code.  The same value may be reached
through different objects, and `defeq` replaces one by the other in place; what objects stand for is
kept by allocation, by assignments to variables and by these replacements.
-/

namespace Lfsc

/-! ## Values -/

/-- The expression object at an address stands for a value. -/
inductive Represents (sig : Signature) (heap : List Node) : Ref → Val → Prop
  | sym {name : Ref} {text : String} {arity : Nat} (role : sig name = .constructor arity)
      (loaded : heap[name]? = some (.sym text none)) : Represents sig heap name (.sym name)
  | int {r : Ref} {value : Int} (loaded : heap[r]? = some (.int value)) :
      Represents sig heap r (.int value)
  | rat {r : Ref} {value : Rat} (loaded : heap[r]? = some (.rat value)) :
      Represents sig heap r (.rat value)
  | app {r first : Ref} {kids : List Ref} {flag : Bool} {head : Val} {args : List Val}
      (loaded : heap[r]? = some (.cexpr .app (first :: kids) flag))
      (headed : Represents sig heap first head) (length : kids.length = args.length)
      (each : ∀ pair ∈ kids.zip args, Represents sig heap pair.1 pair.2) :
      Represents sig heap r (.app head args)

section Represents

variable {sig : Signature} {heap : List Node}

/-- The arguments of an application one by one. -/
theorem represents_each {kids : List Ref} {args : List Val} :
    List.Forall₂ (Represents sig heap) kids args ↔
      kids.length = args.length ∧ ∀ pair ∈ kids.zip args, Represents sig heap pair.1 pair.2 := by
  rw [List.forall₂_iff_zip]
  constructor
  · rintro ⟨length, each⟩
    exact ⟨length, fun pair member => each member⟩
  · rintro ⟨length, each⟩
    exact ⟨length, fun member => each _ member⟩

theorem represents_app_iff {r : Ref} {head : Val} {args : List Val} :
    Represents sig heap r (.app head args) ↔
      ∃ first kids flag, heap[r]? = some (.cexpr .app (first :: kids) flag) ∧
        Represents sig heap first head ∧ List.Forall₂ (Represents sig heap) kids args := by
  constructor
  · intro represented
    cases represented with
    | app loaded headed length each =>
        exact ⟨_, _, _, loaded, headed, represents_each.mpr ⟨length, each⟩⟩
  · rintro ⟨first, kids, flag, loaded, headed, all⟩
    obtain ⟨length, each⟩ := represents_each.mp all
    exact .app loaded headed length each

theorem represents_sym_iff {r name : Ref} :
    Represents sig heap r (.sym name) ↔
      r = name ∧ (∃ arity, sig name = .constructor arity) ∧
        ∃ text, heap[name]? = some (.sym text none) := by
  constructor
  · intro represented
    cases represented with
    | sym role loaded => exact ⟨rfl, ⟨_, role⟩, _, loaded⟩
  · rintro ⟨rfl, ⟨arity, role⟩, text, loaded⟩
    exact .sym role loaded

theorem represents_int_iff {r : Ref} {value : Int} :
    Represents sig heap r (.int value) ↔ heap[r]? = some (.int value) := by
  constructor
  · intro represented
    cases represented with
    | int loaded => exact loaded
  · exact .int

theorem represents_rat_iff {r : Ref} {value : Rat} :
    Represents sig heap r (.rat value) ↔ heap[r]? = some (.rat value) := by
  constructor
  · intro represented
    cases represented with
    | rat loaded => exact loaded
  · exact .rat

/-- The object of a value has no `val`. -/
theorem Represents.valOf_eq {r : Ref} {value : Val} (represented : Represents sig heap r value) :
    valOf heap r = none := by
  cases represented with
  | sym _ loaded | int loaded | rat loaded | app loaded => simp [valOf, loaded]

/-- A value with an operator is an application. -/
theorem Represents.op_eq {r : Ref} {value : Val} (represented : Represents sig heap r value)
    {op : Op} {kids : List Ref} {flag : Bool} (loaded : heap[r]? = some (.cexpr op kids flag)) :
    op = .app := by
  cases represented with
  | app loaded' => exact (by simpa [loaded] using loaded' : _ ∧ _).1
  | sym _ loaded' | int loaded' | rat loaded' => simp [loaded'] at loaded

theorem Represents.lt_length {r : Ref} {value : Val} (represented : Represents sig heap r value) :
    r < heap.length := by
  cases represented with
  | sym _ loaded | int loaded | rat loaded | app loaded =>
      exact (List.getElem?_eq_some_iff.mp loaded).1

/-- Induction on the value that an object stands for, with all arguments at once. -/
@[elab_as_elim]
theorem Represents.induct {motive : ∀ r value, Represents sig heap r value → Prop}
    (sym : ∀ name text arity (role : sig name = .constructor arity)
      (loaded : heap[name]? = some (.sym text none)), motive name (.sym name) (.sym role loaded))
    (int : ∀ r value (loaded : heap[r]? = some (.int value)), motive r (.int value) (.int loaded))
    (rat : ∀ r value (loaded : heap[r]? = some (.rat value)), motive r (.rat value) (.rat loaded))
    (app : ∀ r first kids flag head args
      (loaded : heap[r]? = some (.cexpr .app (first :: kids) flag))
      (headed : Represents sig heap first head)
      (all : List.Forall₂ (Represents sig heap) kids args), motive first head headed →
      List.Forall₂ (fun kid arg => ∃ each, motive kid arg each) kids args →
      motive r (.app head args) (represents_app_iff.mpr ⟨_, _, _, loaded, headed, all⟩))
    {r : Ref} {value : Val} (represented : Represents sig heap r value) :
    motive r value represented := by
  induction represented with
  | sym role loaded => exact sym _ _ _ role loaded
  | int loaded => exact int _ _ loaded
  | rat loaded => exact rat _ _ loaded
  | app loaded headed length each headMotive eachMotive =>
      refine app _ _ _ _ _ _ loaded headed (represents_each.mpr ⟨length, each⟩) headMotive ?_
      refine List.forall₂_iff_zip.mpr ⟨length, fun member => ?_⟩
      exact ⟨each _ member, eachMotive _ member⟩

/-- Lists of objects stand for one list of values. -/
theorem forall₂_unique {kids : List Ref} {args args' : List Val} {relation : Ref → Val → Prop}
    (first : List.Forall₂ (fun kid arg => ∀ arg', relation kid arg' → arg = arg') kids args)
    (second : List.Forall₂ relation kids args') : args = args' := by
  induction first generalizing args' with
  | nil => exact (List.forall₂_nil_left_iff.mp second).symm
  | cons unique _ hyp =>
      obtain ⟨arg', rest', related, others, rfl⟩ := List.forall₂_cons_left_iff.mp second
      rw [unique arg' related, hyp others]

/-- An object stands for one value. -/
theorem represents_unique {r : Ref} {left right : Val} (first : Represents sig heap r left)
    (second : Represents sig heap r right) : left = right := by
  induction first using Represents.induct generalizing right with
  | sym name text arity role loaded =>
      cases second with
      | sym => rfl
      | int loaded' | rat loaded' | app loaded' => simp [loaded] at loaded'
  | int r value loaded =>
      cases second with
      | int loaded' => simpa [loaded] using loaded'
      | sym _ loaded' | rat loaded' | app loaded' => simp [loaded] at loaded'
  | rat r value loaded =>
      cases second with
      | rat loaded' => simpa [loaded] using loaded'
      | sym _ loaded' | int loaded' | app loaded' => simp [loaded] at loaded'
  | app r first kids flag head args loaded headed all headHyp hyps =>
      cases second with
      | sym _ loaded' | int loaded' | rat loaded' => simp [loaded] at loaded'
      | app loaded' headed' length' each' =>
          obtain ⟨⟨rfl, rfl⟩, rfl⟩ : (_ ∧ _) ∧ _ := by simpa [loaded] using loaded'
          have parts := represents_each.mpr ⟨length', each'⟩
          have unique :=
            hyps.imp fun kid arg hyp (arg' : Val) (represented : Represents sig heap kid arg') =>
            hyp.2 represented
          rw [headHyp headed', forall₂_unique unique parts]

end Represents

/-! ## Code -/

/-- The object of a symbol that code mentions; a constructor has no value. -/
def Named (sig : Signature) (heap : List Node) (name : Ref) : Prop :=
  ∃ text val, heap[name]? = some (.sym text val) ∧
    ∀ arity, sig name = .constructor arity → val = none

/-- The object of a symbol. -/
def Symbolic (heap : List Node) (r : Ref) : Prop := ∃ text val, heap[r]? = some (.sym text val)

/-- The object of a pattern: a constructor, or its application to variables. -/
def PatternAt (heap : List Node) (pat name : Ref) (vars : List Ref) : Prop :=
  (vars = [] ∧ pat = name) ∨
    ((∃ flag, heap[pat]? = some (.cexpr .app (name :: vars) flag)) ∧
      ∀ var ∈ vars, Symbolic heap var)

/-- The object of a case of a `match`, or of its default, with the object of its body. -/
def BranchAt (sig : Signature) (heap : List Node) (r body : Ref) : Pattern → Prop
  | .default => r = body
  | .ctor name vars =>
      ∃ pat flag, heap[r]? = some (.cexpr .case_ [pat, body] flag) ∧ Named sig heap name ∧
        PatternAt heap pat name vars

/-- The expression object at an address stands for code. -/
inductive Encodes (sig : Signature) (heap : List Node) : Ref → Code → Prop
  | int {r : Ref} {value : Int} (loaded : heap[r]? = some (.int value)) :
      Encodes sig heap r (.int value)
  | rat {r : Ref} {value : Rat} (loaded : heap[r]? = some (.rat value)) :
      Encodes sig heap r (.rat value)
  | sym {name : Ref} (named : Named sig heap name) : Encodes sig heap name (.sym name)
  | apply {r head : Ref} {kids : List Ref} {flag : Bool} {args : List Code}
      (loaded : heap[r]? = some (.cexpr .app (head :: kids) flag)) (named : Named sig heap head)
      (length : kids.length = args.length)
      (each : ∀ pair ∈ kids.zip args, Encodes sig heap pair.1 pair.2) :
      Encodes sig heap r (.apply head args)
  | fail {r : Ref} {op : Op} {kids : List Ref} {flag : Bool}
      (loaded : heap[r]? = some (.cexpr op kids flag))
      (failing : op = .fail ∨ op = .mpz ∨ op = .mpq) : Encodes sig heap r .fail
  | do_ {r a b : Ref} {flag : Bool} {first second : Code}
      (loaded : heap[r]? = some (.cexpr .do_ [a, b] flag)) (left : Encodes sig heap a first)
      (right : Encodes sig heap b second) : Encodes sig heap r (.do_ first second)
  | let_ {r var a b : Ref} {flag : Bool} {value body : Code}
      (loaded : heap[r]? = some (.cexpr .let_ [var, a, b] flag)) (left : Encodes sig heap a value)
      (right : Encodes sig heap b body) : Encodes sig heap r (.let_ var value body)
  | arith {r a b : Ref} {op : Op} {flag : Bool} {left right : Code}
      (loaded : heap[r]? = some (.cexpr op [a, b] flag))
        (arithmetic : op = .add ∨ op = .mul ∨ op = .div)
      (first : Encodes sig heap a left) (second : Encodes sig heap b right) :
      Encodes sig heap r (.arith op left right)
  | neg {r a : Ref} {flag : Bool} {operand : Code}
      (loaded : heap[r]? = some (.cexpr .neg [a] flag)) (first : Encodes sig heap a operand) :
      Encodes sig heap r (.neg operand)
  | mpzToMpq {r a : Ref} {flag : Bool} {operand : Code}
      (loaded : heap[r]? = some (.cexpr .mpzToMpq [a] flag)) (first : Encodes sig heap a operand) :
      Encodes sig heap r (.mpzToMpq operand)
  | ifNumeral {r a b c : Ref} {op : Op} {flag : Bool} {operand yes no : Code}
      (loaded : heap[r]? = some (.cexpr op [a, b, c] flag)) (test : op = .ifneg ∨ op = .ifzero)
      (first : Encodes sig heap a operand) (second : Encodes sig heap b yes)
      (third : Encodes sig heap c no) : Encodes sig heap r (.ifNumeral op operand yes no)
  | ifMarked {r mark a b c : Ref} {index : Int} {flag : Bool} {operand yes no : Code}
      (loaded : heap[r]? = some (.cexpr .ifmarked [mark, a, b, c] flag))
      (marked : heap[mark]? = some (.int index)) (first : Encodes sig heap a operand)
      (second : Encodes sig heap b yes) (third : Encodes sig heap c no) :
      Encodes sig heap r (.ifMarked index.natAbs operand yes no)
  | compare {r a b c d : Ref} {flag : Bool} {left right yes no : Code}
      (loaded : heap[r]? = some (.cexpr .compare [a, b, c, d] flag))
      (first : Encodes sig heap a left) (second : Encodes sig heap b right)
      (third : Encodes sig heap c yes) (fourth : Encodes sig heap d no) :
      Encodes sig heap r (.compare left right yes no)
  | ifEqual {r a b c d : Ref} {flag : Bool} {left right yes no : Code}
      (loaded : heap[r]? = some (.cexpr .ifequal [a, b, c, d] flag))
      (first : Encodes sig heap a left) (second : Encodes sig heap b right)
      (third : Encodes sig heap c yes) (fourth : Encodes sig heap d no) :
      Encodes sig heap r (.ifEqual left right yes no)
  | markVar {r mark a : Ref} {index : Int} {flag : Bool} {operand : Code}
      (loaded : heap[r]? = some (.cexpr .markvar [mark, a] flag))
      (marked : heap[mark]? = some (.int index)) (first : Encodes sig heap a operand) :
      Encodes sig heap r (.markVar index.natAbs operand)
  | match_ {r a : Ref} {cases bodies : List Ref} {flag : Bool} {scrutinee : Code}
      {branches : List (Pattern × Code)}
      (loaded : heap[r]? = some (.cexpr .match_ (a :: cases) flag))
      (first : Encodes sig heap a scrutinee) (length : cases.length = branches.length)
      (length' : bodies.length = branches.length)
      (patterns : ∀ triple ∈ cases.zip (bodies.zip branches),
        BranchAt sig heap triple.1 triple.2.1 triple.2.2.1)
      (each : ∀ pair ∈ bodies.zip branches, Encodes sig heap pair.1 pair.2.2) :
      Encodes sig heap r (.match_ scrutinee branches)

section Encodes

variable {sig : Signature} {heap : List Node}

theorem encodes_each {kids : List Ref} {args : List Code} :
    List.Forall₂ (Encodes sig heap) kids args ↔
      kids.length = args.length ∧ ∀ pair ∈ kids.zip args, Encodes sig heap pair.1 pair.2 := by
  rw [List.forall₂_iff_zip]
  constructor
  · rintro ⟨length, each⟩
    exact ⟨length, fun pair member => each member⟩
  · rintro ⟨length, each⟩
    exact ⟨length, fun member => each _ member⟩

/-- The branches of a `match` one by one. -/
theorem encodes_branches {cases bodies : List Ref} {branches : List (Pattern × Code)}
    (length : cases.length = branches.length) (length' : bodies.length = branches.length)
    (patterns : ∀ triple ∈ cases.zip (bodies.zip branches),
      BranchAt sig heap triple.1 triple.2.1 triple.2.2.1)
    (each : ∀ pair ∈ bodies.zip branches, Encodes sig heap pair.1 pair.2.2) :
    List.Forall₂ (fun case branch =>
      ∃ body, BranchAt sig heap case body branch.1 ∧ Encodes sig heap body branch.2)
      cases branches := by
  induction cases generalizing bodies branches with
  | nil =>
      obtain rfl : branches = [] := List.length_eq_zero_iff.mp length.symm
      exact .nil
  | cons case cases hyp =>
      cases branches with
      | nil => simp at length
      | cons branch branches =>
          cases bodies with
          | nil => simp at length'
          | cons body bodies =>
              simp only [List.zip_cons_cons, List.forall_mem_cons] at patterns each
              refine .cons ⟨body, patterns.1, each.1⟩ (hyp ?_ ?_ patterns.2 each.2)
              · simpa using length
              · simpa using length'

theorem Encodes.ifMarked_inv {r : Ref} {index : Nat} {operand yes no : Code}
    (encoded : Encodes sig heap r (.ifMarked index operand yes no)) :
    ∃ mark a b c num flag, heap[r]? = some (.cexpr .ifmarked [mark, a, b, c] flag) ∧
      heap[mark]? = some (.int num) ∧ num.natAbs = index ∧ Encodes sig heap a operand ∧
      Encodes sig heap b yes ∧ Encodes sig heap c no := by
  cases encoded with
  | ifMarked loaded marked first second third =>
      exact ⟨_, _, _, _, _, _, loaded, marked, rfl, first, second, third⟩

theorem Encodes.markVar_inv {r : Ref} {index : Nat} {operand : Code}
    (encoded : Encodes sig heap r (.markVar index operand)) :
    ∃ mark a num flag, heap[r]? = some (.cexpr .markvar [mark, a] flag) ∧
      heap[mark]? = some (.int num) ∧ num.natAbs = index ∧ Encodes sig heap a operand := by
  cases encoded with
  | markVar loaded marked first => exact ⟨_, _, _, _, loaded, marked, rfl, first⟩

/-- The object of code is not a case of a `match`. -/
theorem Encodes.not_case {r : Ref} {code : Code} (encoded : Encodes sig heap r code) :
    opOf heap r ≠ some .case_ := by
  cases encoded with
  | sym named =>
      obtain ⟨text, val, loaded, -⟩ := named
      simp [opOf, loaded]
  | fail loaded failing => obtain rfl | rfl | rfl := failing <;> simp [opOf, loaded]
  | arith loaded arithmetic => obtain rfl | rfl | rfl := arithmetic <;> simp [opOf, loaded]
  | ifNumeral loaded test => obtain rfl | rfl := test <;> simp [opOf, loaded]
  | _ loaded => simp [opOf, loaded]

end Encodes

/-! ## Changes of the heap -/

/-- The same object, or another one that stands for the same value. -/
def Exchanged (sig : Signature) (heap : List Node) (kid kid' : Ref) : Prop :=
  kid = kid' ∨ ∃ value, Represents sig heap kid value ∧ Represents sig heap kid' value

/-- A heap that differs from another one by new objects, values of variables and children of
applications exchanged for the same values. -/
structure Rearranges (sig : Signature) (heap heap' : List Node) : Prop where
  apps : ∀ (r : Ref) kids flag, heap[r]? = some (.cexpr .app kids flag) →
    ∃ kids', heap'[r]? = some (.cexpr .app kids' flag) ∧
      List.Forall₂ (Exchanged sig heap) kids kids'
  syms : ∀ (r : Ref) text val, heap[r]? = some (.sym text val) →
    ∃ val', heap'[r]? = some (.sym text val') ∧ (sig r = .var ∨ val' = val)
  others : ∀ (r : Ref) node, heap[r]? = some node → (∀ kids flag, node ≠ .cexpr .app kids flag) →
    (∀ text val, node ≠ .sym text val) → heap'[r]? = some node

/-- Two relations on the entries of a list relate what they relate to its entries. -/
theorem forall₂_join {α β γ : Type} {first : α → β → Prop} {second : α → γ → Prop}
    {joined : β → γ → Prop} (join : ∀ a b c, first a b → second a c → joined b c)
    {as : List α} {bs : List β} {cs : List γ} (left : List.Forall₂ first as bs)
    (right : List.Forall₂ second as cs) : List.Forall₂ joined bs cs := by
  induction left generalizing cs with
  | nil => exact (List.forall₂_nil_left_iff.mp right) ▸ .nil
  | cons related _ hyp =>
      obtain ⟨c, rest, related', others, rfl⟩ := List.forall₂_cons_left_iff.mp right
      exact .cons (join _ _ _ related related') (hyp others)

theorem forall₂_imp_mem {α β : Type} {relation relation' : α → β → Prop} {as : List α} {bs : List β}
    (all : List.Forall₂ relation as bs)
    (imp : ∀ a b, b ∈ bs → relation a b → relation' a b) : List.Forall₂ relation' as bs := by
  induction all with
  | nil => exact .nil
  | cons related _ hyp =>
      refine .cons (imp _ _ List.mem_cons_self related) (hyp fun a b member => ?_)
      exact imp a b (List.mem_cons_of_mem _ member)

section Rearranges

variable {sig : Signature} {heap heap' : List Node}

theorem Exchanged.represents {kid kid' : Ref} {value : Val}
    (exchanged : Exchanged sig heap kid kid')
    (represented : Represents sig heap kid value) : Represents sig heap kid' value := by
  obtain rfl | ⟨other, first, second⟩ := exchanged
  · exact represented
  · rwa [represents_unique represented first]

theorem Exchanged.eq_of_symbolic {kid kid' : Ref} (exchanged : Exchanged sig heap kid kid')
    (symbolic : Symbolic heap kid) : kid' = kid := by
  obtain ⟨text, val, loaded⟩ := symbolic
  obtain rfl | ⟨value, first, second⟩ := exchanged
  · rfl
  · cases first with
    | sym => exact (represents_sym_iff.mp second).1
    | int loaded' | rat loaded' | app loaded' => simp [loaded] at loaded'

/-- The objects of a value still stand for it. -/
theorem Rearranges.represents (moved : Rearranges sig heap heap') {r : Ref} {value : Val}
    (represented : Represents sig heap r value) : Represents sig heap' r value := by
  match value with
  | .sym name =>
      obtain ⟨rfl, ⟨arity, role⟩, text, loaded⟩ := represents_sym_iff.mp represented
      obtain ⟨val', loaded', assigned | rfl⟩ := moved.syms _ _ _ loaded
      · simp [role] at assigned
      · exact .sym role loaded'
  | .int value =>
      exact .int (moved.others _ _ (represents_int_iff.mp represented) (by simp) (by simp))
  | .rat value =>
      exact .rat (moved.others _ _ (represents_rat_iff.mp represented) (by simp) (by simp))
  | .app head args =>
      obtain ⟨first, kids, flag, loaded, headed, all⟩ := represents_app_iff.mp represented
      obtain ⟨_, loaded', exchanged⟩ := moved.apps _ _ _ loaded
      obtain ⟨first', kids', headExchanged, others, rfl⟩ :=
        List.forall₂_cons_left_iff.mp exchanged
      have all' : List.Forall₂ (Represents sig heap) kids' args :=
        forall₂_join (fun kid kid' arg (same : Exchanged sig heap kid kid')
          (each : Represents sig heap kid arg) => same.represents each) others all
      refine represents_app_iff.mpr ⟨first', kids', flag, loaded', ?_, ?_⟩
      · exact moved.represents (headExchanged.represents headed)
      · exact forall₂_imp_mem all' fun kid arg member each => moved.represents each
termination_by sizeOf value
decreasing_by
  · simp; omega
  · have smaller := List.sizeOf_lt_of_mem member
    simp; omega

/-- Objects that stand for the same value stand for the same code. -/
theorem encodes_of_same_value {left right : Ref} {code : Code} {value : Val}
    (encoded : Encodes sig heap left code) (first : Represents sig heap left value)
    (second : Represents sig heap right value) : Encodes sig heap right code := by
  induction encoded generalizing right value with
  | int loaded =>
      cases first with
      | int loaded' =>
          obtain rfl : _ = _ := by simpa [loaded] using loaded'
          exact .int (represents_int_iff.mp second)
      | sym _ loaded' | rat loaded' | app loaded' => simp [loaded] at loaded'
  | rat loaded =>
      cases first with
      | rat loaded' =>
          obtain rfl : _ = _ := by simpa [loaded] using loaded'
          exact .rat (represents_rat_iff.mp second)
      | sym _ loaded' | int loaded' | app loaded' => simp [loaded] at loaded'
  | sym named =>
      obtain ⟨text, val, loaded, -⟩ := id named
      have same : Exchanged sig heap _ right := .inr ⟨value, first, second⟩
      rw [same.eq_of_symbolic ⟨text, val, loaded⟩]
      exact .sym named
  | apply loaded named length each hyps =>
      cases first with
      | sym _ loaded' | int loaded' | rat loaded' => simp [loaded] at loaded'
      | app loaded' headed length' parts =>
          obtain ⟨⟨rfl, rfl⟩, rfl⟩ : (_ ∧ _) ∧ _ := by simpa [loaded] using loaded'
          obtain ⟨first', kids', flag, loaded'', headed', all⟩ := represents_app_iff.mp second
          obtain ⟨text, val, symLoaded, -⟩ := id named
          have same : Exchanged sig heap _ first' := .inr ⟨_, headed, headed'⟩
          obtain rfl := same.eq_of_symbolic ⟨text, val, symLoaded⟩
          have exchanged : List.Forall₂ (fun kid kid' => ∃ value, Represents sig heap kid value ∧
              Represents sig heap kid' value) _ kids' :=
            forall₂_join (fun _ _ _ left right => ⟨_, left, right⟩)
              (represents_each.mpr ⟨length', parts⟩).flip all.flip
          have encoded : List.Forall₂ (fun kid arg => ∀ right value, Represents sig heap kid value →
              Represents sig heap right value → Encodes sig heap right arg) _ _ :=
            List.forall₂_iff_zip.mpr ⟨length, fun member right value => hyps _ member⟩
          have args : List.Forall₂ (Encodes sig heap) kids' _ := forall₂_join
            (fun _ kid' _ same encode => by
              obtain ⟨value, left, right⟩ := same
              exact encode kid' value left right) exchanged encoded
          obtain ⟨length, each⟩ := encodes_each.mp args
          exact .apply loaded'' named length each
  | fail loaded failing => obtain rfl | rfl | rfl := failing <;> cases first.op_eq loaded
  | arith loaded arithmetic => obtain rfl | rfl | rfl := arithmetic <;> cases first.op_eq loaded
  | ifNumeral loaded test => obtain rfl | rfl := test <;> cases first.op_eq loaded
  | _ loaded => cases first.op_eq loaded

theorem Rearranges.cexpr (moved : Rearranges sig heap heap') {r : Ref} {op : Op} {kids : List Ref}
    {flag : Bool} (loaded : heap[r]? = some (.cexpr op kids flag)) (other : op ≠ .app) :
    heap'[r]? = some (.cexpr op kids flag) :=
  moved.others _ _ loaded (by simp [other]) (by simp)

theorem Rearranges.named (moved : Rearranges sig heap heap') {name : Ref}
    (named : Named sig heap name) : Named sig heap' name := by
  obtain ⟨text, val, loaded, fixed⟩ := named
  obtain ⟨val', loaded', assigned | rfl⟩ := moved.syms _ _ _ loaded
  · exact ⟨text, val', loaded', fun arity role => by simp [role] at assigned⟩
  · exact ⟨text, val', loaded', fixed⟩

theorem Rearranges.symbolic (moved : Rearranges sig heap heap') {r : Ref}
    (symbolic : Symbolic heap r) : Symbolic heap' r := by
  obtain ⟨text, val, loaded⟩ := symbolic
  obtain ⟨val', loaded', -⟩ := moved.syms _ _ _ loaded
  exact ⟨text, val', loaded'⟩

/-- The children of an application that are symbols are kept. -/
theorem eq_of_exchanged_symbols {kids kids' : List Ref}
    (exchanged : List.Forall₂ (Exchanged sig heap) kids kids')
    (symbolic : ∀ kid ∈ kids, Symbolic heap kid) : kids' = kids := by
  induction exchanged with
  | nil => rfl
  | cons same _ hyp =>
      rw [same.eq_of_symbolic (symbolic _ List.mem_cons_self),
        hyp fun kid member => symbolic kid (List.mem_cons_of_mem _ member)]

theorem Rearranges.patternAt (moved : Rearranges sig heap heap') {pat name : Ref} {vars : List Ref}
    (symbolic : Symbolic heap name) (pattern : PatternAt heap pat name vars) :
    PatternAt heap' pat name vars := by
  obtain ⟨rfl, rfl⟩ | ⟨⟨flag, loaded⟩, symbols⟩ := pattern
  · exact .inl ⟨rfl, rfl⟩
  · obtain ⟨kids', loaded', exchanged⟩ := moved.apps _ _ _ loaded
    obtain rfl := eq_of_exchanged_symbols exchanged (List.forall_mem_cons.mpr ⟨symbolic, symbols⟩)
    exact .inr ⟨⟨flag, loaded'⟩, fun var member => moved.symbolic (symbols var member)⟩

theorem Rearranges.branchAt (moved : Rearranges sig heap heap') {r body : Ref} {pattern : Pattern}
    (branch : BranchAt sig heap r body pattern) : BranchAt sig heap' r body pattern := by
  cases pattern with
  | default => exact branch
  | ctor name vars =>
      obtain ⟨pat, flag, loaded, named, pattern⟩ := branch
      obtain ⟨text, val, symLoaded, -⟩ := id named
      exact ⟨pat, flag, moved.cexpr loaded (by simp), moved.named named,
        moved.patternAt ⟨text, val, symLoaded⟩ pattern⟩

/-- The objects of code still stand for it. -/
theorem Rearranges.encodes (moved : Rearranges sig heap heap') {r : Ref} {code : Code}
    (encoded : Encodes sig heap r code) : Encodes sig heap' r code := by
  induction encoded with
  | int loaded => exact .int (moved.others _ _ loaded (by simp) (by simp))
  | rat loaded => exact .rat (moved.others _ _ loaded (by simp) (by simp))
  | sym named => exact .sym (moved.named named)
  | apply loaded named length each hyps =>
      obtain ⟨_, loaded', exchanged⟩ := moved.apps _ _ _ loaded
      obtain ⟨head', kids', headExchanged, others, rfl⟩ :=
        List.forall₂_cons_left_iff.mp exchanged
      obtain ⟨text, val, symLoaded, -⟩ := id named
      obtain rfl := headExchanged.eq_of_symbolic ⟨text, val, symLoaded⟩
      have args : List.Forall₂ (Encodes sig heap') kids' _ :=
        forall₂_join (fun _ _ _ same encoded => by
        obtain rfl | ⟨value, left, right⟩ := same
        · exact encoded
        · exact encodes_of_same_value encoded (moved.represents left) (moved.represents right))
        others (encodes_each.mpr ⟨length, hyps⟩)
      obtain ⟨length, each⟩ := encodes_each.mp args
      exact .apply loaded' (moved.named named) length each
  | fail loaded failing =>
      exact .fail (moved.cexpr loaded (by rintro rfl; simp at failing)) failing
  | do_ loaded _ _ left right => exact .do_ (moved.cexpr loaded (by simp)) left right
  | let_ loaded _ _ left right => exact .let_ (moved.cexpr loaded (by simp)) left right
  | arith loaded arithmetic _ _ left right =>
      exact .arith (moved.cexpr loaded (by rintro rfl; simp at arithmetic)) arithmetic left right
  | neg loaded _ first => exact .neg (moved.cexpr loaded (by simp)) first
  | mpzToMpq loaded _ first => exact .mpzToMpq (moved.cexpr loaded (by simp)) first
  | ifNumeral loaded test _ _ _ first second third =>
      exact .ifNumeral (moved.cexpr loaded (by rintro rfl; simp at test)) test first second third
  | ifMarked loaded marked _ _ _ first second third =>
      exact .ifMarked (moved.cexpr loaded (by simp))
        (moved.others _ _ marked (by simp) (by simp)) first second third
  | compare loaded _ _ _ _ first second third fourth =>
      exact .compare (moved.cexpr loaded (by simp)) first second third fourth
  | ifEqual loaded _ _ _ _ first second third fourth =>
      exact .ifEqual (moved.cexpr loaded (by simp)) first second third fourth
  | markVar loaded marked _ first =>
      exact .markVar (moved.cexpr loaded (by simp)) (moved.others _ _ marked (by simp) (by simp))
        first
  | match_ loaded _ length length' patterns _ first each =>
      exact .match_ (moved.cexpr loaded (by simp)) first length length'
        (fun triple member => moved.branchAt (patterns triple member)) each

end Rearranges

end Lfsc
