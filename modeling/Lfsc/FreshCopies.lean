import Mathlib.Logic.Relation
import Lfsc.Expansion

/-!
# New binders

Every abstraction in a copy is a new object.  Its binder is a new symbol, which is mentioned in no
other place of the store than this abstraction.  Nothing else is allocated than what the copy
consists of.
-/

namespace Lfsc

open Exec

/-! ## The graph of objects -/

/-- A relation that another one agrees with on a set that it does not leave. -/
theorem reflTransGen_of_agree {α : Type*} {source target : α → α → Prop} (inside : α → Prop)
    (agree : ∀ a b, inside a → source a b → target a b ∧ inside b) {a b : α} (start : inside a)
    (reaches : Relation.ReflTransGen source a b) :
    Relation.ReflTransGen target a b ∧ inside b := by
  induction reaches with
  | refl => exact ⟨.refl, start⟩
  | tail _ step hyp =>
      obtain ⟨before, within⟩ := hyp
      obtain ⟨next, within'⟩ := agree _ _ within step
      exact ⟨before.tail next, within'⟩

/-- The objects that an object consists of or has as its value. -/
def Node.mentions : Node → List Ref
  | .cexpr _ kids _ => kids
  | .sym _ val | .hole val => val.toList
  | .int _ | .rat _ => []

/-- An object mentions another one. -/
def Refers (heap : List Node) (a b : Ref) : Prop := ∃ node, heap[a]? = some node ∧ b ∈ node.mentions

/-- An object is a child of another one. -/
def Child (heap : List Node) (a b : Ref) : Prop :=
  ∃ op kids flag, heap[a]? = some (.cexpr op kids flag) ∧ b ∈ kids

/-- Only allocated objects are mentioned. -/
def AllAllocated (heap : List Node) : Prop := ∀ a b, Refers heap a b → b < heap.length

theorem allAllocated_of_forall {heap : List Node}
    (each : ∀ node ∈ heap, ∀ b ∈ node.mentions, b < heap.length) : AllAllocated heap := by
  rintro a b ⟨node, loaded, member⟩
  exact each node (List.mem_of_getElem? loaded) b member

/-- An object is reached through children and values. -/
abbrev Touches (heap : List Node) : Ref → Ref → Prop := Relation.ReflTransGen (Refers heap)

/-- An object is reached through children. -/
abbrev Within (heap : List Node) : Ref → Ref → Prop := Relation.ReflTransGen (Child heap)

theorem Child.mentions {heap : List Node} {a b : Ref} (child : Child heap a b) :
    Refers heap a b := by
  obtain ⟨op, kids, flag, loaded, member⟩ := child
  exact ⟨_, loaded, member⟩

theorem Refers.lt_length {heap : List Node} {a b : Ref} (mentions : Refers heap a b) :
    a < heap.length := by
  obtain ⟨node, loaded, -⟩ := mentions
  exact (List.getElem?_eq_some_iff.mp loaded).1

theorem Refers.append {heap : List Node} {a b : Ref} (mentions : Refers heap a b)
    (extra : List Node) : Refers (heap ++ extra) a b := by
  obtain ⟨node, loaded, member⟩ := mentions
  exact ⟨node, loaded_append loaded extra, member⟩

theorem Refers.of_append {heap extra : List Node} {a b : Ref}
    (mentions : Refers (heap ++ extra) a b) (old : a < heap.length) : Refers heap a b := by
  obtain ⟨node, loaded, member⟩ := mentions
  exact ⟨node, by rwa [List.getElem?_append_left old] at loaded, member⟩

theorem Child.append {heap : List Node} {a b : Ref} (child : Child heap a b) (extra : List Node) :
    Child (heap ++ extra) a b := by
  obtain ⟨op, kids, flag, loaded, member⟩ := child
  exact ⟨op, kids, flag, loaded_append loaded extra, member⟩

theorem Child.of_append {heap extra : List Node} {a b : Ref} (child : Child (heap ++ extra) a b)
    (old : a < heap.length) : Child heap a b := by
  obtain ⟨op, kids, flag, loaded, member⟩ := child
  exact ⟨op, kids, flag, by rwa [List.getElem?_append_left old] at loaded, member⟩

theorem Within.append {heap : List Node} {a b : Ref} (within : Within heap a b)
    (extra : List Node) :
    Within (heap ++ extra) a b :=
  Relation.ReflTransGen.mono (fun _ _ child => Child.append child extra) _ _ within

/-- New objects are not reached from old ones. -/
theorem Within.of_append {heap extra : List Node} (allocated : AllAllocated heap) {a b : Ref}
    (within : Within (heap ++ extra) a b) (old : a < heap.length) :
    Within heap a b ∧ b < heap.length := by
  refine reflTransGen_of_agree (· < heap.length) (fun x y inside child => ?_) old within
  have here := child.of_append inside
  exact ⟨here, allocated _ _ here.mentions⟩

theorem Touches.of_append {heap extra : List Node} (allocated : AllAllocated heap) {a b : Ref}
    (touches : Touches (heap ++ extra) a b) (old : a < heap.length) :
    Touches heap a b ∧ b < heap.length := by
  refine reflTransGen_of_agree (· < heap.length) (fun x y inside mentions => ?_) old touches
  have here := mentions.of_append inside
  exact ⟨here, allocated _ _ here⟩

/-- An abstraction with its binder and its body. -/
def Abstracts (heap : List Node) (a binder body : Ref) : Prop :=
  ∃ op kids flag, (op = .lam ∨ op = .pi) ∧
    heap[a]? = some (.cexpr op (binder :: kids) flag) ∧ kids.getLast? = some body

theorem Abstracts.append {heap : List Node} {a binder body : Ref}
    (abstracts : Abstracts heap a binder body) (extra : List Node) :
    Abstracts (heap ++ extra) a binder body := by
  obtain ⟨op, kids, flag, which, loaded, last⟩ := abstracts
  exact ⟨op, kids, flag, which, loaded_append loaded extra, last⟩

theorem Abstracts.of_append {heap extra : List Node} {a binder body : Ref}
    (abstracts : Abstracts (heap ++ extra) a binder body) (old : a < heap.length) :
    Abstracts heap a binder body := by
  obtain ⟨op, kids, flag, which, loaded, last⟩ := abstracts
  exact ⟨op, kids, flag, which, by rwa [List.getElem?_append_left old] at loaded, last⟩

theorem Abstracts.mentions {heap : List Node} {a binder body : Ref}
    (abstracts : Abstracts heap a binder body) : Refers heap a binder := by
  obtain ⟨op, kids, flag, -, loaded, -⟩ := abstracts
  exact ⟨_, loaded, List.mem_cons_self⟩

/-! ## What copying allocates -/

/-- An expression and its copy are built alike; a copied pi keeps its flag. -/
inductive Mirrors (heap : List Node) : Ref → Ref → Prop
  | kept (r : Ref) : Mirrors heap r r
  | renamed {r c : Ref} {name name' : String} {val : Option Ref}
      (loaded : heap[r]? = some (.sym name val)) (copy : heap[c]? = some (.sym name' none)) :
      Mirrors heap r c
  | value {r val c : Ref} (linked : valOf heap r = some val) (rest : Mirrors heap val c) :
      Mirrors heap r c
  | node {r c : Ref} {op : Op} {kids kids' : List Ref} {flag flag' : Bool}
      (loaded : heap[r]? = some (.cexpr op kids flag))
      (copy : heap[c]? = some (.cexpr op kids' flag')) (kept : op = .pi → flag' = flag)
      (len : kids.length = kids'.length)
      (each : ∀ kid kid', (kid, kid') ∈ kids.zip kids' → Mirrors heap kid kid') : Mirrors heap r c

/-- Copies of objects of a heap, made of objects reached from some roots, together with the objects
allocated for them. -/
structure Copying (heap : List Node) (roots rs cs : List Ref) (extra : List Node) : Prop where
  allocated : AllAllocated (heap ++ extra)
  copies : ∀ c ∈ cs, c < (heap ++ extra).length
  /-- Only parts of the copies are allocated. -/
  reached : ∀ a, heap.length ≤ a → a < (heap ++ extra).length → ∃ c ∈ cs, Within (heap ++ extra) c a
  /-- New objects mention what is reached from the roots. -/
  apart : ∀ a b, heap.length ≤ a → b < heap.length → Refers (heap ++ extra) a b →
    ∃ r ∈ roots, Touches heap r b
  reused : ∀ c ∈ cs, c < heap.length → ∃ r ∈ roots, Touches heap r c
  /-- The abstractions of the copies are new. -/
  renewed : ∀ c ∈ cs, ∀ a binder body, Within (heap ++ extra) c a →
    Abstracts (heap ++ extra) a binder body → heap.length ≤ a
  /-- The binder of an abstraction is new, and belongs to it. -/
  owned : ∀ a binder body, heap.length ≤ a → Abstracts (heap ++ extra) a binder body →
    heap.length ≤ binder ∧ binder ∉ cs ∧
      (∀ a' body', Abstracts (heap ++ extra) a' binder body' → a' = a) ∧
        ∀ b, Refers (heap ++ extra) b binder → b = a ∨ Within (heap ++ extra) body b
  len : rs.length = cs.length
  mirrors : ∀ r c, (r, c) ∈ rs.zip cs → Mirrors (heap ++ extra) r c

theorem Mirrors.append {heap : List Node} {r c : Ref} (mirrors : Mirrors heap r c)
    (extra : List Node) : Mirrors (heap ++ extra) r c := by
  induction mirrors with
  | kept r => exact .kept r
  | renamed loaded copy => exact .renamed (loaded_append loaded extra) (loaded_append copy extra)
  | value linked _ hyp =>
      exact .value ((valOf_append (lt_length_of_valOf linked)).trans linked) hyp
  | node loaded copy kept len _ hyp =>
      exact .node (loaded_append loaded extra) (loaded_append copy extra) kept len hyp

theorem copying_nil {heap : List Node} (allocated : AllAllocated heap) :
    Copying heap [] [] [] [] := by
  refine ⟨by simpa using allocated, by simp, ?_, ?_, by simp, by simp, ?_, rfl, by simp⟩
  · intro a above below
    rw [List.append_nil] at below
    omega
  · intro a b above _ mentions
    rw [List.append_nil] at mentions
    exact (Nat.not_lt.mpr above mentions.lt_length).elim
  · intro a binder body above abstracts
    rw [List.append_nil] at abstracts
    exact (Nat.not_lt.mpr above abstracts.mentions.lt_length).elim

/-- An object without abstractions in it is its own copy. -/
theorem copying_self {heap : List Node} {r : Ref} (allocated : AllAllocated heap)
    (inside : r < heap.length)
    (plain : ∀ a binder body, Within heap r a → ¬ Abstracts heap a binder body) :
    Copying heap [r] [r] [r] [] := by
  have none := copying_nil allocated
  refine ⟨none.allocated, ?_, ?_, ?_, ?_, ?_, ?_, rfl, ?_⟩
  · intro c member
    obtain rfl := List.mem_singleton.mp member
    simpa using inside
  · intro a above below
    obtain ⟨c, member, -⟩ := none.reached a above below
    exact (List.not_mem_nil member).elim
  · intro a b above below mentions
    obtain ⟨c, member, -⟩ := none.apart a b above below mentions
    exact (List.not_mem_nil member).elim
  · intro c member _
    exact ⟨c, member, .refl⟩
  · intro c member a binder body within abstracts
    obtain rfl := List.mem_singleton.mp member
    rw [List.append_nil] at within abstracts
    exact (plain a binder body within abstracts).elim
  · intro a binder body above abstracts
    rw [List.append_nil] at abstracts
    exact (Nat.not_lt.mpr above abstracts.mentions.lt_length).elim
  · intro r' c member
    obtain ⟨rfl, rfl⟩ : r' = r ∧ c = r := by simpa using member
    exact .kept _

/-- An object is copied by copying its value. -/
theorem Copying.value {heap extra : List Node} {r val c : Ref}
    (copying : Copying heap [val] [val] [c] extra) (linked : valOf heap r = some val) :
    Copying heap [r] [r] [c] extra := by
  have mentions : Refers heap r val := by
    unfold valOf at linked
    split at linked
    case h_1 name val' loaded => exact ⟨_, loaded, by simpa [Node.mentions] using linked⟩
    case h_2 val' loaded => exact ⟨_, loaded, by simpa [Node.mentions] using linked⟩
    case h_3 => cases linked
  have further : ∀ {b : Ref}, (∃ r ∈ [val], Touches heap r b) → ∃ r' ∈ [r], Touches heap r' b := by
    rintro b ⟨_, member, touches⟩
    obtain rfl := List.mem_singleton.mp member
    exact ⟨r, List.mem_singleton_self r, .head mentions touches⟩
  refine { copying with apart := ?_, reused := ?_, mirrors := ?_ }
  · exact fun a b above below mentions => further (copying.apart a b above below mentions)
  · exact fun c member old => further (copying.reused c member old)
  · intro r' c' member
    obtain ⟨rfl, rfl⟩ : r' = r ∧ c' = c := by simpa using member
    refine .value ?_ (copying.mirrors val c' (by simp))
    rw [valOf_append (lt_length_of_valOf linked)]
    exact linked

/-- Copies of further objects, made from old ones and from leaves among the copies. -/
theorem Copying.append {heap extra more : List Node} {roots rs cs roots' rs' cs' : List Ref}
    (allocated : AllAllocated heap) (first : Copying heap roots rs cs extra)
    (second : Copying (heap ++ extra) roots' rs' cs' more)
    (old : ∀ r ∈ roots', r < heap.length ∨
      r ∈ cs ∧ heap.length ≤ r ∧ ∀ b, ¬ Refers (heap ++ extra) r b) :
    Copying heap (roots ++ roots') (rs ++ rs') (cs ++ cs') (extra ++ more) := by
  have whole : heap ++ (extra ++ more) = heap ++ extra ++ more := (List.append_assoc _ _ _).symm
  have within_first : ∀ {c a : Ref}, c ∈ cs → Within (heap ++ extra ++ more) c a →
      Within (heap ++ extra) c a ∧ a < (heap ++ extra).length := fun member within =>
    within.of_append first.allocated (first.copies _ member)
  have touched : ∀ {b : Ref}, (∃ r ∈ roots', Touches (heap ++ extra) r b) →
      ((∃ r ∈ roots ++ roots', Touches heap r b) ∧ b < heap.length) ∨ b ∈ cs ∧ heap.length ≤ b := by
    rintro b ⟨r, member, touches⟩
    rcases old r member with before | ⟨copy, above, leaf⟩
    · obtain ⟨within, below⟩ := touches.of_append allocated before
      exact .inl ⟨⟨r, List.mem_append_right _ member, within⟩, below⟩
    · rcases touches.cases_head with rfl | ⟨b', step, -⟩
      · exact .inr ⟨copy, above⟩
      · exact (leaf b' step).elim
  have below_touched : ∀ {b : Ref}, b < heap.length → (∃ r ∈ roots', Touches (heap ++ extra) r b) →
      ∃ r ∈ roots ++ roots', Touches heap r b := fun below touches =>
    (touched touches).elim And.left fun other => (Nat.not_lt.mpr other.2 below).elim
  have grown : heap.length ≤ (heap ++ extra).length := by simp
  refine ⟨?_, ?_, ?_, ?_, ?_, ?_, ?_, ?_, ?_⟩
  · rw [whole]
    exact second.allocated
  · rw [whole]
    intro c member
    rcases List.mem_append.mp member with left | right
    · exact Nat.lt_of_lt_of_le (first.copies c left) (by simp)
    · exact second.copies c right
  · rw [whole]
    intro a above below
    by_cases early : a < (heap ++ extra).length
    · obtain ⟨c, member, within⟩ := first.reached a above early
      exact ⟨c, List.mem_append_left _ member, within.append more⟩
    · obtain ⟨c, member, within⟩ := second.reached a (Nat.not_lt.mp early) below
      exact ⟨c, List.mem_append_right _ member, within⟩
  · rw [whole]
    intro a b above below mentions
    by_cases early : a < (heap ++ extra).length
    · obtain ⟨r, member, touches⟩ := first.apart a b above below (mentions.of_append early)
      exact ⟨r, List.mem_append_left _ member, touches⟩
    · have inside : b < (heap ++ extra).length := Nat.lt_of_lt_of_le below grown
      exact below_touched below (second.apart a b (Nat.not_lt.mp early) inside mentions)
  · intro c member below
    rcases List.mem_append.mp member with left | right
    · obtain ⟨r, here, touches⟩ := first.reused c left below
      exact ⟨r, List.mem_append_left _ here, touches⟩
    · exact below_touched below (second.reused c right (Nat.lt_of_lt_of_le below grown))
  · rw [whole]
    intro c member a binder body within abstracts
    rcases List.mem_append.mp member with left | right
    · obtain ⟨within', early⟩ := within_first left within
      exact first.renewed c left a binder body within' (abstracts.of_append early)
    · exact Nat.le_trans grown (second.renewed c right a binder body within abstracts)
  · rw [whole]
    intro a binder body above abstracts
    by_cases early : a < (heap ++ extra).length
    · obtain ⟨fresh, notCopy, sole, only⟩ :=
        first.owned a binder body above (abstracts.of_append early)
      have inside := first.allocated _ _ (abstracts.of_append early).mentions
      have untouched : ¬ ∃ r ∈ roots', Touches (heap ++ extra) r binder := fun touches =>
        (touched touches).elim (fun other => Nat.not_lt.mpr fresh other.2) fun other =>
          notCopy other.1
      refine ⟨fresh, ?_, fun a' body' abstracts' => ?_, fun b mentions => ?_⟩
      · intro member
        rcases List.mem_append.mp member with left | right
        · exact notCopy left
        · exact untouched (second.reused binder right inside)
      · by_cases earlier : a' < (heap ++ extra).length
        · exact sole a' body' (abstracts'.of_append earlier)
        · exact (untouched
            (second.apart a' binder (Nat.not_lt.mp earlier) inside abstracts'.mentions)).elim
      · by_cases earlier : b < (heap ++ extra).length
        · exact (only b (mentions.of_append earlier)).imp_right fun within => within.append more
        · exact (untouched (second.apart b binder (Nat.not_lt.mp earlier) inside mentions)).elim
    · obtain ⟨fresh, notCopy, only⟩ := second.owned a binder body (Nat.not_lt.mp early) abstracts
      refine ⟨Nat.le_trans grown fresh, ?_, only.1, only.2⟩
      intro member
      rcases List.mem_append.mp member with left | right
      · exact Nat.not_lt.mpr fresh (first.copies binder left)
      · exact notCopy right
  · rw [List.length_append, List.length_append, first.len, second.len]
  · rw [whole]
    intro r c member
    rw [List.zip_append first.len] at member
    rcases List.mem_append.mp member with left | right
    · exact (first.mirrors r c left).append more
    · exact second.mirrors r c right

theorem lt_or_eq_of_lt_append {heap : List Node} {node : Node} {a : Ref}
    (below : a < (heap ++ [node]).length) : a < heap.length ∨ a = heap.length := by
  rw [List.length_append, List.length_singleton] at below
  exact Nat.lt_or_eq_of_le (Nat.le_of_lt_succ below)

theorem mentions_last {heap : List Node} {op : Op} {kids : List Ref} {flag : Bool} {b : Ref}
    (mentions : Refers (heap ++ [.cexpr op kids flag]) heap.length b) : b ∈ kids := by
  obtain ⟨node, loaded, member⟩ := mentions
  obtain rfl : Node.cexpr op kids flag = node := by simpa using loaded
  exact member

/-- A new object over the copies of the children of another one. -/
theorem Copying.node {heap extra : List Node} {roots kids copies : List Ref} {r : Ref} {op : Op}
    {flag flag' : Bool} (copying : Copying heap roots kids copies extra)
    (loaded : heap[r]? = some (.cexpr op kids flag)) (kept : op = .pi → flag' = flag)
    (rooted : ∀ b < heap.length, (∃ root ∈ roots, Touches heap root b) → Touches heap r b)
    (own : ∀ binder body,
      Abstracts (heap ++ extra ++ [.cexpr op copies flag']) (heap ++ extra).length binder body →
      heap.length ≤ binder ∧ (∀ a' body', ¬ Abstracts (heap ++ extra) a' binder body') ∧
        ∀ b, Refers (heap ++ extra) b binder → Within (heap ++ extra) body b) :
    Copying heap [r] [r] [(heap ++ extra).length] (extra ++ [.cexpr op copies flag']) := by
  have whole : heap ++ (extra ++ [Node.cexpr op copies flag']) =
      heap ++ extra ++ [.cexpr op copies flag'] := (List.append_assoc _ _ _).symm
  have new : (heap ++ extra ++ [Node.cexpr op copies flag'])[(heap ++ extra).length]? =
      some (.cexpr op copies flag') := by simp
  have grown : heap.length ≤ (heap ++ extra).length := by simp
  refine ⟨?_, ?_, ?_, ?_, ?_, ?_, ?_, rfl, ?_⟩
  · rw [whole]
    intro a b mentions
    have longer : (heap ++ extra).length < (heap ++ extra ++
      [Node.cexpr op copies flag']).length := by
      simp
    rcases lt_or_eq_of_lt_append mentions.lt_length with early | rfl
    · exact Nat.lt_trans (copying.allocated a b (mentions.of_append early)) longer
    · exact Nat.lt_trans (copying.copies b (mentions_last mentions)) longer
  · rw [whole]
    intro c member
    obtain rfl := List.mem_singleton.mp member
    simp
  · rw [whole]
    intro a above below
    refine ⟨_, List.mem_singleton_self _, ?_⟩
    rcases lt_or_eq_of_lt_append below with early | rfl
    · obtain ⟨c, member, within⟩ := copying.reached a above early
      exact .head ⟨_, _, _, new, member⟩ (within.append _)
    · exact .refl
  · rw [whole]
    intro a b above below mentions
    refine ⟨r, List.mem_singleton_self r, rooted b below ?_⟩
    rcases lt_or_eq_of_lt_append mentions.lt_length with early | rfl
    · exact copying.apart a b above below (mentions.of_append early)
    · exact copying.reused b (mentions_last mentions) below
  · intro c member below
    obtain rfl := List.mem_singleton.mp member
    exact (Nat.not_lt.mpr grown below).elim
  · rw [whole]
    intro c member a binder body within abstracts
    obtain rfl := List.mem_singleton.mp member
    rcases within.cases_head with rfl | ⟨c', ⟨op', kids', flag'', loaded', member'⟩, within'⟩
    · exact grown
    · rw [new] at loaded'
      cases loaded'
      obtain ⟨inner, early⟩ :=
        Within.of_append copying.allocated within' (copying.copies c' member')
      exact copying.renewed c' member' a binder body inner (abstracts.of_append early)
  · rw [whole]
    intro a binder body above abstracts
    rcases lt_or_eq_of_lt_append abstracts.mentions.lt_length with early | rfl
    · obtain ⟨fresh, notCopy, sole, only⟩ :=
        copying.owned a binder body above (abstracts.of_append early)
      have inside := copying.allocated _ _ (abstracts.of_append early).mentions
      refine ⟨fresh, ?_, fun a' body' abstracts' => ?_, fun b mentions => ?_⟩
      · rw [List.mem_singleton]
        exact Nat.ne_of_lt inside
      · rcases lt_or_eq_of_lt_append abstracts'.mentions.lt_length with earlier | rfl
        · exact sole a' body' (abstracts'.of_append earlier)
        · exact (notCopy (mentions_last abstracts'.mentions)).elim
      · rcases lt_or_eq_of_lt_append mentions.lt_length with earlier | rfl
        · exact (only b (mentions.of_append earlier)).imp_right fun within => within.append _
        · exact (notCopy (mentions_last mentions)).elim
    · obtain ⟨fresh, sole, only⟩ := own binder body abstracts
      have inside := copying.copies binder (mentions_last abstracts.mentions)
      refine ⟨fresh, ?_, fun a' body' abstracts' => ?_, fun b mentions => ?_⟩
      · rw [List.mem_singleton]
        exact Nat.ne_of_lt inside
      · rcases lt_or_eq_of_lt_append abstracts'.mentions.lt_length with earlier | rfl
        · exact (sole a' body' (abstracts'.of_append earlier)).elim
        · rfl
      · rcases lt_or_eq_of_lt_append mentions.lt_length with earlier | rfl
        · exact .inr ((only b (mentions.of_append earlier)).append _)
        · exact .inl rfl
  · rw [whole]
    intro r' c member
    obtain ⟨rfl, rfl⟩ : r' = r ∧ c = (heap ++ extra).length := by simpa using member
    refine .node ?_ new kept copying.len fun kid kid' pair =>
      (copying.mirrors kid kid' pair).append _
    exact loaded_append (loaded_append loaded extra) _

/-! ## Renamed binders -/

section Restoring

variable {heap extra : List Node} {x n : Ref} {name text : String} {prev val : Option Ref}

/-- Other objects are unchanged by an assignment to a symbol. -/
theorem mentions_assigned {a b : Ref} (apart : a ≠ x) :
    Refers (heap.set x (.sym name val)) a b ↔ Refers heap a b := by
  simp only [Refers, List.getElem?_set_ne apart.symm]

theorem loaded_assigned {a : Ref} {op : Op} {kids : List Ref} {flag : Bool}
    (symbol : heap[x]? = some (.sym name prev)) :
    (heap.set x (.sym name val))[a]? = some (.cexpr op kids flag) ↔
      heap[a]? = some (.cexpr op kids flag) := by
  by_cases apart : a = x
  · subst apart
    rw [List.getElem?_set_self (List.getElem?_eq_some_iff.mp symbol).1, symbol]
    simp
  · rw [List.getElem?_set_ne (Ne.symm apart)]

theorem child_assigned (symbol : heap[x]? = some (.sym name prev)) :
    Child (heap.set x (.sym name val)) = Child heap := by
  funext a b
  simp only [Child, loaded_assigned symbol]

theorem within_assigned (symbol : heap[x]? = some (.sym name prev)) :
    Within (heap.set x (.sym name val)) = Within heap :=
  congrArg Relation.ReflTransGen (child_assigned symbol)

theorem abstracts_assigned {a binder body : Ref} (symbol : heap[x]? = some (.sym name prev)) :
    Abstracts (heap.set x (.sym name val)) a binder body ↔ Abstracts heap a binder body := by
  simp only [Abstracts, loaded_assigned symbol]

theorem mentions_assignee {b : Ref} (symbol : heap[x]? = some (.sym name prev))
    (mentions : Refers (heap.set x (.sym name (some n))) x b) : b = n := by
  obtain ⟨node, loaded, member⟩ := mentions
  rw [List.getElem?_set_self (List.getElem?_eq_some_iff.mp symbol).1, Option.some.injEq] at loaded
  subst loaded
  simpa [Node.mentions] using member

theorem not_mentions_unset {b : Ref} (unset : heap[n]? = some (.sym text none)) :
    ¬ Refers heap n b := by
  rintro ⟨node, loaded, member⟩
  rw [unset, Option.some.injEq] at loaded
  subst loaded
  simp [Node.mentions] at member

/-- While a symbol stands for a new one, what is reached is the new one or reached anyway. -/
theorem touches_assigned {a b : Ref} (symbol : heap[x]? = some (.sym name prev))
    (unset : heap[n]? = some (.sym text none))
    (touches : Touches (heap.set x (.sym name (some n))) a b) : b = n ∨ Touches heap a b := by
  induction touches with
  | refl => exact .inr .refl
  | @tail y b _ mentions hyp =>
      by_cases here : y = x
      · subst here
        exact .inl (mentions_assignee symbol mentions)
      · have step := (mentions_assigned here).mp mentions
        rcases hyp with rfl | before
        · exact (not_mentions_unset unset step).elim
        · exact .inr (before.tail step)

theorem Mirrors.eq_or_renamed {c : Ref} (unset : heap[n]? = some (.sym text none))
    (mirrors : Mirrors heap n c) : c = n ∨ ∃ text, heap[c]? = some (.sym text none) := by
  cases mirrors with
  | kept => exact .inl rfl
  | renamed loaded copy => exact .inr ⟨_, copy⟩
  | value linked => simp [valOf, unset] at linked
  | node loaded => simp [unset] at loaded

theorem mirrors_assigned {r c : Ref} (symbol : heap[x]? = some (.sym name prev))
    (unset : heap[n]? = some (.sym text none)) (apart : n ≠ x)
    (mirrors : Mirrors (heap.set x (.sym name (some n))) r c) : Mirrors heap r c := by
  have allocated := (List.getElem?_eq_some_iff.mp symbol).1
  have symbols : ∀ {c : Ref} {text : String},
      (heap.set x (.sym name (some n)))[c]? = some (.sym text none) →
      heap[c]? = some (.sym text none) := by
    intro c text loaded
    by_cases here : c = x
    · subst here
      simp [List.getElem?_set_self allocated] at loaded
    · rwa [List.getElem?_set_ne (Ne.symm here)] at loaded
  have still : (heap.set x (.sym name (some n)))[n]? = some (.sym text none) := by
    rwa [List.getElem?_set_ne apart.symm]
  induction mirrors with
  | kept r => exact .kept r
  | @renamed r c _ _ _ loaded copy =>
      by_cases here : r = x
      · subst here
        exact .renamed symbol (symbols copy)
      · rw [List.getElem?_set_ne (Ne.symm here)] at loaded
        exact .renamed loaded (symbols copy)
  | @value r val c linked rest hyp =>
      by_cases here : r = x
      · subst here
        obtain rfl : val = n := by
          simpa [valOf, List.getElem?_set_self allocated] using linked.symm
        rcases rest.eq_or_renamed still with rfl | ⟨text, loaded⟩
        · exact .renamed symbol unset
        · exact .renamed symbol (symbols loaded)
      · refine .value ?_ hyp
        simpa [valOf, List.getElem?_set_ne (Ne.symm here)] using linked
  | node loaded copy kept len _ hyp =>
      exact .node ((loaded_assigned symbol).mp loaded)
        ((loaded_assigned symbol).mp copy) kept len hyp

/-- The symbol gets its old value back. -/
theorem Copying.restore {body c : Ref} (allocated : AllAllocated heap)
    (symbol : heap[x]? = some (.sym name prev)) (unset : heap[n]? = some (.sym text none))
    (apart : n ≠ x)
    (copying : Copying (heap.set x (.sym name (some n))) [body] [body] [c] extra) :
    Copying heap [body, n] [body] [c] extra := by
  have inside := (List.getElem?_eq_some_iff.mp symbol).1
  have whole : heap.set x (.sym name (some n)) ++ extra =
    (heap ++ extra).set x (.sym name (some n)) :=
    (List.set_append_left _ _ inside).symm
  have symbol' : (heap ++ extra)[x]? = some (.sym name prev) := loaded_append symbol extra
  have unset' : (heap ++ extra)[n]? = some (.sym text none) := loaded_append unset extra
  have roots : ∀ {b : Ref}, (∃ r ∈ [body], Touches (heap.set x (.sym name (some n))) r b) →
      ∃ r ∈ [body, n], Touches heap r b := by
    rintro b ⟨r, member, touches⟩
    obtain rfl := List.mem_singleton.mp member
    rcases touches_assigned symbol unset touches with rfl | reached
    · exact ⟨b, by simp, .refl⟩
    · exact ⟨r, by simp, reached⟩
  obtain ⟨allocated', copies, reached, apart', reused, renewed, owned, len, mirrors⟩ := copying
  rw [whole] at allocated' copies reached apart' renewed owned mirrors
  simp only [List.length_set] at copies apart' reused
  simp only [List.length_set, within_assigned symbol'] at reached
  simp only [List.length_set, within_assigned symbol', abstracts_assigned symbol'] at renewed owned
  refine ⟨?_, copies, reached, ?_, ?_, renewed, ?_, len, ?_⟩
  · intro a b mentions
    by_cases here : a = x
    · subst here
      exact Nat.lt_of_lt_of_le (allocated a b (mentions.of_append inside)) (by simp)
    · simpa using allocated' a b ((mentions_assigned here).mpr mentions)
  · intro a b above below mentions
    have here : a ≠ x := by
      rintro rfl
      exact Nat.not_lt.mpr above inside
    exact roots (apart' a b above below ((mentions_assigned here).mpr mentions))
  · exact fun c member below => roots (reused c member below)
  · intro a binder body' above abstracts
    obtain ⟨fresh, notCopy, sole, only⟩ := owned a binder body' above abstracts
    refine ⟨fresh, notCopy, sole, fun b mentions => ?_⟩
    by_cases here : b = x
    · subst here
      exact (Nat.not_lt.mpr fresh (allocated b binder (mentions.of_append inside))).elim
    · exact only b ((mentions_assigned here).mpr mentions)
  · exact fun r c member => mirrors_assigned symbol' unset' apart (mirrors r c member)

end Restoring

/-! ## Abstractions -/

/-- An unassigned symbol as the copy of another one. -/
theorem copying_symbol {heap : List Node} {x : Ref} {name : String} {prev : Option Ref}
    (allocated : AllAllocated heap) (symbol : heap[x]? = some (.sym name prev)) :
    Copying heap [x] [x] [heap.length] [.sym name none] := by
  have leaf : ∀ b, ¬ Refers (heap ++ [.sym name none]) heap.length b := fun b =>
    not_mentions_unset (newSymbol_loaded heap name)
  have notAbstraction : ∀ binder body,
      ¬ Abstracts (heap ++ [.sym name none]) heap.length binder body := fun binder body abstracts =>
    leaf binder abstracts.mentions
  have before : ∀ {a b : Ref}, heap.length ≤ a → ¬ Refers (heap ++ [.sym name none]) a b := by
    intro a b above mentions
    rcases lt_or_eq_of_lt_append mentions.lt_length with early | rfl
    · exact Nat.not_lt.mpr above early
    · exact leaf b mentions
  refine ⟨?_, by simp, ?_, ?_, by simp, ?_, ?_, rfl, ?_⟩
  · intro a b mentions
    have early : a < heap.length := Nat.lt_of_not_le fun above => before above mentions
    exact Nat.lt_of_lt_of_le (allocated a b (mentions.of_append early)) (by simp)
  · intro a above below
    refine ⟨heap.length, List.mem_singleton_self _, ?_⟩
    rcases lt_or_eq_of_lt_append below with early | rfl
    · exact (Nat.not_lt.mpr above early).elim
    · exact .refl
  · exact fun a b above _ mentions => (before above mentions).elim
  · intro c member a binder body within abstracts
    obtain rfl := List.mem_singleton.mp member
    rcases within.cases_head with rfl | ⟨c', child, -⟩
    · exact (notAbstraction binder body abstracts).elim
    · exact (leaf c' child.mentions).elim
  · exact fun a binder body above abstracts => (before above abstracts.mentions).elim
  · intro r c member
    obtain ⟨rfl, rfl⟩ : r = x ∧ c = heap.length := by simpa using member
    exact .renamed (loaded_append symbol _) (newSymbol_loaded heap name)

/-- A new abstraction over the copies of the domain and the body, with a new binder. -/
theorem Copying.abstraction {heap outer inner : List Node} {r x body copy : Ref} {op : Op}
    {domains copies : List Ref} {flag flag' : Bool} {name : String} {prev : Option Ref}
    (allocated : AllAllocated heap)
    (loaded : heap[r]? = some (.cexpr op (x :: (domains ++ [body])) flag))
    (kept : op = .pi → flag' = flag) (symbol : heap[x]? = some (.sym name prev))
    (first : Copying (heap ++ [.sym name none]) domains domains copies outer)
    (under : Copying ((heap ++ [Node.sym name none] ++ outer).set x (.sym name (some heap.length)))
      [body] [body] [copy] inner) :
    Copying heap [r] [r] [(heap ++ ([Node.sym name none] ++ outer ++ inner)).length]
      ([Node.sym name none] ++ outer ++ inner ++
        [.cexpr op (heap.length :: (copies ++ [copy])) flag']) := by
  have part : ∀ kid ∈ x :: (domains ++ [body]), Refers heap r kid := fun kid member =>
    ⟨_, loaded, member⟩
  have inside : ∀ kid ∈ x :: (domains ++ [body]), kid < heap.length := fun kid member =>
    allocated r kid (part kid member)
  have outside : ∀ {a b : Ref}, a < heap.length → Touches (heap ++ [.sym name none]) a b →
      b ≠ heap.length := fun old touches => Nat.ne_of_lt (touches.of_append allocated old).2
  have new : (heap ++ [.sym name none])[heap.length]? = some (.sym name none) :=
    newSymbol_loaded heap name
  have opened : Copying heap ([x] ++ domains) ([x] ++ domains) ([heap.length] ++ copies)
      ([Node.sym name none] ++ outer) :=
    (copying_symbol allocated symbol).append allocated first fun d member =>
      .inl (inside d (by simp [member]))
  have whole : heap ++ ([Node.sym name none] ++ outer) = heap ++ [.sym name none] ++ outer :=
    (List.append_assoc _ _ _).symm
  have unset : (heap ++ ([Node.sym name none] ++ outer))[heap.length]? = some (.sym name none) := by
    rw [whole]
    exact loaded_append new outer
  have apart : heap.length ≠ x := Nat.ne_of_gt (inside x List.mem_cons_self)
  have unmentioned : ∀ b, ¬ Refers (heap ++ ([Node.sym name none] ++ outer)) b heap.length := by
    intro b mentions
    rw [whole] at mentions
    by_cases earlier : b < (heap ++ [Node.sym name none]).length
    · rcases lt_or_eq_of_lt_append earlier with old | rfl
      · exact Nat.lt_irrefl _ (allocated b _ ((mentions.of_append earlier).of_append old))
      · exact not_mentions_unset new (mentions.of_append earlier)
    · obtain ⟨d, member, touches⟩ :=
        first.apart b heap.length (Nat.not_lt.mp earlier) (by simp) mentions
      exact outside (inside d (by simp [member])) touches rfl
  rw [← whole] at under
  have restored := under.restore opened.allocated (loaded_append symbol _) unset apart
  have all := opened.append allocated restored fun root member => by
    rcases List.mem_cons.mp member with rfl | member
    · exact .inl (inside root (by simp))
    · obtain rfl := List.mem_singleton.mp member
      exact .inr ⟨by simp, Nat.le_refl _, fun b => not_mentions_unset unset⟩
  have built : Copying heap ([x] ++ domains ++ [body, heap.length]) (x :: (domains ++ [body]))
      (heap.length :: (copies ++ [copy])) ([Node.sym name none] ++ outer ++ inner) := by
    simpa using all
  refine built.node loaded kept ?_ ?_
  · rintro b below ⟨root, member, touches⟩
    by_cases bound : root = heap.length
    · subst bound
      rcases touches.cases_head with rfl | ⟨next, step, -⟩
      · exact (Nat.lt_irrefl _ below).elim
      · exact (Nat.lt_irrefl _ step.lt_length).elim
    · refine .head (part root ?_) touches
      simp only [List.mem_append, List.mem_cons, List.not_mem_nil, or_false] at member ⊢
      tauto
  · rintro binder body' ⟨op', kids, flag'', -, loaded', last⟩
    obtain ⟨⟨rfl, rfl⟩, rfl⟩ : (heap.length = binder ∧ copies ++ [copy] = kids) ∧ flag' =
      flag'' := by
      simp only [List.getElem?_concat_length, Option.some.injEq, Node.cexpr.injEq,
        List.cons.injEq] at loaded'
      exact loaded'.2
    obtain rfl : copy = body' := by simpa using last
    have split : heap ++ ([Node.sym name none] ++ outer ++ inner) =
        heap ++ ([Node.sym name none] ++ outer) ++ inner := by simp
    rw [split]
    refine ⟨Nat.le_refl _, fun a' body' abstracts => ?_, fun b mentions => ?_⟩
    · by_cases earlier : a' < (heap ++ ([Node.sym name none] ++ outer)).length
      · exact unmentioned a' (abstracts.of_append earlier).mentions
      · have fresh := (restored.owned a' _ body' (Nat.not_lt.mp earlier) abstracts).1
        exact Nat.not_lt.mpr fresh (List.getElem?_eq_some_iff.mp unset).1
    · by_cases earlier : b < (heap ++ ([Node.sym name none] ++ outer)).length
      · exact (unmentioned b (mentions.of_append earlier)).elim
      · obtain ⟨c, member, within⟩ := restored.reached b (Nat.not_lt.mp earlier) mentions.lt_length
        obtain rfl := List.mem_singleton.mp member
        exact within

/-! ## Other objects -/

theorem not_abstracts {heap : List Node} {r binder body : Ref} {op : Op} {kids : List Ref}
    {flag : Bool} (loaded : heap[r]? = some (.cexpr op kids flag)) (notLam : op ≠ .lam)
    (notPi : op ≠ .pi) : ¬ Abstracts heap r binder body := by
  rintro ⟨op', kids', flag', which, loaded', -⟩
  obtain ⟨rfl, -⟩ : op = op' ∧ _ := by simpa [loaded] using loaded'
  exact which.elim notLam notPi

/-- A new object over the copies of the children, where it is no abstraction. -/
theorem Copying.rebuilt {heap extra : List Node} {kids copies : List Ref} {r : Ref} {op : Op}
    {flag : Bool} (copying : Copying heap kids kids copies extra)
    (loaded : heap[r]? = some (.cexpr op kids flag)) (notLam : op ≠ .lam) (notPi : op ≠ .pi) :
    Copying heap [r] [r] [(heap ++ extra).length] (extra ++ [.cexpr op copies false]) := by
  refine copying.node loaded (fun same => (notPi same).elim) ?_ ?_
  · rintro b - ⟨kid, member, touches⟩
    exact .head ⟨_, loaded, member⟩ touches
  · intro binder body abstracts
    exact (not_abstracts List.getElem?_concat_length notLam notPi abstracts).elim

/-- Where the children are their own copies, nothing is allocated, and the object is its own
copy. -/
theorem Copying.unchanged {heap extra : List Node} {kids : List Ref} {r : Ref} {op : Op}
    {flag : Bool} (copying : Copying heap kids kids kids extra) (allocated : AllAllocated heap)
    (loaded : heap[r]? = some (.cexpr op kids flag)) (notLam : op ≠ .lam) (notPi : op ≠ .pi) :
    extra = [] ∧ Copying heap [r] [r] [r] [] := by
  have inside : ∀ kid ∈ kids, kid < heap.length := fun kid member =>
    allocated r kid ⟨_, loaded, member⟩
  obtain rfl : extra = [] := by
    by_contra more
    obtain ⟨c, member, within⟩ := copying.reached heap.length (Nat.le_refl _)
      (by simpa using List.length_pos_iff.mpr more)
    exact Nat.lt_irrefl _ (within.of_append allocated (inside c member)).2
  refine ⟨rfl, copying_self allocated (List.getElem?_eq_some_iff.mp loaded).1 ?_⟩
  intro a binder body within abstracts
  rcases within.cases_head with rfl | ⟨kid, ⟨op', kids', flag', found, member⟩, inner⟩
  · exact not_abstracts loaded notLam notPi abstracts
  · obtain ⟨-, rfl, -⟩ : op = op' ∧ kids = kids' ∧ flag = flag' := by simpa [loaded] using found
    have above := copying.renewed kid member a binder body (Within.append inner [])
      (abstracts.append [])
    exact Nat.not_lt.mpr above abstracts.mentions.lt_length

end Lfsc
