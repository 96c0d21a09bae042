import Lfsc.SymbolScope
import Lfsc.Exec.Ends

/-!
# The trees that read_code builds

A piece of code is written as a nested expression.  Reading it either reports an error or returns a
tree with one child for each part of the expression, provided that the marks it names exist.
-/

namespace Lfsc

open Exec

/-! ## Lexemes -/

/-- A lexeme with the sugared spelling of its token removed. -/
def Lexeme.desugared (lexeme : Lexeme) : Lexeme := { lexeme with token := desugar lexeme.token }

/-- The lexemes that are read next, with the tokens put back first. -/
def pending (checker : Checker) : List Lexeme :=
  checker.peeked.map (fun token => ⟨desugar token, checker.text⟩) ++
    checker.input.map Lexeme.desugared

/-! ## Written code -/

/-- The pattern of a case: a name, or a constructor with variables in parentheses. -/
inductive SourcePattern
  | bare (ctor : Lexeme)
  | applied (opening : String) (ctor : Lexeme) (vars : List Lexeme) (closing : String)

/-- The lexemes of a pattern. -/
def SourcePattern.lexemes : SourcePattern → List Lexeme
  | .bare ctor => [ctor]
  | .applied opening ctor vars closing => ⟨.Open, opening⟩ :: ctor :: vars ++ [⟨.Close, closing⟩]

/-- Whether a pattern is the one of the default case. -/
def SourcePattern.isDefault : SourcePattern → Bool
  | .bare ctor => ctor.text = "default"
  | .applied _ _ _ _ => false

/-- Written code: a numeral or name, a form with its parts, or a case of a `match`. -/
inductive Source
  | leaf (lexeme : Lexeme)
  | form (opening : String) (head : Lexeme) (parts : List Source) (closing : String)
  | case (opening : String) (pattern : SourcePattern) (body : Source) (closing : String)

mutual

/-- The lexemes of written code. -/
def Source.lexemes : Source → List Lexeme
  | .leaf lexeme => [lexeme]
  | .form opening head parts closing =>
      ⟨.Open, opening⟩ :: head :: lexemesOfAll parts ++ [⟨.Close, closing⟩]
  | .case opening pattern body closing =>
      ⟨.Open, opening⟩ :: pattern.lexemes ++ body.lexemes ++ [⟨.Close, closing⟩]

/-- The lexemes of the parts of a form. -/
def lexemesOfAll : List Source → List Lexeme
  | [] => []
  | part :: parts => part.lexemes ++ lexemesOfAll parts

end

/-- The number of a mark operation with its keyword's length. -/
def Lexeme.markNumber (lexeme : Lexeme) : Option Nat :=
  match lexeme.token with
  | .MarkVar => some (markIndex lexeme.text 7)
  | .IfMarked => some (markIndex lexeme.text 8)
  | _ => none

/-- A lexeme that names no mark operation, or one of the 32 marks. -/
def Lexeme.marksInRange (lexeme : Lexeme) : Prop :=
  ∀ number, lexeme.markNumber = some number → 1 ≤ number ∧ number ≤ 32

/-- A rational literal with denominator zero. -/
def Lexeme.zeroDenominator (lexeme : Lexeme) : Prop :=
  lexeme.token = .Rational ∧ ∃ numerator, rationalValue lexeme.text = some (numerator, 0)

/-- A lexeme whose reading goes wrong: a literal with denominator zero, or the name of an operation
on a mark that does not exist. -/
def Lexeme.Defective (lexeme : Lexeme) : Prop := lexeme.zeroDenominator ∨ ¬ lexeme.marksInRange

mutual

/-- All mark operations of written code are on one of the 32 marks. -/
def Source.MarksInRange : Source → Prop
  | .leaf _ => True
  | .form _ head parts _ => head.marksInRange ∧ MarksInRangeAll parts
  | .case _ _ body _ => body.MarksInRange

/-- All mark operations of the parts of a form are on one of the 32 marks. -/
def MarksInRangeAll : List Source → Prop
  | [] => True
  | part :: parts => part.MarksInRange ∧ MarksInRangeAll parts

end

/-! ## Trees -/

/-- The operators that take a fixed number of parts, with the number. -/
def operatorOf : Token → Option (Op × Nat)
  | .Fail => some (.fail, 1)
  | .At => some (.let_, 3)
  | .IfEqual => some (.ifequal, 4)
  | .MpAdd => some (.add, 2)
  | .MpMul => some (.mul, 2)
  | .MpDiv => some (.div, 2)
  | .MpNeg => some (.neg, 1)
  | .MpzToMpq => some (.mpzToMpq, 1)
  | .MpIfNeg => some (.ifneg, 3)
  | .MpIfZero => some (.ifzero, 3)
  | .Compare => some (.compare, 4)
  | _ => none

/-- An expression with these children. -/
def IsNode (heap : List Node) (op : Op) (kids : List Ref) (e : Ref) : Prop :=
  heap[e]? = some (.cexpr op kids false)

/-- The left-nested `do` of an expression and those after it. -/
inductive Sequenced (heap : List Node) : Ref → List Ref → Ref → Prop
  | nil (e : Ref) : Sequenced heap e [] e
  | cons {first second both e : Ref} {rest : List Ref}
    (node : IsNode heap .do_ [first, second] both)
      (others : Sequenced heap both rest e) : Sequenced heap first (second :: rest) e

/-- The children that `make_app` extends: those of a compound expression, otherwise the head. -/
def spineOf (heap : List Node) (head : Ref) : List Ref :=
  match heap[head]? with
  | some (.cexpr _ kids _) => kids
  | _ => [head]

/-- How the tree of a form is made of the trees of its parts. -/
def Assembled (heap : List Node) (head : Lexeme) (kids : List Ref) (e : Ref) : Prop :=
  match operatorOf head.token with
  | some (op, arity) => kids.length = arity ∧ IsNode heap op kids e
  | none =>
      match head.token with
      | .Do => ∃ first rest, kids = first :: rest ∧ Sequenced heap first rest e
      | .Match => 2 ≤ kids.length ∧ IsNode heap .match_ kids e
      | .MarkVar | .IfMarked =>
          kids.length = (if head.token = .MarkVar then 1 else 3) ∧
            ∃ mark, IsNode heap (if head.token = .MarkVar then .markvar else .ifmarked)
              (mark :: kids) e
      | .Tilde => kids = [e]
      | _ =>
          if kids = [] then e < heap.length
          else ∃ headKids, IsNode heap .app (headKids ++ kids) e

/-- Whether written code is a case of a `match`. -/
def Source.isCase : Source → Bool
  | .case _ _ _ _ => true
  | _ => false

/-- The cases of a `match` follow its scrutinee, and no other form has cases. -/
def ProperParts (head : Lexeme) (parts : List Source) : Prop :=
  if head.token = .Match then
    ∃ scrutinee cases, parts = scrutinee :: cases ∧ scrutinee.isCase = false ∧
      ∀ part ∈ cases, part.isCase = true
  else ∀ part ∈ parts, part.isCase = false

mutual

/-- An expression is the tree of written code: each part has its own child, and a mark operation is
on one of the 32 marks. -/
def Source.Tree (heap : List Node) : Source → Ref → Prop
  | .leaf _, e => e < heap.length
  | .form _ head parts _, e =>
      head.marksInRange ∧ ProperParts head parts ∧
        ∃ kids, TreesOfAll heap parts kids ∧ Assembled heap head kids e
  | .case _ pattern body _, e =>
      if pattern.isDefault then body.Tree heap e
      else ∃ pat kid, IsNode heap .case_ [pat, kid] e ∧ body.Tree heap kid

/-- Expressions are the trees of the parts of a form. -/
def TreesOfAll (heap : List Node) : List Source → List Ref → Prop
  | [], kids => kids = []
  | part :: parts, kids =>
      ∃ kid rest, kids = kid :: rest ∧ part.Tree heap kid ∧ TreesOfAll heap parts rest

end

/-! ## States while code is read -/

/-- A pair of the symbol table whose expression is in the store; with a type there is one. -/
structure Binding.Stored (heap : List Node) (pair : Binding) : Prop where
  bound : ∀ e, pair.expr = some e → e < heap.length
  typed : pair.type ≠ Option.none → pair.expr ≠ Option.none

/-- The symbol table and the table of programs lead to expressions of the store. -/
structure TableStored (checker : Checker) : Prop where
  symbols : ∀ name, (checker.symbols name).Stored checker.store.heap
  prog : ∀ name e, checker.progs name = some (some e) → e < checker.store.heap.length

/-- A state in which code can be read.  A defective lexeme among those to come makes `defect`
hold. -/
structure CanRead (defect : Prop) (checker : Checker) : Prop where
  slots : checker.peeked.length ≤ 2
  table : TableStored checker
  defects : ∀ lexeme ∈ pending checker, lexeme.Defective → defect

/-- Reading leaves expressions as they are and changes numerals to numerals. -/
structure Kept (heap heap' : List Node) : Prop where
  grows : heap.length ≤ heap'.length
  op : ∀ r < heap.length, opOf heap' r = opOf heap r
  cexpr : ∀ (r : Ref) op kids flag, heap[r]? = some (.cexpr op kids flag) →
    heap'[r]? = some (.cexpr op kids flag)

/-- What reading a piece of code does to a state. -/
structure Reads (defect : Prop) (before after : Checker) : Prop where
  ready : CanRead defect after
  kept : Kept before.store.heap after.store.heap

/-- A run of the reader that does not return reports an error, or there is a defect. -/
def Rejects (defect : Prop) (why : Stop) : Prop :=
  (∃ message, why = .report message) ∨ (why = .undefined ∧ defect)

theorem kept_refl (heap : List Node) : Kept heap heap :=
  ⟨Nat.le_refl _, fun _ _ => rfl, fun _ _ _ _ found => found⟩

theorem Kept.trans {first second third : List Node} (left : Kept first second)
    (right : Kept second third) : Kept first third :=
  ⟨Nat.le_trans left.grows right.grows,
    fun r bound => (right.op r (Nat.lt_of_lt_of_le bound left.grows)).trans (left.op r bound),
    fun _ _ _ _ found => right.cexpr _ _ _ _ (left.cexpr _ _ _ _ found)⟩

theorem Reads.trans {defect : Prop} {first second third : Checker}
    (left : Reads defect first second)
    (right : Reads defect second third) : Reads defect first third :=
  ⟨right.ready, left.kept.trans right.kept⟩

theorem kept_append (heap : List Node) (node : Node) : Kept heap (heap ++ [node]) where
  grows := by simp
  op := fun _ bound => opOf_append bound
  cexpr := fun r op kids flag found => by
    obtain ⟨bound, -⟩ := List.getElem?_eq_some_iff.mp found
    rw [List.getElem?_append_left bound, found]

/-- Overwriting an object that is no compound expression by another one. -/
theorem kept_set {heap : List Node} {r : Ref} {old node : Node} (found : heap[r]? = some old)
    (leaf : ∀ op kids flag, old ≠ .cexpr op kids flag)
    (leaf' : ∀ op kids flag, node ≠ .cexpr op kids flag) : Kept heap (heap.set r node) where
  grows := by simp
  op := fun other bound => by
    by_cases same : r = other
    · subst same
      rw [opOf, opOf, List.getElem?_set_self bound, found]
      cases old <;> cases node <;> simp_all
    · rw [opOf, List.getElem?_set_ne same, opOf]
  cexpr := fun other op kids flag here => by
    by_cases same : r = other
    · subst same
      rw [found] at here
      exact absurd (Option.some.inj here) (leaf op kids flag)
    · rw [List.getElem?_set_ne same, here]

theorem IsNode.kept {heap heap' : List Node} (kept : Kept heap heap') {op : Op} {kids : List Ref}
    {e : Ref} (node : IsNode heap op kids e) : IsNode heap' op kids e := kept.cexpr _ _ _ _ node

theorem Sequenced.kept {heap heap' : List Node} (kept : Kept heap heap') {first e : Ref}
    {rest : List Ref} (sequenced : Sequenced heap first rest e) :
    Sequenced heap' first rest e := by
  induction sequenced with
  | nil e => exact .nil e
  | cons node _ hyp => exact .cons (node.kept kept) hyp

theorem Assembled.kept {heap heap' : List Node} (kept : Kept heap heap') {head : Lexeme}
    {kids : List Ref} {e : Ref} (assembled : Assembled heap head kids e) :
    Assembled heap' head kids e := by
  unfold Assembled at assembled ⊢
  split at assembled
  · exact ⟨assembled.1, assembled.2.kept kept⟩
  · split at assembled
    · obtain ⟨first, rest, same, sequenced⟩ := assembled
      exact ⟨first, rest, same, sequenced.kept kept⟩
    · exact ⟨assembled.1, assembled.2.kept kept⟩
    · obtain ⟨count, mark, node⟩ := assembled
      exact ⟨count, mark, node.kept kept⟩
    · obtain ⟨count, mark, node⟩ := assembled
      exact ⟨count, mark, node.kept kept⟩
    · exact assembled
    · split at assembled
      case isTrue empty => exact (if_pos empty).mpr (Nat.lt_of_lt_of_le assembled kept.grows)
      case isFalse filled =>
          obtain ⟨headKids, node⟩ := assembled
          exact (if_neg filled).mpr ⟨headKids, node.kept kept⟩

mutual

theorem Source.Tree.kept {heap heap' : List Node} (kept : Kept heap heap') :
    ∀ {source : Source} {e : Ref}, source.Tree heap e → source.Tree heap' e
  | .leaf _, e, tree => by
      rw [Source.Tree] at tree ⊢
      exact Nat.lt_of_lt_of_le tree kept.grows
  | .form _ head parts _, e, tree => by
      rw [Source.Tree] at tree ⊢
      obtain ⟨marks, proper, kids, trees, assembled⟩ := tree
      exact ⟨marks, proper, kids, trees_kept kept trees, assembled.kept kept⟩
  | .case _ pattern body _, e, tree => by
      rw [Source.Tree] at tree ⊢
      split at tree
      case isTrue default =>
          rw [if_pos default]
          exact tree.kept kept
      case isFalse other =>
          rw [if_neg other]
          obtain ⟨pat, kid, node, inner⟩ := tree
          exact ⟨pat, kid, node.kept kept, inner.kept kept⟩

theorem trees_kept {heap heap' : List Node} (kept : Kept heap heap') :
    ∀ {parts : List Source} {kids : List Ref}, TreesOfAll heap parts kids →
      TreesOfAll heap' parts kids
  | [], kids, trees => by
      rw [TreesOfAll] at trees ⊢
      exact trees
  | part :: parts, kids, trees => by
      rw [TreesOfAll] at trees ⊢
      obtain ⟨kid, rest, same, tree, others⟩ := trees
      exact ⟨kid, rest, same, tree.kept kept, trees_kept kept others⟩

end

mutual

/-- Written code that has a tree has its marks in range. -/
theorem Source.Tree.marksInRange {heap : List Node} :
    ∀ {source : Source} {e : Ref}, source.Tree heap e → source.MarksInRange
  | .leaf _, e, tree => by
      rw [Source.MarksInRange]
      trivial
  | .form _ head parts _, e, tree => by
      rw [Source.Tree] at tree
      rw [Source.MarksInRange]
      obtain ⟨marks, -, kids, trees, -⟩ := tree
      exact ⟨marks, trees_marksInRange trees⟩
  | .case _ pattern body _, e, tree => by
      rw [Source.Tree] at tree
      rw [Source.MarksInRange]
      split at tree
      case isTrue => exact tree.marksInRange
      case isFalse =>
          obtain ⟨pat, kid, -, inner⟩ := tree
          exact inner.marksInRange

theorem trees_marksInRange {heap : List Node} :
    ∀ {parts : List Source} {kids : List Ref}, TreesOfAll heap parts kids → MarksInRangeAll parts
  | [], kids, trees => by
      rw [MarksInRangeAll]
      trivial
  | part :: parts, kids, trees => by
      rw [TreesOfAll] at trees
      rw [MarksInRangeAll]
      obtain ⟨kid, rest, -, tree, others⟩ := trees
      exact ⟨tree.marksInRange, trees_marksInRange others⟩

end

mutual

/-- Written code with a mark out of range has a defective lexeme. -/
theorem Source.exists_defective : ∀ {source : Source}, ¬ source.MarksInRange →
    ∃ lexeme ∈ source.lexemes, lexeme.Defective
  | .leaf _, out => by simp [Source.MarksInRange] at out
  | .form opening head parts closing, out => by
      rw [Source.MarksInRange] at out
      by_cases marks : head.marksInRange
      · obtain ⟨lexeme, mem, defective⟩ := exists_defective_all fun all => out ⟨marks, all⟩
        exact ⟨lexeme, by simp [Source.lexemes, mem], defective⟩
      · exact ⟨head, by simp [Source.lexemes], Or.inr marks⟩
  | .case opening pattern body closing, out => by
      rw [Source.MarksInRange] at out
      obtain ⟨lexeme, mem, defective⟩ := Source.exists_defective out
      exact ⟨lexeme, by simp [Source.lexemes, mem], defective⟩

theorem exists_defective_all : ∀ {parts : List Source}, ¬ MarksInRangeAll parts →
    ∃ lexeme ∈ lexemesOfAll parts, lexeme.Defective
  | [], out => by simp [MarksInRangeAll] at out
  | part :: parts, out => by
      rw [MarksInRangeAll] at out
      by_cases marks : part.MarksInRange
      · obtain ⟨lexeme, mem, defective⟩ := exists_defective_all fun all => out ⟨marks, all⟩
        exact ⟨lexeme, by simp [lexemesOfAll, mem], defective⟩
      · obtain ⟨lexeme, mem, defective⟩ := Source.exists_defective marks
        exact ⟨lexeme, by simp [lexemesOfAll, mem], defective⟩

end

theorem spineOf_kept {heap heap' : List Node} (kept : Kept heap heap') {head : Ref}
    (bound : head < heap.length) : spineOf heap' head = spineOf heap head := by
  have same := kept.op head bound
  cases found : heap[head]? with
  | none => exact absurd (List.getElem?_eq_none_iff.mp found) (Nat.not_le.mpr bound)
  | some node =>
      cases node with
      | cexpr op kids flag => rw [spineOf, spineOf, kept.cexpr _ _ _ _ found, found]
      | _ =>
          rw [opOf, opOf, found] at same
          rw [spineOf, spineOf, found]
          split at same <;> simp_all

theorem kidsOf_map_some (kids : List Ref) : kidsOf (kids.map some) = kids := by
  induction kids with
  | nil => rfl
  | cons kid kids hyp => rw [List.map_cons, kidsOf, hyp]

theorem IsNode.lt_length {heap : List Node} {op : Op} {kids : List Ref} {e : Ref}
    (node : IsNode heap op kids e) : e < heap.length :=
  (List.getElem?_eq_some_iff.mp node).1

theorem Sequenced.lt_length {heap : List Node} {first e : Ref} {rest : List Ref}
    (sequenced : Sequenced heap first rest e) (bound : first < heap.length) : e < heap.length := by
  induction sequenced with
  | nil => exact bound
  | cons node _ hyp => exact hyp node.lt_length

theorem Assembled.lt_length {heap : List Node} {head : Lexeme} {kids : List Ref} {e : Ref}
    (assembled : Assembled heap head kids e) (bound : ∀ kid ∈ kids, kid < heap.length) :
    e < heap.length := by
  unfold Assembled at assembled
  split at assembled
  · exact assembled.2.lt_length
  · split at assembled
    · obtain ⟨first, rest, rfl, sequenced⟩ := assembled
      exact sequenced.lt_length (bound first List.mem_cons_self)
    · exact assembled.2.lt_length
    · obtain ⟨-, mark, node⟩ := assembled
      exact node.lt_length
    · obtain ⟨-, mark, node⟩ := assembled
      exact node.lt_length
    · exact bound e (by simp [assembled])
    · split at assembled
      case isTrue => exact assembled
      case isFalse =>
          obtain ⟨headKids, node⟩ := assembled
          exact node.lt_length

mutual

theorem Source.Tree.lt_length {heap : List Node} :
    ∀ {source : Source} {e : Ref}, source.Tree heap e → e < heap.length
  | .leaf _, e, tree => by
      rw [Source.Tree] at tree
      exact tree
  | .form _ head parts _, e, tree => by
      rw [Source.Tree] at tree
      obtain ⟨-, -, kids, trees, assembled⟩ := tree
      exact assembled.lt_length (trees_lt_length trees)
  | .case _ pattern body _, e, tree => by
      rw [Source.Tree] at tree
      split at tree
      case isTrue => exact tree.lt_length
      case isFalse =>
          obtain ⟨pat, kid, node, -⟩ := tree
          exact node.lt_length

theorem trees_lt_length {heap : List Node} :
    ∀ {parts : List Source} {kids : List Ref}, TreesOfAll heap parts kids →
      ∀ kid ∈ kids, kid < heap.length
  | [], kids, trees => by
      rw [TreesOfAll] at trees
      simp [trees]
  | part :: parts, kids, trees => by
      rw [TreesOfAll] at trees
      obtain ⟨kid, rest, rfl, tree, others⟩ := trees
      intro other mem
      rcases List.mem_cons.mp mem with rfl | mem
      · exact tree.lt_length
      · exact trees_lt_length others other mem

end

/-! ## Lexemes read -/

/-- A lexeme is taken from those to come; at their end there is only the end of the file. -/
structure Took (before : Checker) (lexeme : Lexeme) (after : Checker) : Prop where
  text : after.text = lexeme.text
  runtime : after.runtime = before.runtime
  symbols : after.symbols = before.symbols
  progs : after.progs = before.progs
  peeked : after.peeked = before.peeked.tail
  plain : desugar lexeme.token = lexeme.token
  next : pending before = lexeme :: pending after ∨
    (pending before = [] ∧ pending after = [] ∧ lexeme = ⟨.Eof, ""⟩)

theorem exists_took (before : Checker) :
    ∃ lexeme after, nextToken.run before = .ok (lexeme.token, after) ∧
      Took before lexeme after := by
  cases peeked : before.peeked with
  | cons token rest =>
      refine ⟨⟨desugar token, before.text⟩, { before with peeked := rest }, ?_, ?_⟩
      · have same : before = { before with peeked := token :: rest } := by
          rw [← peeked]
        rw [same]
        rfl
      · refine ⟨rfl, rfl, rfl, rfl, ?_, desugar_desugar token, Or.inl ?_⟩
        · rw [peeked]
          rfl
        · simp [pending, peeked]
  | nil =>
      cases input : before.input with
      | nil =>
          refine ⟨⟨.Eof, ""⟩, { before with text := "" }, ?_, ?_⟩
          · have same : before = { before with peeked := [], input := [] } := by
              rw [← peeked, ← input]
            rw [same]
            rfl
          · refine ⟨rfl, rfl, rfl, rfl, ?_, rfl, Or.inr ?_⟩
            · simp [peeked]
            · simp [pending, peeked, input]
      | cons lexeme rest =>
          refine ⟨lexeme.desugared, { before with input := rest, text := lexeme.text }, ?_, ?_⟩
          · have same : before = { before with peeked := [], input := lexeme :: rest } := by
              rw [← peeked, ← input]
            rw [same]
            rfl
          · refine ⟨rfl, rfl, rfl, rfl, ?_, desugar_desugar lexeme.token, Or.inl ?_⟩
            · simp [peeked]
            · simp [pending, peeked, input]

section Tokens

variable {α : Type} {allowed : Stop → Prop} {post : α → Checker → Prop} {before : Checker}

theorem ends_nextToken {k : Token → CheckerM α}
    (rest : ∀ lexeme after, Took before lexeme after → Ends allowed post (k lexeme.token) after) :
    Ends allowed post (nextToken >>= k) before := by
  obtain ⟨lexeme, after, run, took⟩ := exists_took before
  exact ends_bind_of_ok run (rest lexeme after took)

theorem ends_tokenStr {k : String → CheckerM α} (rest : Ends allowed post (k before.text) before) :
    Ends allowed post (tokenStr >>= k) before := ends_bind_of_ok rfl rest

theorem ends_prefixId {k : String → CheckerM α}
    (rest : ∀ lexeme after, Took before lexeme after → Ends allowed post (k lexeme.text) after) :
    Ends allowed post (prefixId >>= k) before := by
  obtain ⟨lexeme, after, run, took⟩ := exists_took before
  have read : prefixId.run before = .ok (lexeme.text, after) := by
    rw [prefixId, run_bind_of_ok run, ← took.text]
    rfl
  exact ends_bind_of_ok read (rest lexeme after took)

/-- The state with a token put back. -/
abbrev Checker.putBack (checker : Checker) (token : Token) : Checker :=
  { checker with peeked := token :: checker.peeked }

theorem ends_reinsertToken {k : Unit → CheckerM α} {token : Token} (room : before.peeked.length < 2)
    (rest : Ends allowed post (k ()) (before.putBack token)) :
    Ends allowed post (reinsertToken token >>= k) before := by
  have run : (reinsertToken token).run before = .ok ((), before.putBack token) := by
    change Except.ok ((), if before.peeked.length < 2 then before.putBack token else before) = _
    rw [if_pos room]
  exact ends_bind_of_ok run rest

theorem ends_eatToken {k : Unit → CheckerM α} {token : Token}
    (fails : ∀ message, allowed (.report message))
    (rest : ∀ lexeme after, Took before lexeme after → lexeme.token = token →
      Ends allowed post (k ()) after) :
    Ends allowed post (eatToken token >>= k) before := by
  obtain ⟨lexeme, after, run, took⟩ := exists_took before
  by_cases same : token = lexeme.token
  · have read : (eatToken token).run before = .ok ((), after) := by
      rw [eatToken, run_bind_of_ok run, if_neg (not_not.mpr same)]
      rfl
    exact ends_bind_of_ok read (rest lexeme after took same.symm)
  · have read : (eatToken token).run before =
        .error (.report "Scanned token is invalid in this position") := by
      rw [eatToken, run_bind_of_ok run, if_pos same]
      rfl
    rw [Ends, StateT.run_bind, read]
    exact fails _

end Tokens

/-! ## Steps of the reader -/

section Steps

variable {defect : Prop} {before after : Checker}

theorem Took.store {lexeme : Lexeme} (took : Took before lexeme after) :
    after.store = before.store := by
  rw [Checker.store, took.runtime]

theorem Took.mem_pending {lexeme other : Lexeme} (took : Took before lexeme after)
    (mem : other ∈ pending after) : other ∈ pending before := by
  rcases took.next with next | ⟨-, dry, -⟩
  · rw [next]
    exact List.mem_cons_of_mem lexeme mem
  · rw [dry] at mem
    cases mem

theorem Took.reads {lexeme : Lexeme} (took : Took before lexeme after)
    (ready : CanRead defect before) : Reads defect before after := by
  refine ⟨⟨?_, ⟨?_, ?_⟩, ?_⟩, ?_⟩
  · have := ready.slots
    rw [took.peeked, List.length_tail]
    omega
  · intro name
    rw [took.symbols, took.store]
    exact ready.table.symbols name
  · intro name e found
    rw [took.progs] at found
    rw [took.store]
    exact ready.table.prog name e found
  · intro other mem
    exact ready.defects other (took.mem_pending mem)
  · rw [took.store]
    exact kept_refl _

theorem Took.room {lexeme : Lexeme} (took : Took before lexeme after)
    (ready : CanRead defect before) : after.peeked.length < 2 := by
  have := ready.slots
  rw [took.peeked, List.length_tail]
  omega

/-- Of a lexeme that was there the rest remains. -/
theorem Took.pending_of_token {lexeme : Lexeme} (took : Took before lexeme after)
    (token : lexeme.token ≠ .Eof) : pending before = lexeme :: pending after := by
  rcases took.next with next | ⟨-, -, same⟩
  · exact next
  · rw [same] at token
    exact absurd rfl token

theorem pending_putBack {lexeme : Lexeme} (took : Took before lexeme after) :
    pending (after.putBack lexeme.token) = lexeme :: pending after := by
  simp [pending, took.plain, took.text]

theorem Took.reads_putBack {lexeme : Lexeme} (took : Took before lexeme after)
    (ready : CanRead defect before) : Reads defect before (after.putBack lexeme.token) := by
  obtain ⟨⟨-, table, defects⟩, kept⟩ := took.reads ready
  refine ⟨⟨?_, ⟨table.symbols, table.prog⟩, ?_⟩, kept⟩
  · have := took.room ready
    simp only [List.length_cons]
    omega
  · intro other mem
    rw [pending_putBack took] at mem
    rcases took.next with next | ⟨-, -, same⟩
    · exact ready.defects other (next ▸ mem)
    · rcases List.mem_cons.mp mem with rfl | mem
      · rintro (⟨token, -⟩ | out)
        · rw [same] at token
          cases token
        · rw [same] at out
          exact absurd (fun _ found => by cases found) out
      · exact defects other mem

theorem Took.pending_putBack {lexeme : Lexeme} (took : Took before lexeme after)
    (token : lexeme.token ≠ .Eof) : pending (after.putBack lexeme.token) = pending before := by
  rw [Lfsc.pending_putBack took, took.pending_of_token token]

/-- The state after an allocation. -/
abbrev Checker.allocate (checker : Checker) (node : Node) : Checker :=
  { checker with runtime := { checker.runtime with
      store := { checker.runtime.store with heap := checker.runtime.store.heap ++ [node] } } }

theorem run_new (node : Node) : (liftM (new node) : CheckerM Ref).run before =
    .ok (before.store.heap.length, before.allocate node) := rfl

theorem Binding.Stored.kept {heap heap' : List Node} (kept : Kept heap heap') {pair : Binding}
    (stored : pair.Stored heap) : pair.Stored heap' :=
  ⟨fun e found => Nat.lt_of_lt_of_le (stored.bound e found) kept.grows, stored.typed⟩

theorem CanRead.allocate (ready : CanRead defect before) (node : Node) :
    Reads defect before (before.allocate node) := by
  have kept : Kept before.store.heap (before.allocate node).store.heap := kept_append _ _
  refine ⟨⟨ready.slots, ⟨fun name => (ready.table.symbols name).kept kept, ?_⟩, ready.defects⟩,
    kept⟩
  intro name e found
  exact Nat.lt_of_lt_of_le (ready.table.prog name e found) kept.grows

theorem IsNode.allocate (before : Checker) (op : Op) (kids : List Ref) :
    IsNode (before.allocate (.cexpr op kids false)).store.heap op kids
      before.store.heap.length := by
  simp [IsNode]

/-- The state with a name bound. -/
abbrev Checker.bound (checker : Checker) (name : String) (pair : Binding) : Checker :=
  { checker with symbols := Function.update checker.symbols name pair }

theorem CanRead.bind (ready : CanRead defect before) (name : String) {pair : Binding}
    (stored : pair.Stored before.store.heap) : Reads defect before (before.bound name pair) := by
  refine ⟨⟨ready.slots, ⟨?_, ready.table.prog⟩, ready.defects⟩, kept_refl _⟩
  intro other
  by_cases same : other = name
  · subst same
    simpa using stored
  · simpa [Function.update_of_ne same] using ready.table.symbols other

theorem stored_new (checker : Checker) (node : Node) :
    (⟨some checker.store.heap.length, none⟩ : Binding).Stored
      (checker.allocate node).store.heap := by
  refine ⟨?_, ?_⟩
  · rintro e ⟨⟩
    simp
  · simp

end Steps

end Lfsc
