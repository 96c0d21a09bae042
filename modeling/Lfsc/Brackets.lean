import Mathlib.Data.List.Basic

/-!
# Bracketed words

The words over an alphabet with a pair of brackets that are one expression: a letter, or expressions
between brackets.  A word may lack some closing brackets at its end.
-/

namespace Brackets

variable {α : Type} {opening closing : α}

/-- The words that are one expression. -/
inductive OneExpr (opening closing : α) : List α → Prop
  | letter {letter : α} (unopened : letter ≠ opening) (unclosed : letter ≠ closing) :
      OneExpr opening closing [letter]
  | group {parts : List (List α)} (each : ∀ part ∈ parts, OneExpr opening closing part) :
      OneExpr opening closing (opening :: (parts.flatten ++ [closing]))

/-- The words that consist of expressions. -/
def Exprs (opening closing : α) (word : List α) : Prop :=
  ∃ parts : List (List α), (∀ part ∈ parts, OneExpr opening closing part) ∧ parts.flatten = word

theorem exprs_nil : Exprs opening closing ([] : List α) := ⟨[], by simp, rfl⟩

theorem OneExpr.exprs {word : List α} (expr : OneExpr opening closing word) :
    Exprs opening closing word := ⟨[word], by simpa using expr, by simp⟩

theorem Exprs.append {first last : List α} (exprs : Exprs opening closing first)
    (more : Exprs opening closing last) : Exprs opening closing (first ++ last) := by
  obtain ⟨parts, each, rfl⟩ := exprs
  obtain ⟨others, eachOther, rfl⟩ := more
  refine ⟨parts ++ others, ?_, List.flatten_append⟩
  intro part mem
  rcases List.mem_append.mp mem with mem | mem
  · exact each part mem
  · exact eachOther part mem

theorem Exprs.group {word : List α} (exprs : Exprs opening closing word) :
    OneExpr opening closing (opening :: (word ++ [closing])) := by
  obtain ⟨parts, each, rfl⟩ := exprs
  exact .group each

/-- So many closing brackets are missing. -/
def closed (closing : α) (word : List α) (missing : Nat) : List α :=
  word ++ List.replicate missing closing

theorem closed_append (first last : List α) (missing : Nat) :
    closed closing (first ++ last) missing = first ++ closed closing last missing :=
  List.append_assoc first last _

/-- A bracket that is closed after the missing ones is one of them. -/
theorem closed_concat (word : List α) (missing : Nat) :
    closed closing (word ++ [closing]) missing = closed closing word missing ++ [closing] := by
  rw [closed, closed, List.append_assoc, List.append_assoc, ← List.replicate_succ',
    List.replicate_succ, List.singleton_append]

theorem closed_succ (word : List α) (missing : Nat) :
    closed closing word (missing + 1) = closed closing word missing ++ [closing] := by
  rw [closed, closed, List.append_assoc, List.replicate_succ']

end Brackets
