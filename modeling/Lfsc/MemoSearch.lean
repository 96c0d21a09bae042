import Mathlib.Data.Fintype.Card
import Mathlib.Data.Set.Finite.Basic
import Mathlib.Logic.Relation

/-!
# Memoised search

A depth-first search answers whether a goal can be reached from a vertex.  The memoised search notes
vertices when it enters them and answers false on a vertex noted before.  In a graph without cycles
a noted vertex is one whose search ended without a goal, or one that the search is still below and
hence does not meet again, so that both searches give the same answer.
-/

namespace MemoSearch

open Relation

/-- A graph with goals, and the vertices that the memoised search takes note of. -/
structure Graph (α : Type) where
  /-- The vertices that are searched for. -/
  goal : α → Bool
  /-- The successors of a vertex, in the order in which they are searched. -/
  next : α → List α
  /-- The vertices that are noted. -/
  noted : α → Bool

variable {α : Type} (graph : Graph α)

/-- An edge of the graph. -/
def Graph.Edge (first second : α) : Prop := second ∈ graph.next first

/-- A goal is reached from a vertex. -/
def Graph.Finds (vertex : α) : Prop :=
  ∃ last, ReflTransGen graph.Edge vertex last ∧ graph.goal last = true

/-! ## The two searches -/

/-- Search a list of vertices one after the other until a goal is found. -/
def anyFound (self : α → Option Bool) : List α → Option Bool
  | [] => some false
  | vertex :: rest => do
      let found ← self vertex
      if found then return true else anyFound self rest

/-- The plain search, to a bounded depth. -/
def plain : Nat → α → Option Bool
  | 0, _ => none
  | depth + 1, vertex =>
      if graph.goal vertex then some true else anyFound (plain depth) (graph.next vertex)

/-- Search a list of vertices one after the other until a goal is found, passing on what is noted. -/
def anyFoundNoting (self : α → List α → Option (Bool × List α)) :
    List α → List α → Option (Bool × List α)
  | [], visited => some (false, visited)
  | vertex :: rest, visited => do
      let (found, visited) ← self vertex visited
      if found then return (true, visited) else anyFoundNoting self rest visited

/-- The memoised search, to a bounded depth. -/
def memo [DecidableEq α] : Nat → α → List α → Option (Bool × List α)
  | 0, _, _ => none
  | depth + 1, vertex, visited =>
      if vertex ∈ visited then some (false, visited)
      else if graph.goal vertex then some (true, visited)
      else anyFoundNoting (memo depth) (graph.next vertex)
        (if graph.noted vertex then vertex :: visited else visited)

/-! ## The plain search -/

variable {graph}

theorem Graph.finds_iff {vertex : α} :
    graph.Finds vertex ↔ graph.goal vertex = true ∨ ∃ next ∈ graph.next vertex, graph.Finds next := by
  constructor
  · rintro ⟨last, path, found⟩
    rcases ReflTransGen.cases_head path with rfl | ⟨next, edge, rest⟩
    · exact .inl found
    · exact .inr ⟨next, edge, last, rest, found⟩
  · rintro (found | ⟨next, edge, last, rest, found⟩)
    · exact ⟨vertex, .refl, found⟩
    · exact ⟨last, .head edge rest, found⟩

theorem anyFound_eq_some {self : α → Option Bool} {goes : α → Prop} {vertices : List α} {found : Bool}
    (each : ∀ vertex ∈ vertices, ∀ answer, self vertex = some answer → (answer = true ↔ goes vertex))
    (run : anyFound self vertices = some found) : found = true ↔ ∃ vertex ∈ vertices, goes vertex := by
  induction vertices with
  | nil =>
      obtain rfl : false = found := by simpa [anyFound] using run
      simp
  | cons vertex rest hyp =>
      have later := fun other mem => each other (List.mem_cons_of_mem vertex mem)
      cases first : self vertex with
      | none => simp [anyFound, first] at run
      | some answer =>
          have meaning := each vertex List.mem_cons_self answer first
          cases answer with
          | true =>
              obtain rfl : true = found := by simpa [anyFound, first] using run
              simp [meaning.mp rfl]
          | false =>
              have unmet : ¬ goes vertex := by simpa using meaning
              have rest_run : anyFound self rest = some found := by
                simpa [anyFound, first] using run
              rw [hyp later rest_run]
              simp [unmet]

/-- The plain search tells whether a goal is reached. -/
theorem plain_eq_some {depth : Nat} {vertex : α} {found : Bool}
    (run : plain graph depth vertex = some found) : found = true ↔ graph.Finds vertex := by
  induction depth generalizing vertex found with
  | zero => simp [plain] at run
  | succ depth hyp =>
      rw [plain] at run
      rw [Graph.finds_iff]
      by_cases goal : graph.goal vertex = true
      · obtain rfl : true = found := by simpa [goal] using run
        simp [goal]
      · rw [if_neg goal] at run
        rw [anyFound_eq_some (fun next _ answer => hyp) run]
        simp [goal]

/-! ## The memoised search -/

/-- From the vertices noted no goal is reached, unless the search is below them. -/
def Graph.Settled (graph : Graph α) (visited : List α) (vertex : α) : Prop :=
  ∀ noted ∈ visited, ¬ graph.Finds noted ∨ TransGen graph.Edge noted vertex

/-- What a search below a vertex leaves: the answer, and nothing newly noted from which a goal is
reached unless one was found. -/
structure Graph.Searched (goes : Prop) (graph : Graph α) (visited : List α)
    (result : Bool × List α) : Prop where
  answer : result.1 = true ↔ goes
  noted : result.1 = false → ∀ noted ∈ result.2, noted ∈ visited ∨ ¬ graph.Finds noted

theorem anyFoundNoting_searched {self : α → List α → Option (Bool × List α)} {parent : α}
    {vertices visited : List α} {result : Bool × List α}
    (each : ∀ vertex ∈ vertices, ∀ visited result, graph.Settled visited vertex →
      self vertex visited = some result → graph.Searched (graph.Finds vertex) visited result)
    (below : ∀ vertex ∈ vertices, graph.Edge parent vertex)
    (settled : ∀ noted ∈ visited, ¬ graph.Finds noted ∨ ReflTransGen graph.Edge noted parent)
    (run : anyFoundNoting self vertices visited = some result) :
    graph.Searched (∃ vertex ∈ vertices, graph.Finds vertex) visited result := by
  induction vertices generalizing visited with
  | nil =>
      obtain rfl : (false, visited) = result := by simpa [anyFoundNoting] using run
      exact ⟨by simp, fun _ noted mem => .inl mem⟩
  | cons vertex rest hyp =>
      have edge := below vertex List.mem_cons_self
      have settledHere : graph.Settled visited vertex := by
        intro noted mem
        exact (settled noted mem).imp_right fun path => TransGen.tail' path edge
      cases first : self vertex visited with
      | none => simp [anyFoundNoting, first] at run
      | some middle =>
          have searched := each vertex List.mem_cons_self visited middle settledHere first
          obtain ⟨found, between⟩ := middle
          cases found with
          | true =>
              obtain rfl : (true, between) = result := by simpa [anyFoundNoting, first] using run
              have goes := searched.answer.mp rfl
              exact ⟨by simp [goes], by simp⟩
          | false =>
              have unmet : ¬ graph.Finds vertex := by simpa using searched.answer
              have rest_run : anyFoundNoting self rest between = some result := by
                simpa [anyFoundNoting, first] using run
              have kept : ∀ noted ∈ between,
                  ¬ graph.Finds noted ∨ ReflTransGen graph.Edge noted parent := by
                intro noted mem
                rcases searched.noted rfl noted mem with old | missed
                · exact settled noted old
                · exact .inl missed
              have more := hyp (fun other mem => each other (List.mem_cons_of_mem vertex mem))
                (fun other mem => below other (List.mem_cons_of_mem vertex mem)) kept rest_run
              constructor
              · rw [more.answer]
                simp [unmet]
              · intro lost noted mem
                rcases more.noted lost noted mem with earlier | missed
                · exact searched.noted rfl noted earlier
                · exact .inr missed

/-- In a graph without cycles below a vertex the memoised search from it answers like the plain
search. -/
theorem memo_searched [DecidableEq α] {depth : Nat} {vertex : α} {visited : List α}
    {result : Bool × List α}
    (acyclic : ∀ other, ReflTransGen graph.Edge vertex other → ¬ TransGen graph.Edge other other)
    (settled : graph.Settled visited vertex) (run : memo graph depth vertex visited = some result) :
    graph.Searched (graph.Finds vertex) visited result := by
  induction depth generalizing vertex visited result with
  | zero => simp [memo] at run
  | succ depth hyp =>
      rw [memo] at run
      by_cases seen : vertex ∈ visited
      · obtain rfl : (false, visited) = result := by simpa [seen] using run
        have missed := (settled vertex seen).resolve_right (acyclic vertex .refl)
        exact ⟨by simp [missed], fun _ noted mem => .inl mem⟩
      · rw [if_neg seen] at run
        by_cases goal : graph.goal vertex = true
        · obtain rfl : (true, visited) = result := by simpa [goal] using run
          have goes : graph.Finds vertex := ⟨vertex, .refl, goal⟩
          exact ⟨by simp [goes], by simp⟩
        · rw [if_neg goal] at run
          have each : ∀ next ∈ graph.next vertex, ∀ visited result, graph.Settled visited next →
              memo graph depth next visited = some result →
                graph.Searched (graph.Finds next) visited result := by
            intro next edge visited result settled run
            exact hyp (fun other path => acyclic other (.head edge path)) settled run
          have above : ∀ noted ∈ if graph.noted vertex then vertex :: visited else visited,
              ¬ graph.Finds noted ∨ ReflTransGen graph.Edge noted vertex := by
            intro noted mem
            have either : noted = vertex ∨ noted ∈ visited := by
              split at mem
              · simpa using mem
              · exact .inr mem
            rcases either with rfl | old
            · exact .inr .refl
            · exact (settled noted old).imp_right TransGen.to_reflTransGen
          have searched := anyFoundNoting_searched each (fun _ edge => edge) above run
          have answer : result.1 = true ↔ graph.Finds vertex := by
            rw [searched.answer, Graph.finds_iff]
            simp [goal]
          refine ⟨answer, fun lost noted mem => ?_⟩
          rcases searched.noted lost noted mem with early | missed
          · split at early
            · rcases List.mem_cons.mp early with rfl | old
              · exact .inr fun goes => by simp [lost, goes] at answer
              · exact .inl old
            · exact .inl early
          · exact .inr missed

/-! ## Both searches end -/

/-- Where only finitely many vertices are reached and none of them is reached from itself, every path
ends. -/
theorem Graph.acc {vertex : α} (finite : {other | ReflTransGen graph.Edge vertex other}.Finite)
    (acyclic : ∀ other, ReflTransGen graph.Edge vertex other → ¬ TransGen graph.Edge other other) :
    Acc (fun next before => graph.Edge before next) vertex := by
  let Reached := {other // ReflTransGen graph.Edge vertex other}
  let Below : Reached → Reached → Prop := fun next before => TransGen graph.Edge before.1 next.1
  have : Finite Reached := finite
  have : IsTrans Reached Below := ⟨fun _ _ _ first second => second.trans first⟩
  have : Std.Irrefl Below := ⟨fun other => acyclic other.1 other.2⟩
  have wellFounded := Finite.wellFounded_of_trans_of_irrefl Below
  have ends : ∀ other : Reached, Acc (fun next before => graph.Edge before next) other.1 := by
    intro other
    induction other using wellFounded.induction with
    | _ other hyp =>
        apply Acc.intro
        intro next edge
        exact hyp ⟨next, other.2.tail edge⟩ (.single edge)
  exact ends ⟨vertex, .refl⟩

/-- A common bound for the members of a list. -/
theorem exists_common_bound {β : Type} {holds : β → Nat → Prop} {items : List β}
    (each : ∀ item ∈ items, ∃ enough, ∀ depth ≥ enough, holds item depth) :
    ∃ enough, ∀ depth ≥ enough, ∀ item ∈ items, holds item depth := by
  induction items with
  | nil => exact ⟨0, by simp⟩
  | cons item rest hyp =>
      obtain ⟨first, holdsFirst⟩ := each item List.mem_cons_self
      obtain ⟨later, holdsLater⟩ := hyp fun other mem => each other (List.mem_cons_of_mem item mem)
      refine ⟨max first later, fun depth bound other mem => ?_⟩
      rcases List.mem_cons.mp mem with rfl | mem
      · exact holdsFirst depth (by omega)
      · exact holdsLater depth (by omega) other mem

theorem exists_anyFound {self : α → Option Bool} {vertices : List α}
    (each : ∀ vertex ∈ vertices, ∃ found, self vertex = some found) :
    ∃ found, anyFound self vertices = some found := by
  induction vertices with
  | nil => exact ⟨false, rfl⟩
  | cons vertex rest hyp =>
      obtain ⟨found, first⟩ := each vertex List.mem_cons_self
      have rest_run := hyp fun other mem => each other (List.mem_cons_of_mem vertex mem)
      cases found with
      | true => exact ⟨true, by simp [anyFound, first]⟩
      | false => simpa [anyFound, first] using rest_run

theorem exists_anyFoundNoting {self : α → List α → Option (Bool × List α)} {vertices : List α}
    (each : ∀ vertex ∈ vertices, ∀ visited, ∃ result, self vertex visited = some result)
    (visited : List α) : ∃ result, anyFoundNoting self vertices visited = some result := by
  induction vertices generalizing visited with
  | nil => exact ⟨(false, visited), rfl⟩
  | cons vertex rest hyp =>
      obtain ⟨⟨found, between⟩, first⟩ := each vertex List.mem_cons_self visited
      have rest_run := hyp (fun other mem => each other (List.mem_cons_of_mem vertex mem)) between
      cases found with
      | true => exact ⟨(true, between), by simp [anyFoundNoting, first]⟩
      | false => simpa [anyFoundNoting, first] using rest_run

/-- The plain search returns when it is given enough depth. -/
theorem exists_plain {vertex : α} (ends : Acc (fun next before => graph.Edge before next) vertex) :
    ∃ enough, ∀ depth ≥ enough, ∃ found, plain graph depth vertex = some found := by
  induction ends with
  | intro vertex _ hyp =>
      obtain ⟨enough, each⟩ := exists_common_bound hyp
      refine ⟨enough + 1, fun depth bound => ?_⟩
      obtain ⟨less, rfl⟩ := Nat.exists_eq_add_of_le' (Nat.le_of_add_left_le bound)
      rw [plain]
      split
      · exact ⟨true, rfl⟩
      · exact exists_anyFound (each less (by omega))

/-- The memoised search returns when it is given enough depth, whatever is noted. -/
theorem exists_memo [DecidableEq α] {vertex : α}
    (ends : Acc (fun next before => graph.Edge before next) vertex) :
    ∃ enough, ∀ depth ≥ enough, ∀ visited, ∃ result,
      memo graph depth vertex visited = some result := by
  induction ends with
  | intro vertex _ hyp =>
      obtain ⟨enough, each⟩ := exists_common_bound hyp
      refine ⟨enough + 1, fun depth bound visited => ?_⟩
      obtain ⟨less, rfl⟩ := Nat.exists_eq_add_of_le' (Nat.le_of_add_left_le bound)
      rw [memo]
      split
      · exact ⟨_, rfl⟩
      · split
        · exact ⟨_, rfl⟩
        · exact exists_anyFoundNoting (each less (by omega)) _

end MemoSearch
