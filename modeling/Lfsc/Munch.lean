import Mathlib.Data.List.Basic

/-!
# Longest match, earliest rule

Regular expressions over character classes, matched by derivatives, and the choice of a rule for the
beginning of a text: the rule with the longest match, and the earliest one of several.
-/

namespace Munch

/-- A regular expression over classes of characters. -/
inductive Regex (α : Type)
  /-- The empty word. -/
  | empty
  /-- No word. -/
  | never
  /-- One character of a class. -/
  | one (allowed : α → Bool)
  /-- One word after the other. -/
  | seq (first second : Regex α)
  /-- Either word. -/
  | alt (first second : Regex α)
  /-- Any number of words. -/
  | many (body : Regex α)

namespace Regex

variable {α : Type}

/-- A given word. -/
def word [DecidableEq α] : List α → Regex α
  | [] => .empty
  | c :: rest => .seq (.one (· = c)) (word rest)

/-- One word or more. -/
def plus (body : Regex α) : Regex α := .seq body (.many body)

/-- The words of a regular expression. -/
inductive Matches : Regex α → List α → Prop
  | empty : Matches .empty []
  | one {allowed : α → Bool} {c : α} : allowed c = true → Matches (.one allowed) [c]
  | seq {first second : Regex α} {left right : List α} :
      Matches first left → Matches second right → Matches (.seq first second) (left ++ right)
  | left {first second : Regex α} {text : List α} : Matches first text → Matches (.alt first second) text
  | right {first second : Regex α} {text : List α} :
      Matches second text → Matches (.alt first second) text
  | done {body : Regex α} : Matches (.many body) []
  | more {body : Regex α} {left right : List α} :
      Matches body left → Matches (.many body) right → Matches (.many body) (left ++ right)

/-- Whether the empty word is matched. -/
def nullable : Regex α → Bool
  | .empty => true
  | .never => false
  | .one _ => false
  | .seq first second => first.nullable && second.nullable
  | .alt first second => first.nullable || second.nullable
  | .many _ => true

/-- What remains to be matched after a character. -/
def deriv (c : α) : Regex α → Regex α
  | .empty => .never
  | .never => .never
  | .one allowed => if allowed c then .empty else .never
  | .seq first second =>
      if first.nullable then .alt (.seq (first.deriv c) second) (second.deriv c)
      else .seq (first.deriv c) second
  | .alt first second => .alt (first.deriv c) (second.deriv c)
  | .many body => .seq (body.deriv c) (.many body)

/-- The length of the longest match at the beginning of a text. -/
def longest : Regex α → List α → Option Nat
  | r, [] => if r.nullable then some 0 else none
  | r, c :: rest =>
      match (r.deriv c).longest rest with
      | some length => some (length + 1)
      | none => if r.nullable then some 0 else none

/-- A bound of the lengths of the words, unless there is a repetition. -/
def longestWord : Regex α → Option Nat
  | .empty => some 0
  | .never => some 0
  | .one _ => some 1
  | .seq first second => do return (← first.longestWord) + (← second.longestWord)
  | .alt first second => do return max (← first.longestWord) (← second.longestWord)
  | .many _ => none

/-- No word contains the character. -/
def avoids (c : α) : Regex α → Bool
  | .empty => true
  | .never => true
  | .one allowed => !allowed c
  | .seq first second => first.avoids c && second.avoids c
  | .alt first second => first.avoids c && second.avoids c
  | .many body => body.avoids c

/-! ## Derivatives -/

@[simp]
theorem matches_empty {text : List α} : Matches .empty text ↔ text = [] := by
  constructor
  · rintro ⟨⟩
    rfl
  · rintro rfl
    exact .empty

@[simp]
theorem not_matches_never {text : List α} : ¬ Matches .never text := by
  rintro ⟨⟩

@[simp]
theorem matches_one {allowed : α → Bool} {text : List α} :
    Matches (.one allowed) text ↔ ∃ c, allowed c = true ∧ text = [c] := by
  constructor
  · rintro ⟨⟩
    exact ⟨_, ‹_›, rfl⟩
  · rintro ⟨c, holds, rfl⟩
    exact .one holds

theorem matches_seq {first second : Regex α} {text : List α} :
    Matches (.seq first second) text ↔
      ∃ left right, text = left ++ right ∧ Matches first left ∧ Matches second right := by
  constructor
  · rintro ⟨⟩
    exact ⟨_, _, rfl, ‹_›, ‹_›⟩
  · rintro ⟨left, right, rfl, before, after⟩
    exact .seq before after

@[simp]
theorem matches_alt {first second : Regex α} {text : List α} :
    Matches (.alt first second) text ↔ Matches first text ∨ Matches second text := by
  constructor
  · rintro (_ | _)
    · exact .inl ‹_›
    · exact .inr ‹_›
  · rintro (before | after)
    · exact .left before
    · exact .right after

theorem nullable_iff {r : Regex α} : r.nullable = true ↔ Matches r [] := by
  induction r with
  | empty => simp [nullable]
  | never => simp [nullable]
  | one allowed => simp [nullable]
  | seq first second before after =>
      simp only [nullable, Bool.and_eq_true, before, after, matches_seq, List.nil_eq,
        List.append_eq_nil_iff]
      constructor
      · rintro ⟨left, right⟩
        exact ⟨[], [], ⟨rfl, rfl⟩, left, right⟩
      · rintro ⟨_, _, ⟨rfl, rfl⟩, left, right⟩
        exact ⟨left, right⟩
  | alt first second before after => simp [nullable, before, after]
  | many body _ => simp [nullable, Matches.done]

/-- A repetition that starts with a character starts with a word that does. -/
theorem matches_many_cons {body : Regex α} {c : α} {rest : List α} :
    Matches (.many body) (c :: rest) ↔
      ∃ left right, rest = left ++ right ∧ Matches body (c :: left) ∧
        Matches (.many body) right := by
  constructor
  · intro found
    generalize repeated : Regex.many body = r at found
    generalize whole : c :: rest = text at found
    induction found with
    | @more other left right first others _ later =>
        cases repeated
        cases left with
        | nil => exact later rfl whole
        | cons c' left =>
            obtain ⟨rfl, rfl⟩ := List.cons.inj whole
            exact ⟨left, right, rfl, first, others⟩
    | done => cases whole
    | _ => cases repeated
  · rintro ⟨left, right, rfl, first, others⟩
    exact .more first others

/-- The derivative matches what completes the character to a word. -/
theorem matches_deriv {r : Regex α} {c : α} {rest : List α} :
    Matches (r.deriv c) rest ↔ Matches r (c :: rest) := by
  induction r generalizing rest with
  | empty => simp [deriv]
  | never => simp [deriv]
  | one allowed =>
      by_cases holds : allowed c = true
      · simp [deriv, holds]
      · simp only [deriv, holds, matches_one]
        simp [holds]
  | alt first second before after => simp [deriv, before, after]
  | many body hyp =>
      rw [deriv, matches_seq, matches_many_cons]
      simp only [hyp]
  | seq first second before after =>
      have splits : Matches (.seq first second) (c :: rest) ↔
          (∃ left right, rest = left ++ right ∧ Matches first (c :: left) ∧ Matches second right) ∨
          (Matches first [] ∧ Matches second (c :: rest)) := by
        rw [matches_seq]
        constructor
        · rintro ⟨left, right, whole, head, tail⟩
          cases left with
          | nil => exact .inr ⟨head, by simpa [whole] using tail⟩
          | cons c' left =>
              obtain ⟨rfl, rfl⟩ := List.cons.inj whole
              exact .inl ⟨left, right, rfl, head, tail⟩
        · rintro (⟨left, right, rfl, head, tail⟩ | ⟨head, tail⟩)
          · exact ⟨c :: left, right, rfl, head, tail⟩
          · exact ⟨[], c :: rest, rfl, head, tail⟩
      rw [splits, ← nullable_iff, deriv]
      by_cases null : first.nullable = true
      · simp [null, matches_seq, before, after]
      · simp [null, matches_seq, before]

/-! ## The longest match -/

/-- A length of the longest match at the beginning of a text, or none if nothing matches. -/
def IsLongest (r : Regex α) (text : List α) : Option Nat → Prop
  | some length => length ≤ text.length ∧ Matches r (text.take length) ∧
      ∀ more ≤ text.length, Matches r (text.take more) → more ≤ length
  | none => ∀ length ≤ text.length, ¬ Matches r (text.take length)

theorem isLongest_longest (r : Regex α) (text : List α) : IsLongest r text (r.longest text) := by
  induction text generalizing r with
  | nil =>
      rw [longest]
      split
      · exact ⟨Nat.le_refl 0, nullable_iff.mp ‹_›, fun more bound _ => bound⟩
      · rename_i null
        simpa [IsLongest, nullable_iff] using null
  | cons c rest hyp =>
      have below := hyp (r.deriv c)
      rw [longest]
      cases later : (r.deriv c).longest rest with
      | some less =>
          rw [later] at below
          obtain ⟨bound, matching, maximal⟩ := below
          refine ⟨Nat.succ_le_succ bound, matches_deriv.mp matching, ?_⟩
          intro more moreBound longer
          cases more with
          | zero => exact Nat.zero_le _
          | succ more =>
              exact Nat.succ_le_succ
                (maximal more (Nat.le_of_succ_le_succ moreBound) (matches_deriv.mpr longer))
      | none =>
          rw [later] at below
          have unmatched : ∀ length ≤ rest.length, ¬ Matches r (c :: rest.take length) :=
            fun length bound matching => below length bound (matches_deriv.mpr matching)
          simp only
          split
          · refine ⟨Nat.zero_le _, nullable_iff.mp ‹_›, fun more bound matching => ?_⟩
            cases more with
            | zero => exact Nat.le_refl 0
            | succ more => exact (unmatched more (Nat.le_of_succ_le_succ bound) matching).elim
          · rename_i null
            intro length bound matching
            cases length with
            | zero => exact null (nullable_iff.mpr matching)
            | succ length => exact unmatched length (Nat.le_of_succ_le_succ bound) matching

/-! ## Characters of words -/

theorem not_mem_of_matches {c : α} {r : Regex α} {text : List α} (matching : Matches r text)
    (avoided : r.avoids c = true) : c ∉ text := by
  induction matching with
  | empty => simp
  | one holds =>
      intro mem
      obtain rfl := List.mem_singleton.mp mem
      simp [avoids, holds] at avoided
  | seq _ _ before after =>
      simp only [avoids, Bool.and_eq_true] at avoided
      simp [before avoided.1, after avoided.2]
  | left _ hyp =>
      simp only [avoids, Bool.and_eq_true] at avoided
      exact hyp avoided.1
  | right _ hyp =>
      simp only [avoids, Bool.and_eq_true] at avoided
      exact hyp avoided.2
  | done => simp
  | more _ _ first others => simp [first avoided, others avoided]

theorem length_le_longestWord {r : Regex α} {text : List α} {bound : Nat}
    (matching : Matches r text) (bounded : r.longestWord = some bound) : text.length ≤ bound := by
  induction matching generalizing bound with
  | empty => exact Nat.zero_le _
  | one _ =>
      obtain rfl := Option.some.inj bounded
      exact Nat.le_refl 1
  | seq _ _ before after =>
      simp only [longestWord, Option.bind_eq_bind, Option.bind_eq_some_iff] at bounded
      obtain ⟨left, first, right, second, total⟩ := bounded
      obtain rfl := Option.some.inj total
      rw [List.length_append]
      exact Nat.add_le_add (before first) (after second)
  | left _ hyp =>
      simp only [longestWord, Option.bind_eq_bind, Option.bind_eq_some_iff] at bounded
      obtain ⟨left, first, right, -, total⟩ := bounded
      obtain rfl := Option.some.inj total
      exact Nat.le_trans (hyp first) (Nat.le_max_left _ _)
  | right _ hyp =>
      simp only [longestWord, Option.bind_eq_bind, Option.bind_eq_some_iff] at bounded
      obtain ⟨left, -, right, second, total⟩ := bounded
      obtain rfl := Option.some.inj total
      exact Nat.le_trans (hyp second) (Nat.le_max_right _ _)
  | done => exact Nat.zero_le _
  | more => cases bounded

theorem matches_word [DecidableEq α] {chars text : List α} :
    Matches (word chars) text ↔ text = chars := by
  induction chars generalizing text with
  | nil => exact matches_empty
  | cons c rest hyp =>
      rw [word, matches_seq]
      constructor
      · rintro ⟨left, right, rfl, first, others⟩
        obtain ⟨c', same, rfl⟩ := matches_one.mp first
        obtain rfl := of_decide_eq_true same
        rw [hyp.mp others]
        rfl
      · rintro rfl
        exact ⟨[c], rest, rfl, .one (decide_eq_true rfl), hyp.mpr rfl⟩

/-- A repetition of a class consists of characters of the class. -/
theorem matches_many_one {allowed : α → Bool} {text : List α} :
    Matches (.many (.one allowed)) text ↔ ∀ c ∈ text, allowed c = true := by
  induction text with
  | nil => simp [Matches.done]
  | cons c rest hyp =>
      rw [matches_many_cons]
      constructor
      · rintro ⟨left, right, rfl, first, others⟩
        obtain ⟨c', holds, single⟩ := matches_one.mp first
        obtain ⟨rfl, rfl⟩ := List.cons.inj single
        exact List.forall_mem_cons.mpr ⟨holds, hyp.mp others⟩
      · intro all
        obtain ⟨holds, others⟩ := List.forall_mem_cons.mp all
        exact ⟨[], rest, rfl, .one holds, hyp.mpr others⟩

theorem matches_plus_one {allowed : α → Bool} {text : List α} :
    Matches (plus (.one allowed)) text ↔ text ≠ [] ∧ ∀ c ∈ text, allowed c = true := by
  rw [plus, matches_seq]
  constructor
  · rintro ⟨left, right, rfl, first, others⟩
    obtain ⟨c, holds, rfl⟩ := matches_one.mp first
    exact ⟨List.cons_ne_nil _ _, List.forall_mem_cons.mpr ⟨holds, matches_many_one.mp others⟩⟩
  · rintro ⟨nonempty, all⟩
    cases text with
    | nil => exact (nonempty rfl).elim
    | cons c rest =>
        obtain ⟨holds, others⟩ := List.forall_mem_cons.mp all
        exact ⟨[c], rest, rfl, .one holds, matches_many_one.mpr others⟩

end Regex

/-! ## Choosing a rule -/

section Choice

variable {α Action : Type}

/-- The length of the longest match of any rule with the action of the earliest rule that has it. -/
def choose : List (Regex α × Action) → List α → Option (Nat × Action)
  | [], _ => none
  | (r, action) :: rules, text =>
      match r.longest text, choose rules text with
      | some length, some (other, later) =>
          if other ≤ length then some (length, action) else some (other, later)
      | some length, none => some (length, action)
      | none, later => later

/-- The rules before the one chosen have no match of its length, and no rule has a longer one. -/
structure Chosen (rules : List (Regex α × Action)) (text : List α) (length : Nat)
    (action : Action) : Prop where
  bound : length ≤ text.length
  earliest : ∃ before r after, rules = before ++ (r, action) :: after ∧
    r.Matches (text.take length) ∧ ∀ rule ∈ before, ¬ rule.1.Matches (text.take length)
  longest : ∀ rule ∈ rules, ∀ more ≤ text.length, rule.1.Matches (text.take more) → more ≤ length

theorem choose_spec (rules : List (Regex α × Action)) (text : List α) :
    match choose rules text with
    | some (length, action) => Chosen rules text length action
    | none => ∀ rule ∈ rules, ∀ length ≤ text.length, ¬ rule.1.Matches (text.take length) := by
  induction rules with
  | nil => simp [choose]
  | cons rule rules hyp =>
      obtain ⟨r, action⟩ := rule
      have own := r.isLongest_longest text
      rw [choose]
      cases first : r.longest text with
      | none =>
          rw [first] at own
          cases rest : choose rules text with
          | none =>
              rw [rest] at hyp
              exact List.forall_mem_cons.mpr ⟨own, hyp⟩
          | some chosen =>
              obtain ⟨length, later⟩ := chosen
              rw [rest] at hyp
              obtain ⟨before, r', after, split, matching, others⟩ := hyp.earliest
              refine ⟨hyp.bound, ⟨(r, action) :: before, r', after, by rw [split]; rfl, matching, ?_⟩, ?_⟩
              · exact List.forall_mem_cons.mpr ⟨own length hyp.bound, others⟩
              · refine List.forall_mem_cons.mpr ⟨fun more bound found => ?_, hyp.longest⟩
                exact (own more bound found).elim
      | some length =>
          rw [first] at own
          obtain ⟨bound, matching, maximal⟩ := own
          cases rest : choose rules text with
          | none =>
              rw [rest] at hyp
              refine ⟨bound, ⟨[], r, rules, rfl, matching, by simp⟩, ?_⟩
              refine List.forall_mem_cons.mpr ⟨maximal, fun rule mem more moreBound found => ?_⟩
              exact (hyp rule mem more moreBound found).elim
          | some chosen =>
              obtain ⟨other, later⟩ := chosen
              rw [rest] at hyp
              by_cases short : other ≤ length
              · simp only [short, if_true]
                refine ⟨bound, ⟨[], r, rules, rfl, matching, by simp⟩, ?_⟩
                refine List.forall_mem_cons.mpr ⟨maximal, fun rule mem more moreBound found => ?_⟩
                exact Nat.le_trans (hyp.longest rule mem more moreBound found) short
              · simp only [short, if_false]
                obtain ⟨before, r', after, split, matching', others⟩ := hyp.earliest
                refine ⟨hyp.bound,
                  ⟨(r, action) :: before, r', after, by rw [split]; rfl, matching', ?_⟩, ?_⟩
                · refine List.forall_mem_cons.mpr ⟨fun found => ?_, others⟩
                  exact short (maximal other hyp.bound found)
                · refine List.forall_mem_cons.mpr ⟨fun more moreBound found => ?_, hyp.longest⟩
                  have := maximal more moreBound found
                  omega

theorem Chosen.mem {rules : List (Regex α × Action)} {text : List α} {length : Nat} {action : Action}
    (chosen : Chosen rules text length action) :
    ∃ r, (r, action) ∈ rules ∧ r.Matches (text.take length) := by
  obtain ⟨before, r, after, split, matching, -⟩ := chosen.earliest
  exact ⟨r, by simp [split], matching⟩

/-- Of two rules that match a text, each before the other one, the actions are the same. -/
theorem earliest_unique {rules : List (Regex α × Action)} {word : List α}
    {before before' after after' : List (Regex α × Action)} {rule rule' : Regex α × Action}
    (split : rules = before ++ rule :: after) (split' : rules = before' ++ rule' :: after')
    (matching : rule.1.Matches word) (matching' : rule'.1.Matches word)
    (others : ∀ rule ∈ before, ¬ rule.1.Matches word)
    (others' : ∀ rule ∈ before', ¬ rule.1.Matches word) : rule = rule' := by
  rcases List.append_eq_append_iff.mp (split.symm.trans split') with
    ⟨between, first, second⟩ | ⟨between, first, second⟩
  · cases between with
    | nil => exact (List.cons.inj second).1
    | cons early between =>
        obtain ⟨rfl, -⟩ := List.cons.inj second
        exact (others' rule (by simp [first]) matching).elim
  · cases between with
    | nil => exact (List.cons.inj second).1.symm
    | cons early between =>
        obtain ⟨rfl, -⟩ := List.cons.inj second
        exact (others rule' (by simp [first]) matching').elim

/-- Length and action are determined. -/
theorem Chosen.unique {rules : List (Regex α × Action)} {text : List α} {length length' : Nat}
    {action action' : Action} (chosen : Chosen rules text length action)
    (chosen' : Chosen rules text length' action') : length = length' ∧ action = action' := by
  obtain ⟨r, mem, found⟩ := chosen.mem
  obtain ⟨r', mem', found'⟩ := chosen'.mem
  obtain rfl : length = length' :=
    Nat.le_antisymm (chosen'.longest _ mem _ chosen.bound found)
      (chosen.longest _ mem' _ chosen'.bound found')
  obtain ⟨before, first, after, split, matching, others⟩ := chosen.earliest
  obtain ⟨before', first', after', split', matching', others'⟩ := chosen'.earliest
  have same := earliest_unique split split' matching matching' others others'
  exact ⟨rfl, congrArg Prod.snd same⟩

theorem choose_eq_some_iff {rules : List (Regex α × Action)} {text : List α} {length : Nat}
    {action : Action} :
    choose rules text = some (length, action) ↔ Chosen rules text length action := by
  have spec := choose_spec rules text
  constructor
  · intro found
    rwa [found] at spec
  · intro chosen
    cases found : choose rules text with
    | none =>
        rw [found] at spec
        obtain ⟨r, mem, matching⟩ := chosen.mem
        exact (spec _ mem _ chosen.bound matching).elim
    | some other =>
        rw [found] at spec
        obtain ⟨rfl, rfl⟩ := chosen.unique spec
        rfl

/-- The rule is also chosen for the word alone. -/
theorem Chosen.restrict {rules : List (Regex α × Action)} {word rest : List α} {action : Action}
    (chosen : Chosen rules (word ++ rest) word.length action) :
    Chosen rules word word.length action := by
  obtain ⟨-, ⟨before, r, after, split, matching, others⟩, -⟩ := chosen
  rw [List.take_left] at matching others
  refine ⟨Nat.le_refl _, ⟨before, r, after, split, ?_, ?_⟩, fun _ _ _ bound _ => bound⟩
  · rwa [List.take_length]
  · rwa [List.take_length]

/-- The rule for a word is chosen wherever what follows the word completes no longer one. -/
theorem Chosen.extend {rules : List (Regex α × Action)} {word rest : List α} {action : Action}
    (chosen : Chosen rules word word.length action)
    (stops : ∀ rule ∈ rules, ∀ c more, c :: more <+: rest → ¬ rule.1.Matches (word ++ c :: more)) :
    Chosen rules (word ++ rest) word.length action := by
  obtain ⟨-, ⟨before, r, after, split, matching, others⟩, -⟩ := chosen
  rw [List.take_length] at matching others
  refine ⟨by simp, ⟨before, r, after, split, ?_, ?_⟩, fun rule mem more bound found => ?_⟩
  · rwa [List.take_left]
  · rwa [List.take_left]
  · by_contra longer
    rw [List.take_append, List.take_of_length_le (by omega)] at found
    cases further : rest.take (more - word.length) with
    | nil =>
        have short := congrArg List.length further
        rw [List.length_take, List.length_nil] at short
        rw [List.length_append] at bound
        omega
    | cons c tail =>
        rw [further] at found
        exact stops rule mem c tail (further ▸ List.take_prefix _ _) found

end Choice

end Munch
