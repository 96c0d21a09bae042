import Lfsc.CheckFile

/-!
# Formation of pi abstractions

The range of a pi abstraction is tested against `type` and `kind` in three of the four modes of
`check`.  In the mode that creates a term without an expected classifier the test is missing, and a
proposition becomes the classifier of a pi abstraction.
-/

namespace Lfsc

open Exec

/-- The classifier of a checked term: the expected one if there is one, else the computed one. -/
def classifierOf (expected : Option Ref) (checked : Checked) : Option Ref :=
  match expected with
  | some classifier => some classifier
  | none => checked.computed

/-- The expression is `type` or `kind` up to definitions. -/
def DenotesSort (heap : List Node) (classifier : Ref) : Prop :=
  ∃ final, followDefs heap classifier = some final ∧
    (opOf heap final = some .type ∨ opOf heap final = some .kind)

/-- The next two tokens open a pi abstraction, whose case starts in the second state. -/
def OpensPi (before start : Checker) : Prop :=
  ∃ opened, nextToken.run before = .ok (.Open, opened) ∧
    (addOpenParens 1 >>= fun _ => nextToken).run opened = .ok (.Bang, start)

/-- What is required of an accepted pi abstraction: its classifier is that of its range, and this is
`type` or `kind`. -/
def PiFormed (fuel : Nat) (args : CheckArgs) (start : Checker) (pi : Checked) (after : Checker) :
    Prop :=
  ∃ sym domain range ranged classifier,
    (checkBangRange (check fuel) args).run start = .ok ((sym, domain, range), ranged) ∧
      classifierOf args.expected range = some classifier ∧
        classifierOf args.expected pi = some classifier ∧
          DenotesSort after.store.heap classifier

/-! ## The case of a pi abstraction -/

theorem check_opensPi {fuel : Nat} {args : CheckArgs} {before start : Checker}
    (opens : OpensPi before start) :
    (check (fuel + 1) args).run before = (checkBang fuel (check fuel) args).run start := by
  obtain ⟨opened, first, second⟩ := opens
  have openCase : (check (fuel + 1) args).run before =
      (checkOpen fuel (check fuel) args).run opened := by
    rw [check, StateT.run_bind, first]
    rfl
  rw [openCase, checkOpen, ← bind_assoc, StateT.run_bind, second]
  rfl

theorem denotesSort_append {heap extra : List Node} {classifier : Ref}
    (sort : DenotesSort heap classifier) : DenotesSort (heap ++ extra) classifier := by
  obtain ⟨final, followed, op⟩ := sort
  have allocated : final < heap.length := op.elim lt_length_of_opOf lt_length_of_opOf
  refine ⟨final, followDefs_append followed allocated, ?_⟩
  rwa [opOf_append allocated]

theorem run_isTypeOrKind_ok {classifier : Ref} {verdict : Bool} {before after : Store}
    (run : (isTypeOrKind classifier).run before = .ok (verdict, after)) :
    before = after ∧ (verdict = true → DenotesSort after.heap classifier) := by
  simp only [isTypeOrKind, run_bind_ok, run_follow_ok, run_getop_ok, run_pure_ok] at run
  obtain ⟨_, final, ⟨followed, rfl⟩, _, op, ⟨-, op_eq, rfl⟩, verdict_eq, rfl⟩ := run
  refine ⟨rfl, fun accepted => ⟨final, followed, ?_⟩⟩
  subst verdict_eq
  simpa [op_eq] using accepted

/-- With an expected classifier, the case succeeds only if that is `type` or `kind`. -/
theorem checkBang_expected {fuel : Nat} {args : CheckArgs} {expected : Ref}
    {start after : Checker} {pi : Checked} (mode : args.expected = some expected)
    (run : (checkBang fuel (check fuel) args).run start = .ok (pi, after)) :
    PiFormed fuel args start pi after := by
  unfold checkBang at run
  simp only [run_bind_ok, mode, liftM_eq_onStore, run_onStore_ok] at run
  obtain ⟨ranged, ⟨sym, domain, range⟩, rangeRun, tested, sort, ⟨_, test, rfl⟩, rest⟩ := run
  obtain ⟨rfl, holds⟩ := run_isTypeOrKind_ok test
  refine ⟨sym, domain, range, ranged, expected, rangeRun, by simp [classifierOf, mode],
    by simp [classifierOf, mode], ?_⟩
  cases sort with
  | false =>
      rw [if_pos Bool.false_ne_true, run_report_bind_ok] at rest
      exact rest.elim
  | true =>
      rw [if_neg (not_not_intro rfl)] at rest
      split at rest
      · simp only [run_bind_ok, run_onStore_ok, run_pure_ok] at rest
        obtain ⟨_, _, ⟨_, built, rfl⟩, -, rfl⟩ := rest
        obtain ⟨flag, -, rfl⟩ := run_newPi_ok built
        exact denotesSort_append (holds rfl)
      · obtain ⟨-, rfl⟩ := run_pure_ok.mp rest
        exact holds rfl

/-- Without an expected classifier and without a term, the case succeeds only if the computed
classifier of the range is `type` or `kind`. -/
theorem checkBang_computed {fuel : Nat} {args : CheckArgs} {start after : Checker} {pi : Checked}
    (mode : args.expected = none) (create : args.create = false)
    (run : (checkBang fuel (check fuel) args).run start = .ok (pi, after)) :
    PiFormed fuel args start pi after := by
  unfold checkBang at run
  simp only [run_bind_ok, mode, create, liftM_eq_onStore, run_onStore_ok, run_deref_ok,
    Bool.false_eq_true, if_false] at run
  obtain ⟨ranged, ⟨sym, domain, range⟩, rangeRun, _, classifier, ⟨computed, rfl⟩, tested, sort,
    ⟨_, test, rfl⟩, rest⟩ := run
  obtain ⟨rfl, holds⟩ := run_isTypeOrKind_ok test
  cases sort with
  | false =>
      rw [if_pos Bool.false_ne_true, run_bind_ok] at rest
      obtain ⟨_, _, -, rest⟩ := rest
      exact (run_report_bind_ok.mp rest).elim
  | true =>
      rw [if_neg (not_not_intro rfl)] at rest
      obtain ⟨rfl, rfl⟩ := run_pure_ok.mp rest
      refine ⟨sym, domain, range, _, classifier, rangeRun, ?_, ?_, holds rfl⟩
      · simpa [classifierOf, mode] using computed
      · simpa [classifierOf, mode] using computed

/-! ## A proposition as the range -/

/-- The arguments of `check` in the command `define`. -/
def defineArgs : CheckArgs := { create := true, computed := true, returnPos := true }

/-- A symbol table with a type `bool` and a constant `ff` of it, before the text of a pi abstraction
whose range is that constant. -/
def piOverConstant : Checker :=
  let start := initChecker (fun _ _ => false) (fun _ => false)
  { start with
    runtime := { start.runtime with
      store := { start.store with
        heap := start.store.heap ++ [.sym "bool" none, .sym "ff" none] } }
    symbols := fun name =>
      if name = "bool" then ⟨some 4, some statType⟩
      else if name = "ff" then ⟨some 5, some 4⟩
      else Binding.none
    input := scan ["(", "!", "x", "bool", "ff", ")"] }

/-- What is left of a run: the classifier computed and the heap. -/
def computedIn (outcome : Except Stop (Checked × Checker)) : Option (Option Ref × List Node) :=
  match outcome with
  | .ok (checked, after) => some (checked.computed, after.store.heap)
  | .error _ => none

theorem exists_of_computedIn {outcome : Except Stop (Checked × Checker)} {computed : Option Ref}
    {heap : List Node} (found : computedIn outcome = some (computed, heap)) :
    ∃ checked after, outcome = .ok (checked, after) ∧ checked.computed = computed ∧
      after.store.heap = heap := by
  cases outcome with
  | error why => simp [computedIn] at found
  | ok result =>
      obtain ⟨checked, after⟩ := result
      obtain ⟨rfl, rfl⟩ : checked.computed = computed ∧ after.store.heap = heap := by
        simpa [computedIn] using found
      exact ⟨checked, after, rfl, rfl, rfl⟩

theorem not_denotesSort {heap : List Node} {classifier : Ref}
    (undefined : valOf heap classifier = none)
    (op_ne : opOf heap classifier ≠ some .type ∧ opOf heap classifier ≠ some .kind) :
    ¬ DenotesSort heap classifier := by
  rintro ⟨final, followed, sort⟩
  have stays : followDefs heap classifier = some classifier := by
    unfold followDefs followFor
    simp [undefined]
  obtain rfl : classifier = final := by simpa [stays] using followed
  exact sort.elim op_ne.1 op_ne.2

/-- The pi abstraction over a constant is accepted where a term is created without an expected
classifier, and its classifier is the type of that constant. -/
theorem piOverConstant_accepted :
    ∃ start pi after, OpensPi piOverConstant start ∧
      (check 5 defineArgs).run piOverConstant = .ok (pi, after) ∧
        ¬ PiFormed 4 defineArgs start pi after := by
  have run : computedIn ((check 5 defineArgs).run piOverConstant) =
      some (some 4, [.cexpr .type [] false, .cexpr .kind [] false, .cexpr .mpz [] false,
        .cexpr .mpq [] false, .sym "bool" none, .sym "ff" none, .sym "x" none,
        .cexpr .pi [6, 4, 5] false]) := by
    decide +kernel
  obtain ⟨pi, after, accepted, computed, heap_eq⟩ := exists_of_computedIn run
  refine ⟨_, pi, after, ⟨_, rfl, rfl⟩, accepted, ?_⟩
  rintro ⟨_, _, _, _, classifier, -, -, classified, sort⟩
  obtain rfl : 4 = classifier := by simpa [classifierOf, defineArgs, computed] using classified
  rw [heap_eq] at sort
  exact not_denotesSort rfl (by decide) sort

/-- Declarations of a type, a constant of it and a predicate on it, and the definition of a pi
abstraction whose range is its own variable, a proof of the predicate. -/
def piOverProposition : List Lexeme := scan
  ["(", "declare", "bool", "type", ")", "(", "declare", "ff", "bool", ")",
    "(", "declare", "holds", "(", "!", "b", "bool", "type", ")", ")",
    "(", "define", "bad", "(", "!", "x", "(", "holds", "ff", ")", "x", ")", ")"]

/-- The value and the type that a file of commands gives an identifier. -/
def definedIn (lexemes : List Lexeme) (name : String) : Option (Node × Node) :=
  match (checkFile 30 40).run
    { initChecker (fun _ _ => false) (fun _ => false) with input := lexemes } with
  | .ok (_, after) => do
      let heap := after.store.heap
      let value ← heap[← valOf heap (← (after.symbols name).expr)]?
      return (value, ← heap[← followDefs heap (← (after.symbols name).type)]?)
  | .error _ => none

end Lfsc
