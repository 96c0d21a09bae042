import Lfsc.CommandFrame
import Lfsc.Lookahead.Ledger

/-!
# Parentheses and the tables

A parenthesis is a token and a text.  The computations between the calls of the scanner leave the
scanner and the number of open parentheses alone, and bind no parenthesis where none is bound.
-/

namespace Lfsc

namespace Lookahead

open Exec Traced

/-- The two parentheses. -/
def IsParen (token : Token) : Prop := token = .Open ∨ token = .Close

/-- The texts of the two parentheses. -/
def IsParenText (text : String) : Prop := text = "(" ∨ text = ")"

/-- A token and a text that are both a parenthesis, or neither. -/
def Fits (token : Token) (text : String) : Prop := IsParen token ↔ IsParenText text

instance (token : Token) : Decidable (IsParen token) := inferInstanceAs (Decidable (_ ∨ _))

instance (text : String) : Decidable (IsParenText text) := inferInstanceAs (Decidable (_ ∨ _))

instance (token : Token) (text : String) : Decidable (Fits token text) :=
  inferInstanceAs (Decidable (_ ↔ _))

theorem isParen_desugar (token : Token) : IsParen (desugar token) ↔ IsParen token := by
  cases token <;> simp [desugar, IsParen]

/-- No parenthesis is bound by `symbols` or `progs`. -/
structure BindsNoParen (checker : Checker) : Prop where
  symbols : ∀ name, IsParenText name → (checker.symbols name).expr = none
  progs : ∀ name, IsParenText name → ∀ prog, checker.progs name ≠ some (some prog)

theorem BindsNoParen.insert {checker : Checker} (bound : BindsNoParen checker) {name : String}
    (clear : ¬ IsParenText name) (pair : Binding) :
    BindsNoParen { checker with symbols := Function.update checker.symbols name pair } := by
  refine ⟨fun other paren => ?_, bound.progs⟩
  have different : other ≠ name := fun same => clear (same ▸ paren)
  simpa [Function.update_of_ne different] using bound.symbols other paren

/-- The scanner and the number of open parentheses are as they were, and no parenthesis came to be
bound. -/
structure Steady (before after : Checker) : Prop where
  scanner : SameScanner before after
  openParens : after.openParens = before.openParens
  bound : BindsNoParen before → BindsNoParen after

instance : Std.Refl Steady := ⟨fun _ => ⟨⟨rfl, rfl, rfl⟩, rfl, id⟩⟩

instance : IsTrans Checker Steady where
  trans _ _ _ first second :=
    ⟨IsTrans.trans _ _ _ first.scanner second.scanner, second.openParens.trans first.openParens,
      second.bound ∘ first.bound⟩

/-- Nothing but the tables and the store changed. -/
structure SameCount (before after : Checker) : Prop where
  openParens : after.openParens = before.openParens
  progs : after.progs = before.progs

instance : AllowsTables SameCount where
  refl _ := ⟨rfl, rfl⟩
  trans _ _ _ first second :=
    ⟨second.openParens.trans first.openParens, second.progs.trans first.progs⟩
  store _ := ⟨rfl, rfl⟩
  insert _ _ _ := ⟨rfl, rfl⟩

@[simp]
theorem keeps_scanner_of_steady {α : Type} {m : CheckerM α} (kept : Keeps Steady m) :
    Keeps SameScanner m := kept.mono fun _ _ steady => steady.scanner

@[simp]
theorem keeps_steady_onRuntime {α : Type} (m : RunM α) : Keeps Steady (onRuntime m) :=
  keeps_zoom fun _ _ => ⟨⟨rfl, rfl, rfl⟩, rfl, fun bound => ⟨bound.symbols, bound.progs⟩⟩

@[simp]
theorem keeps_steady_liftM {α : Type} (m : StoreM α) : Keeps Steady (liftM m : CheckerM α) :=
  keeps_steady_onRuntime _

@[simp]
theorem keeps_steady_liftRun {α : Type} (m : RunM α) : Keeps Steady (liftM m : CheckerM α) :=
  keeps_steady_onRuntime _

theorem keeps_steady_modify {f : Checker → Checker} (same : ∀ checker, Steady checker (f checker)) :
    Keeps Steady (modify f : CheckerM Unit) := by
  intro before value after run
  obtain rfl := run_modify_ok.mp run
  exact same before

theorem steady_of_tables {before after : Checker} (scanner : SameScanner before after)
    (openParens : after.openParens = before.openParens) (symbols : after.symbols = before.symbols)
    (progs : after.progs = before.progs) : Steady before after := by
  refine ⟨scanner, openParens, fun bound => ⟨?_, ?_⟩⟩
  · rw [symbols]
    exact bound.symbols
  · rw [progs]
    exact bound.progs

theorem keeps_steady_symbolsInsert {name : String} (clear : ¬ IsParenText name) (pair : Binding) :
    Keeps Steady (symbolsInsert name pair) := by
  intro before value after run
  change Except.ok _ = Except.ok (value, after) at run
  cases run
  exact ⟨⟨rfl, rfl, rfl⟩, rfl, fun bound => bound.insert clear pair⟩

theorem keeps_steady_restoreBindings {old : List (String × Binding)}
    (clear : ∀ entry ∈ old, ¬ IsParenText entry.1) : Keeps Steady (restoreBindings old) := by
  rw [restoreBindings]
  have reversed : ∀ entry ∈ old.reverse, ¬ IsParenText entry.1 :=
    fun entry mem => clear entry (List.mem_reverse.mp mem)
  generalize old.reverse = entries at reversed
  induction entries with
  | nil => exact keeps_pure _
  | cons binding rest hyp =>
      have first := keeps_steady_symbolsInsert (reversed binding List.mem_cons_self) binding.2
      exact keeps_bind (keeps_bind first fun _ => keeps_pure _) fun _ =>
        hyp fun entry mem => reversed entry (List.mem_cons_of_mem binding mem)

/-- An index into `progs` may enter a name without a program. -/
@[simp]
theorem keeps_steady_progsIndex (name : String) : Keeps Steady (progsIndex name) := by
  intro before value after run
  cases entry : before.progs name with
  | some program =>
      obtain ⟨-, rfl⟩ : program = value ∧ before = after := by
        simpa [progsIndex, run_bind_ok, entry] using run
      exact Std.Refl.refl before
  | none =>
      obtain ⟨-, rfl⟩ : none = value ∧
          { before with progs := Function.update before.progs name (some none) } = after := by
        simpa [progsIndex, run_bind_ok, entry] using run
      refine ⟨⟨rfl, rfl, rfl⟩, rfl, fun bound => ⟨bound.symbols, fun other paren prog => ?_⟩⟩
      by_cases same : other = name
      · simp [same]
      · simpa [Function.update_of_ne same] using bound.progs other paren prog

@[simp]
theorem keeps_steady_checkCode (fuel : Nat) (e : Ref) : Keeps Steady (checkCode fuel e) := by
  intro before value after run
  have table : Scoped False before after := keeps_checkCode fuel e before value after run
  have count : SameCount before after := keeps_tables_checkCode fuel e before value after run
  have scanner : SameScanner before after := keeps_tables_checkCode fuel e before value after run
  exact steady_of_tables scanner count.openParens table.symbols_eq count.progs

@[simp]
theorem keeps_steady_getOpenParens : Keeps Steady getOpenParens :=
  keeps_bind keeps_tables_get fun _ => keeps_pure _

@[simp]
theorem keeps_steady_setAllowRun (allow : Bool) : Keeps Steady (setAllowRun allow) :=
  keeps_steady_modify fun _ => steady_of_tables ⟨rfl, rfl, rfl⟩ rfl rfl rfl

@[simp]
theorem keeps_steady_record (event : Event) : Keeps Steady (Lfsc.record event) :=
  keeps_steady_modify fun _ => steady_of_tables ⟨rfl, rfl, rfl⟩ rfl rfl rfl

@[simp]
theorem keeps_steady_recordHole (event : HoleEvent) : Keeps Steady (recordHole event) :=
  keeps_steady_modify fun _ => steady_of_tables ⟨rfl, rfl, rfl⟩ rfl rfl rfl

@[simp]
theorem keeps_steady_writeComputed (pointer : Bool) (classifier : Ref) :
    Keeps Steady (writeComputed pointer classifier) :=
  keeps_ite (keeps_pure _) (keeps_stop _)

@[simp]
theorem keeps_steady_saveLocal (name : String) (old : Binding) :
    Keeps Steady (saveLocal name old) :=
  keeps_bind (keeps_steady_modify fun _ => steady_of_tables ⟨rfl, rfl, rfl⟩ rfl rfl rfl) fun _ =>
    keeps_steady_record _

theorem keeps_steady_insertAndBindSymbol {name : String} (clear : ¬ IsParenText name) (fuel : Nat)
    (symbol e : Ref) (type : Option Ref) :
    Keeps Steady (insertAndBindSymbol fuel name symbol e type) :=
  keeps_bind (keeps_steady_liftM _) fun _ => keeps_steady_symbolsInsert clear _

@[simp]
theorem keeps_steady_annotatedRange (fuel : Nat) (domain expected : Option Ref) :
    Keeps Steady (annotatedRange fuel domain expected) := by
  cases expected with
  | none => exact keeps_pure none
  | some expected =>
      rw [annotatedRange]
      repeat' first
        | with_reducible refine keeps_bind ?_ fun _ => ?_
        | split
        | simp

@[simp]
theorem keeps_steady_inTailPosition (args : CheckArgs) : Keeps Steady (inTailPosition args) :=
  keeps_bind keeps_tables_get fun _ => keeps_pure _

@[simp]
theorem keeps_steady_isTailArg (args : CheckArgs) (headtp range : Ref) :
    Keeps Steady (isTailArg args headtp range) := by
  rw [isTailArg]
  repeat' first
    | with_reducible refine keeps_bind ?_ fun _ => ?_
    | simp

@[simp]
theorem keeps_steady_checkHolesTail (fuel : Nat) (domain : Ref) (holes : List (Option Ref)) :
    Keeps Steady (checkHolesTail fuel domain holes) := by
  induction holes with
  | nil => exact keeps_pure _
  | cons hole rest hyp =>
      rw [checkHolesTail]
      repeat' first
        | with_reducible refine keeps_bind ?_ fun _ => ?_
        | split
        | dsimp only
        | simp [hyp]

@[simp]
theorem keeps_steady_checkHoles (inAsc : Bool) (holes : List (Option Ref)) :
    Keeps Steady (checkHoles inAsc holes) := by
  induction holes with
  | nil => exact keeps_pure _
  | cons hole rest hyp =>
      rw [checkHoles]
      repeat' first
        | exact keeps_steady_modify fun _ => steady_of_tables ⟨rfl, rfl, rfl⟩ rfl rfl rfl
        | with_reducible refine keeps_bind ?_ fun _ => ?_
        | split
        | dsimp only
        | simp [hyp]

@[simp]
theorem keeps_steady_checkHole (args : CheckArgs) : Keeps Steady (checkHole args) := by
  rw [checkHole]
  repeat' first
    | with_reducible refine keeps_bind ?_ fun _ => ?_
    | split
    | dsimp only
    | simp

/-- The end of an application counts its parenthesis. -/
structure Counted (before after : Checker) : Prop where
  scanner : SameScanner before after
  openParens : after.openParens = before.openParens - 1
  bound : BindsNoParen before → BindsNoParen after

theorem keeps_counted_checkAppEnd (fuel : Nat) (args : CheckArgs) (headtrm : Option Ref)
    (headtp : Ref) (holes : List (Option Ref)) :
    Keeps Counted (checkAppEnd fuel args headtrm headtp holes) := by
  intro before value after run
  rw [checkAppEnd] at run
  obtain ⟨middle, _, lowered, rest⟩ := run_bind_ok.mp run
  obtain rfl := run_modify_ok.mp lowered
  have steady : Steady { before with openParens := before.openParens + -1 } after := by
    refine (?_ : Keeps Steady _) _ value _ rest
    repeat' first
      | with_reducible refine keeps_bind ?_ fun _ => ?_
      | split
      | dsimp only
      | simp
  have scanner := steady.scanner
  exact ⟨⟨scanner.input, scanner.text, scanner.peeked⟩, steady.openParens,
    fun bound => steady.bound ⟨bound.symbols, bound.progs⟩⟩

end Lookahead

end Lfsc
