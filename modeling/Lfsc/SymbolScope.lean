import Mathlib.Data.List.Induction
import Lfsc.CheckFile

/-!
# Scopes of identifiers

The symbol table is changed in place, so a binding made inside a term has to be undone.  The
relation `Scoped` says what a computation leaves behind in the table: nothing, except for the
identifiers it bound for the remainder of the command.  This file proves it for the reading and the
type checking of code, which bind no identifier for longer than its scope.
-/

namespace Lfsc

open Exec

/-! ## The scope relation -/

/-- The identifier of an event. -/
def Event.name : Event → String
  | .saved name _ => name
  | .leaked name => name

/-- The pairs that some events pushed on `local_sym_names`. -/
def savedPairs : List Event → List (String × Binding)
  | [] => []
  | .saved name old :: events => (name, old) :: savedPairs events
  | .leaked _ :: events => savedPairs events

@[simp]
theorem savedPairs_append (first second : List Event) :
    savedPairs (first ++ second) = savedPairs first ++ savedPairs second := by
  induction first with
  | nil => rfl
  | cons event events hyp => cases event <;> simp [savedPairs, hyp]

/-- The table is unchanged outside the identifiers of some events, which are recorded. -/
structure ScopedBy (events : List Event) (before after : Checker) : Prop where
  trace : after.trace = before.trace ++ events
  saved : after.localSymNames = before.localSymNames ++ savedPairs events
  symbols : ∀ name, (∀ event ∈ events, event.name ≠ name) →
    after.symbols name = before.symbols name

/-- The table is unchanged outside the identifiers of the events recorded; there are none unless
bindings may outlive their scope. -/
def Scoped (outlive : Prop) (before after : Checker) : Prop :=
  ∃ events, ScopedBy events before after ∧ (¬ outlive → events = [])

theorem scoped_of_eq {outlive : Prop} {before after : Checker}
    (trace : after.trace = before.trace) (saved : after.localSymNames = before.localSymNames)
    (symbols : after.symbols = before.symbols) : Scoped outlive before after :=
  ⟨[], ⟨by simp [trace], by simp [saved, savedPairs], fun name _ => by rw [symbols]⟩, fun _ => rfl⟩

instance (outlive : Prop) : Std.Refl (Scoped outlive) :=
  ⟨fun _ => scoped_of_eq rfl rfl rfl⟩

theorem Scoped.trans {outlive : Prop} {first second third : Checker}
    (left : Scoped outlive first second) (right : Scoped outlive second third) :
    Scoped outlive first third := by
  obtain ⟨earlier, earlierScoped, earlierNone⟩ := left
  obtain ⟨later, laterScoped, laterNone⟩ := right
  refine ⟨earlier ++ later, ⟨?_, ?_, fun name other => ?_⟩, fun none => ?_⟩
  · rw [laterScoped.trace, earlierScoped.trace, List.append_assoc]
  · rw [laterScoped.saved, earlierScoped.saved, savedPairs_append, List.append_assoc]
  · have inner := laterScoped.symbols name fun event mem =>
      other event (List.mem_append_right _ mem)
    rw [inner, earlierScoped.symbols name fun event mem =>
      other event (List.mem_append_left _ mem)]
  · rw [earlierNone none, laterNone none, List.append_nil]

instance (outlive : Prop) : IsTrans Checker (Scoped outlive) :=
  ⟨fun _ _ _ => Scoped.trans⟩

theorem Scoped.imp {narrow outlive : Prop} (imp : narrow → outlive) {before after : Checker}
    (frame : Scoped narrow before after) : Scoped outlive before after := by
  obtain ⟨events, scopedBy, none⟩ := frame
  exact ⟨events, scopedBy, fun not => none (mt imp not)⟩

/-! ## Undoing bindings -/

/-- A table after old pairs are inserted again, the last one first. -/
def rebound (symbols : SymbolTable) (old : List (String × Binding)) : SymbolTable :=
  old.foldr (fun binding table => Function.update table binding.1 binding.2) symbols

/-- The checker after old pairs are inserted again. -/
def undo (old : List (String × Binding)) (checker : Checker) : Checker :=
  { checker with symbols := rebound checker.symbols old }

theorem undo_append (first second : List (String × Binding)) (checker : Checker) :
    undo (first ++ second) checker = undo first (undo second checker) := by
  simp [undo, rebound]

/-- Inserting the old pair again cancels an insertion. -/
theorem undo_insert (checker : Checker) (name : String) (pair : Binding) :
    undo [(name, checker.symbols name)]
      { checker with symbols := Function.update checker.symbols name pair } = checker := by
  simp [undo, rebound]

theorem rebound_congr {symbols table : SymbolTable} {name : String}
    (eq : symbols name = table name) (old : List (String × Binding)) :
    rebound symbols old name = rebound table old name := by
  induction old with
  | nil => exact eq
  | cons binding old hyp =>
      simp only [rebound, List.foldr_cons, Function.update_apply] at hyp ⊢
      split
      · rfl
      · exact hyp

theorem Scoped.undo {outlive : Prop} {before after : Checker} (frame : Scoped outlive before after)
    (old : List (String × Binding)) : Scoped outlive (undo old before) (undo old after) := by
  obtain ⟨events, scopedBy, none⟩ := frame
  exact ⟨events, ⟨scopedBy.trace, scopedBy.saved, fun name other =>
    rebound_congr (scopedBy.symbols name other) old⟩, none⟩

theorem run_symbolsInsert_ok {name : String} {pair prev : Binding} {before after : Checker} :
    (symbolsInsert name pair).run before = .ok (prev, after) ↔
      before.symbols name = prev ∧
        { before with symbols := Function.update before.symbols name pair } = after := by
  change (Except.ok _ : Except Stop (Binding × Checker)) = .ok (prev, after) ↔ _
  simp

theorem run_restoreBindings (old : List (String × Binding)) (before : Checker) :
    (restoreBindings old).run before = .ok ((), undo old before) := by
  rw [restoreBindings]
  induction old using List.reverseRecOn generalizing before with
  | nil => rfl
  | append_singleton old binding hyp =>
      rw [undo_append, ← hyp, List.reverse_append]
      rfl

/-- A binding that is undone after its scope leaves nothing behind. -/
theorem keeps_withBinding {outlive : Prop} {α : Type} {name : String} {pair : Binding}
    {body : CheckerM α} (kept : Keeps (Scoped outlive) body) :
    Keeps (Scoped outlive) (withBinding name pair body) := by
  intro before value after run
  simp only [withBinding, run_bind_ok, run_symbolsInsert_ok, run_pure_ok] at run
  obtain ⟨_, _, ⟨rfl, rfl⟩, inner, _, bodyRun, _, _, ⟨-, rfl⟩, -, rfl⟩ := run
  have frame := (kept _ _ _ bodyRun).undo [(name, before.symbols name)]
  rwa [undo_insert] at frame

/-! ## Steps that bind nothing -/

section Steps

variable {outlive : Prop}

@[simp]
theorem keeps_onRuntime {α : Type} (m : RunM α) : Keeps (Scoped outlive) (onRuntime m) :=
  keeps_zoom fun _ _ => scoped_of_eq rfl rfl rfl

@[simp]
theorem keeps_liftRun {α : Type} (m : RunM α) :
    Keeps (Scoped outlive) (liftM m : CheckerM α) := keeps_onRuntime m

@[simp]
theorem keeps_onStore {α : Type} (m : StoreM α) : Keeps (Scoped outlive) (onStore m) :=
  keeps_onRuntime (inStore m)

@[simp]
theorem keeps_liftM {α : Type} (m : StoreM α) :
    Keeps (Scoped outlive) (liftM m : CheckerM α) := keeps_onStore m

@[simp]
theorem keeps_pure_scoped {α : Type} (value : α) :
    Keeps (Scoped outlive) (pure value : CheckerM α) := keeps_pure value

@[simp]
theorem keeps_report {α : Type} (message : String) :
    Keeps (Scoped outlive) (report message : CheckerM α) := keeps_stop _

@[simp]
theorem keeps_outOfFuel {α : Type} : Keeps (Scoped outlive) (outOfFuel : CheckerM α) :=
  keeps_stop _

@[simp]
theorem keeps_undefined {α : Type} :
    Keeps (Scoped outlive) (Exec.stop .undefined : CheckerM α) := keeps_stop _

@[simp]
theorem keeps_deref {α : Type} (pointer : Option α) :
    Keeps (Scoped outlive) (deref pointer : CheckerM α) := by
  cases pointer with
  | none => exact keeps_stop _
  | some value => exact keeps_pure value

@[simp]
theorem keeps_map {α β : Type} {f : α → β} {m : CheckerM α} (kept : Keeps (Scoped outlive) m) :
    Keeps (Scoped outlive) (f <$> m) := by
  rw [map_eq_pure_bind]
  exact keeps_bind kept fun _ => keeps_pure _

theorem scoped_modify {f : Checker → Checker} {value : Unit} {before after : Checker}
    (run : (modify f : CheckerM Unit).run before = .ok (value, after))
    (trace : (f before).trace = before.trace)
    (saved : (f before).localSymNames = before.localSymNames)
    (symbols : (f before).symbols = before.symbols) : Scoped outlive before after := by
  obtain rfl : f before = after := by
    change (Except.ok ((), f before) : Except Stop (Unit × Checker)) = .ok (value, after) at run
    simpa using run
  exact scoped_of_eq trace saved symbols

theorem keeps_modify {f : Checker → Checker} (trace : ∀ checker, (f checker).trace = checker.trace)
    (saved : ∀ checker, (f checker).localSymNames = checker.localSymNames)
    (symbols : ∀ checker, (f checker).symbols = checker.symbols) :
    Keeps (Scoped outlive) (modify f : CheckerM Unit) :=
  fun before _ _ run => scoped_modify run (trace before) (saved before) (symbols before)

@[simp]
theorem keeps_get : Keeps (Scoped outlive) (get : CheckerM Checker) := by
  intro before value after run
  obtain ⟨rfl, rfl⟩ : before = value ∧ before = after := by
    change (Except.ok (before, before) : Except Stop (Checker × Checker)) =
      .ok (value, after) at run
    simpa using run
  exact Std.Refl.refl before

@[simp]
theorem keeps_symbolsGet (name : String) : Keeps (Scoped outlive) (symbolsGet name) :=
  keeps_bind keeps_get fun _ => keeps_pure _

@[simp]
theorem keeps_tokenStr : Keeps (Scoped outlive) tokenStr :=
  keeps_bind keeps_get fun _ => keeps_pure _

@[simp]
theorem keeps_yylex : Keeps (Scoped outlive) yylex := by
  intro before value after run
  cases lexemes : before.input with
  | nil =>
      obtain ⟨-, rfl⟩ : Token.Eof = value ∧ { before with text := "" } = after := by
        simpa [yylex, run_bind_ok, lexemes] using run
      exact scoped_of_eq rfl rfl rfl
  | cons lexeme rest =>
      obtain ⟨-, rfl⟩ : lexeme.token = value ∧
          { before with input := rest, text := lexeme.text } = after := by
        simpa [yylex, run_bind_ok, lexemes] using run
      exact scoped_of_eq rfl rfl rfl

@[simp]
theorem keeps_nextToken : Keeps (Scoped outlive) nextToken := by
  intro before value after run
  cases tokens : before.peeked with
  | nil =>
      have scanned : (yylex >>= fun token => pure (desugar token)).run before =
        .ok (value, after) := by
        simpa [nextToken, tokens] using run
      exact keeps_bind keeps_yylex (fun _ => keeps_pure_scoped _) _ _ _ scanned
  | cons token rest =>
      obtain ⟨-, rfl⟩ : desugar token = value ∧ { before with peeked := rest } = after := by
        simpa [nextToken, run_bind_ok, tokens] using run
      exact scoped_of_eq rfl rfl rfl

@[simp]
theorem keeps_reinsertToken (token : Token) : Keeps (Scoped outlive) (reinsertToken token) := by
  refine keeps_modify ?_ ?_ ?_ <;>
  · intro checker
    split <;> rfl

@[simp]
theorem keeps_prefixId : Keeps (Scoped outlive) prefixId :=
  keeps_bind keeps_nextToken fun _ => keeps_tokenStr

@[simp]
theorem keeps_eatToken (token : Token) : Keeps (Scoped outlive) (eatToken token) :=
  keeps_bind keeps_nextToken fun _ => keeps_ite (keeps_report _) (keeps_pure _)

@[simp]
theorem keeps_progsIndex (name : String) : Keeps (Scoped outlive) (progsIndex name) := by
  intro before value after run
  cases entry : before.progs name with
  | some program =>
      obtain ⟨-, rfl⟩ : program = value ∧ before = after := by
        simpa [progsIndex, run_bind_ok, entry] using run
      exact Std.Refl.refl before
  | none =>
      obtain ⟨-, rfl⟩ : none = value ∧
          { before with progs := Function.update before.progs name (some none) } = after := by
        simpa [progsIndex, run_bind_ok, entry] using run
      exact scoped_of_eq rfl rfl rfl

end Steps

/-! ## Reading code -/

section Code

variable {outlive : Prop}

@[simp]
theorem keeps_readCtor : Keeps (Scoped outlive) readCtor := by
  rw [readCtor]
  repeat' first
    | with_reducible refine keeps_bind ?_ fun _ => ?_
    | split
    | simp

/-- Reading the variables of a pattern leaves nothing behind once they are unbound. -/
theorem readPatternVars_undo {fuel : Nat} {pat : Ref} {prevs : List (String × Binding)}
    {before after : Checker} {result : Ref × List (String × Binding)}
    (run : (readPatternVars fuel pat prevs).run before = .ok (result, after)) :
    Scoped outlive (undo prevs before) (undo result.2 after) := by
  induction fuel generalizing pat prevs before with
  | zero => exact (run_stop_ok.mp run).elim
  | succ fuel hyp =>
      simp only [readPatternVars, run_bind_ok] at run
      obtain ⟨peeked, token, tokenRun, rest⟩ := run
      have first : Scoped outlive before peeked := keeps_nextToken _ _ _ tokenRun
      split at rest
      · obtain ⟨rfl, rfl⟩ := run_pure_ok.mp rest
        exact first.undo prevs
      · simp only [run_bind_ok] at rest
        obtain ⟨reinserted, _, reinsertRun, named, name, nameRun, rest⟩ := rest
        have second : Scoped outlive peeked named :=
          (keeps_reinsertToken token _ _ _ reinsertRun).trans (keeps_prefixId _ _ _ nameRun)
        split at rest
        · exact (run_report_bind_ok.mp rest).elim
        · simp only [run_bind_ok, run_symbolsInsert_ok] at rest
          obtain ⟨fresh, var, varRun, _, _, ⟨rfl, rfl⟩, grown, extended, appRun, loopRun⟩ := rest
          have third : Scoped outlive named fresh := keeps_liftM _ _ _ _ varRun
          have applied : Scoped outlive _ grown := keeps_liftM _ _ _ _ appRun
          have fourth := applied.undo (prevs ++ [(name, fresh.symbols name)])
          rw [undo_append, undo_insert] at fourth
          exact (((first.trans second).trans third).undo prevs).trans
            (fourth.trans (hyp loopRun))

theorem readPattern_undo {fuel : Nat} {before after : Checker}
    {result : Option Ref × List (String × Binding)}
    (run : (readPattern fuel).run before = .ok (result, after)) :
    Scoped outlive before (undo result.2 after) := by
  simp only [readPattern, run_bind_ok] at run
  obtain ⟨peeked, token, tokenRun, rest⟩ := run
  have first : Scoped outlive before peeked := keeps_nextToken _ _ _ tokenRun
  split at rest
  · simp only [run_bind_ok] at rest
    obtain ⟨named, ctor, ctorRun, rest⟩ := rest
    have second : Scoped outlive peeked named := keeps_readCtor _ _ _ ctorRun
    split at rest
    · exact (run_stop_ok.mp rest).elim
    · simp only [run_bind_ok, run_pure_ok] at rest
      obtain ⟨_, pattern, varsRun, rfl, rfl⟩ := rest
      exact (first.trans second).trans (readPatternVars_undo varsRun)
  · exact (run_stop_ok.mp rest).elim
  · simp only [run_bind_ok, run_pure_ok] at rest
    obtain ⟨reinserted, _, reinsertRun, _, ctor, ctorRun, rfl, rfl⟩ := rest
    have second : Scoped outlive peeked reinserted := keeps_reinsertToken _ _ _ _ reinsertRun
    exact (first.trans second).trans (keeps_readCtor _ _ _ ctorRun)

@[simp]
theorem keeps_readCase {fuel : Nat} {code : CheckerM (Option Ref)}
    (kept : Keeps (Scoped outlive) code) : Keeps (Scoped outlive) (readCase fuel code) := by
  intro before result after run
  simp only [readCase, run_bind_ok, run_restoreBindings, run_pure_ok] at run
  obtain ⟨opened, _, openRun, patterned, ⟨pat, prevs⟩, patRun, bodied, body, bodyRun, built, case,
    caseRun, _, _, restored, _, _, closeRun, rfl, rfl⟩ := run
  cases restored
  have first : Scoped outlive before opened := keeps_eatToken _ _ _ _ openRun
  have inner : Scoped outlive patterned built :=
    (kept _ _ _ bodyRun).trans (keeps_liftM _ _ _ _ caseRun)
  exact first.trans ((readPattern_undo patRun).trans
    ((inner.undo prevs).trans (keeps_eatToken _ _ _ _ closeRun)))

@[simp]
theorem keeps_readDo {code : CheckerM (Option Ref)} (kept : Keeps (Scoped outlive) code)
    (fuel : Nat) (acc : Option Ref) : Keeps (Scoped outlive) (readDo code fuel acc) := by
  induction fuel generalizing acc with
  | zero => exact keeps_stop _
  | succ fuel hyp =>
      rw [readDo]
      repeat' first
        | with_reducible refine keeps_bind ?_ fun _ => ?_
        | split
        | simp [kept, hyp]

@[simp]
theorem keeps_readCases {fuel : Nat} {code : CheckerM (Option Ref)}
    (kept : Keeps (Scoped outlive) code) (rounds : Nat) (cases : List (Option Ref)) :
    Keeps (Scoped outlive) (readCases fuel code rounds cases) := by
  induction rounds generalizing cases with
  | zero => exact keeps_stop _
  | succ rounds hyp =>
      rw [readCases]
      repeat' first
        | with_reducible refine keeps_bind ?_ fun _ => ?_
        | split
        | simp [kept, hyp]

@[simp]
theorem keeps_readArgs {code : CheckerM (Option Ref)} (kept : Keeps (Scoped outlive) code)
    (fuel : Nat) (acc : Ref) : Keeps (Scoped outlive) (readArgs code fuel acc) := by
  induction fuel generalizing acc with
  | zero => exact keeps_stop _
  | succ fuel hyp =>
      rw [readArgs]
      repeat' first
        | with_reducible refine keeps_bind ?_ fun _ => ?_
        | split
        | simp [kept, hyp]

@[simp]
theorem keeps_readFixed {code : CheckerM (Option Ref)} (kept : Keeps (Scoped outlive) code)
    (op : Op) (arity : Nat) : Keeps (Scoped outlive) (readFixed code op arity) :=
  keeps_bind (keeps_mapM (fun _ => kept) _) fun _ =>
    keeps_bind (keeps_liftM _) fun _ => keeps_bind (keeps_eatToken _) fun _ => keeps_pure _

@[simp]
theorem keeps_readTilde {code : CheckerM (Option Ref)} (kept : Keeps (Scoped outlive) code) :
    Keeps (Scoped outlive) (readTilde code) := by
  rw [readTilde]
  repeat' first
    | with_reducible refine keeps_bind ?_ fun _ => ?_
    | split
    | simp [kept]

@[simp]
theorem keeps_readLet {code : CheckerM (Option Ref)} (kept : Keeps (Scoped outlive) code) :
    Keeps (Scoped outlive) (readLet code) := by
  rw [readLet]
  repeat' first
    | with_reducible refine keeps_bind ?_ fun _ => ?_
    | simp [kept, keeps_withBinding]

@[simp]
theorem keeps_readIfMarked {code : CheckerM (Option Ref)} (kept : Keeps (Scoped outlive) code) :
    Keeps (Scoped outlive) (readIfMarked code) := by
  rw [readIfMarked]
  repeat' first
    | with_reducible exact keeps_mapM (fun _ => kept) _
    | with_reducible refine keeps_bind ?_ fun _ => ?_
    | split
    | simp

@[simp]
theorem keeps_readMarkVar {code : CheckerM (Option Ref)} (kept : Keeps (Scoped outlive) code) :
    Keeps (Scoped outlive) (readMarkVar code) := by
  rw [readMarkVar]
  repeat' first
    | with_reducible refine keeps_bind ?_ fun _ => ?_
    | split
    | dsimp only
    | simp [kept]

@[simp]
theorem keeps_readMatch {fuel : Nat} {code : CheckerM (Option Ref)}
    (kept : Keeps (Scoped outlive) code) : Keeps (Scoped outlive) (readMatch fuel code) := by
  rw [readMatch]
  repeat' first
    | with_reducible refine keeps_bind ?_ fun _ => ?_
    | split
    | simp [kept]

@[simp]
theorem keeps_readApp {fuel : Nat} {code : CheckerM (Option Ref)}
    (kept : Keeps (Scoped outlive) code) : Keeps (Scoped outlive) (readApp fuel code) := by
  rw [readApp]
  repeat' first
    | with_reducible refine keeps_bind ?_ fun _ => ?_
    | split
    | dsimp only
    | simp [kept]

/-- Reading code leaves no identifier bound. -/
@[simp]
theorem keeps_readCode (fuel : Nat) : Keeps (Scoped outlive) (readCode fuel) := by
  induction fuel with
  | zero => exact keeps_stop _
  | succ fuel hyp =>
      rw [readCode]
      repeat' first
        | with_reducible refine keeps_bind ?_ fun _ => ?_
        | split
        | simp [hyp]

/-! ## Type checking code -/

@[simp]
theorem keeps_kindOfArgs {self : Ref → CheckerM Ref} (kept : ∀ r, Keeps (Scoped outlive) (self r))
    (args : List Ref) (head : Ref) (prevs : List (Ref × Option Ref)) :
    Keeps (Scoped outlive) (kindOfArgs self args head prevs) := by
  induction args generalizing head prevs with
  | nil => exact keeps_pure _
  | cons arg rest hyp =>
      rw [kindOfArgs]
      repeat' first
        | with_reducible refine keeps_bind ?_ fun _ => ?_
        | split
        | simp [kept, hyp]

@[simp]
theorem keeps_computeKind (fuel : Nat) (r : Ref) :
    Keeps (Scoped outlive) (computeKind fuel r) := by
  induction fuel generalizing r with
  | zero => exact keeps_stop _
  | succ fuel hyp =>
      rw [computeKind]
      repeat' first
        | with_reducible refine keeps_bind ?_ fun _ => ?_
        | split
        | simp [hyp]

@[simp]
theorem keeps_followType (type : Option Ref) : Keeps (Scoped outlive) (followType type) :=
  keeps_bind (keeps_deref type) fun _ => keeps_liftM _

@[simp]
theorem keeps_sameBranchType (first second : Option Ref) (message : String) :
    Keeps (Scoped outlive) (sameBranchType first second message) := by
  rw [sameBranchType]
  repeat' first
    | with_reducible refine keeps_bind ?_ fun _ => ?_
    | split
    | simp

@[simp]
theorem keeps_checkMarked (type : Option Ref) (message : String) :
    Keeps (Scoped outlive) (checkMarked type message) := by
  rw [checkMarked]
  repeat' first
    | with_reducible refine keeps_bind ?_ fun _ => ?_
    | split
    | dsimp only
    | simp

@[simp]
theorem keeps_checkCompared (type : Option Ref) (message : String) :
    Keeps (Scoped outlive) (checkCompared type message) := by
  rw [checkCompared]
  repeat' first
    | with_reducible refine keeps_bind ?_ fun _ => ?_
    | split
    | simp

@[simp]
theorem keeps_headType (e head : Ref) : Keeps (Scoped outlive) (headType e head) := by
  rw [headType]
  repeat' first
    | with_reducible refine keeps_bind ?_ fun _ => ?_
    | split
    | dsimp only
    | simp

/-- Binding the variables of a pattern leaves nothing behind once they are unbound. -/
theorem bindPattern_undo {vars : List Ref} {cur : Ref} {before after : Checker}
    {result : List (String × Binding) × Ref}
    (run : (bindPattern vars cur).run before = .ok (result, after)) :
    Scoped outlive before (undo result.1 after) := by
  induction vars generalizing cur before after result with
  | nil =>
      obtain ⟨rfl, rfl⟩ := run_pure_ok.mp run
      exact Std.Refl.refl before
  | cons var rest hyp =>
      simp only [bindPattern, run_bind_ok] at run
      obtain ⟨followed, type, typeRun, read, op, opRun, rest⟩ := run
      have first : Scoped outlive before read :=
        (keeps_liftM _ _ _ _ typeRun).trans (keeps_liftM _ _ _ _ opRun)
      split at rest
      · exact (run_report_bind_ok.mp rest).elim
      · simp only [run_bind_ok, run_symbolsInsert_ok, run_pure_ok] at rest
        obtain ⟨named, name, nameRun, fresh, domain, domainRun, _, _, ⟨rfl, rfl⟩, ranged, range,
          rangeRun, _, ⟨prevs, last⟩, loopRun, rfl, rfl⟩ := rest
        have second : Scoped outlive read fresh :=
          (keeps_liftM _ _ _ _ nameRun).trans (keeps_liftM _ _ _ _ domainRun)
        have third : Scoped outlive _ (undo prevs _) :=
          (keeps_liftM _ _ _ _ rangeRun).trans (hyp loopRun)
        have last := third.undo [(name, fresh.symbols name)]
        rw [undo_insert, ← undo_append] at last
        exact (first.trans second).trans last

theorem checkPattern_undo {pat : Ref} {before after : Checker} {prevs : List (String × Binding)}
    (run : (checkPattern pat).run before = .ok (prevs, after)) :
    Scoped outlive before (undo prevs after) := by
  simp only [checkPattern, run_bind_ok] at run
  obtain ⟨collected, ⟨ctor, vars⟩, collectRun, named, name, nameRun, got, pair, pairRun, typed,
    ctortp, typeRun, bound, ⟨old, last⟩, bindRun, followed, type, followRun, read, op, opRun,
    rest⟩ := run
  have first : Scoped outlive before named :=
    (keeps_liftM _ _ _ _ collectRun).trans (keeps_liftM _ _ _ _ nameRun)
  have second : Scoped outlive named typed :=
    (keeps_symbolsGet _ _ _ _ pairRun).trans (keeps_deref _ _ _ _ typeRun)
  have third : Scoped outlive bound read :=
    (keeps_liftM _ _ _ _ followRun).trans (keeps_liftM _ _ _ _ opRun)
  split at rest
  · exact (run_report_bind_ok.mp rest).elim
  · obtain ⟨rfl, rfl⟩ := run_pure_ok.mp rest
    exact (first.trans second).trans ((bindPattern_undo bindRun).trans (third.undo old))

@[simp]
theorem keeps_checkCase {self : Ref → CheckerM (Option Ref)}
    (kept : ∀ r, Keeps (Scoped outlive) (self r)) (case : Ref) :
    Keeps (Scoped outlive) (checkCase self case) := by
  rw [checkCase]
  refine keeps_bind (keeps_liftM _) fun op => keeps_ite (kept case) ?_
  refine keeps_bind (keeps_liftM _) fun pat => keeps_bind (keeps_liftM _) fun node => ?_
  split
  · exact keeps_bind (keeps_liftM _) fun _ => kept _
  · intro before result after run
    simp only [run_bind_ok, run_restoreBindings, run_pure_ok] at run
    obtain ⟨bound, prevs, patRun, read, body, bodyRun, checked, type, typeRun, _, _, restored, rfl,
      rfl⟩ := run
    cases restored
    have inner : Scoped outlive bound checked :=
      (keeps_liftM _ _ _ _ bodyRun).trans (kept _ _ _ _ typeRun)
    exact (checkPattern_undo patRun).trans (inner.undo prevs)

@[simp]
theorem keeps_checkCases {fuel : Nat} {self : Ref → CheckerM (Option Ref)}
    (kept : ∀ r, Keeps (Scoped outlive) (self r)) (cases : List Ref) (mtp : Option Ref) :
    Keeps (Scoped outlive) (checkCases fuel self cases mtp) := by
  induction cases generalizing mtp with
  | nil => exact keeps_pure _
  | cons case rest hyp =>
      rw [checkCases]
      repeat' first
        | with_reducible refine keeps_bind ?_ fun _ => ?_
        | split
        | simp [kept, hyp]

@[simp]
theorem keeps_checkProper (fuel : Nat) (type : Ref) (message : String) :
    Keeps (Scoped outlive) (checkProper fuel type message) := by
  rw [checkProper]
  repeat' first
    | with_reducible refine keeps_bind ?_ fun _ => ?_
    | split
    | dsimp only
    | simp

@[simp]
theorem keeps_checkArith {self : Ref → CheckerM (Option Ref)}
    (kept : ∀ r, Keeps (Scoped outlive) (self r)) (e : Ref) :
    Keeps (Scoped outlive) (checkArith self e) := by
  rw [checkArith]
  repeat' first
    | with_reducible refine keeps_bind ?_ fun _ => ?_
    | split
    | dsimp only
    | simp [kept]

@[simp]
theorem keeps_checkNumeral {self : Ref → CheckerM (Option Ref)}
    (kept : ∀ r, Keeps (Scoped outlive) (self r)) (e : Ref) (message : String) :
    Keeps (Scoped outlive) (checkNumeral self e message) := by
  rw [checkNumeral]
  repeat' first
    | with_reducible refine keeps_bind ?_ fun _ => ?_
    | split
    | dsimp only
    | simp [kept]

@[simp]
theorem keeps_checkBranches {self : Ref → CheckerM (Option Ref)}
    (kept : ∀ r, Keeps (Scoped outlive) (self r)) (e : Ref) (first : Nat) (message : String) :
    Keeps (Scoped outlive) (checkBranches self e first message) := by
  rw [checkBranches]
  repeat' first
    | with_reducible refine keeps_bind ?_ fun _ => ?_
    | simp [kept]

@[simp]
theorem keeps_checkCodeCExpr {fuel : Nat} {self : Ref → CheckerM (Option Ref)}
    (kept : ∀ r, Keeps (Scoped outlive) (self r)) (op : Op) (e : Ref) :
    Keeps (Scoped outlive) (checkCodeCExpr fuel self op e) := by
  cases op <;> unfold checkCodeCExpr <;>
    simp only [checkCodeApp, checkDo, checkLet, checkMpzToMpq, checkIfNumeral, checkFail,
      checkMarkVar, checkIfMarked, checkCompare, checkIfEqual, checkMatch]
  all_goals
    repeat' first
      | with_reducible exact keeps_withBinding (kept _)
      | with_reducible exact keeps_mapM kept _
      | with_reducible refine keeps_bind ?_ fun _ => ?_
      | split
      | simp [kept]

/-- Type checking code leaves no identifier bound. -/
@[simp]
theorem keeps_checkCode (fuel : Nat) (e : Ref) : Keeps (Scoped outlive) (checkCode fuel e) := by
  induction fuel generalizing e with
  | zero => exact keeps_stop _
  | succ fuel hyp =>
      rw [checkCode]
      repeat' first
        | with_reducible refine keeps_bind ?_ fun _ => ?_
        | split
        | simp [hyp]

end Code

end Lfsc
