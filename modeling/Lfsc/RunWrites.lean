import Lfsc.Lexer
import Lfsc.RunCongruence

/-!
# Assignments made by running code

The evaluator of side conditions, too, changes the store by assignments only.  So do all steps of
the checker that read no hole.
-/

namespace Lfsc

open Exec

/-! ## Running code -/

/-- The evaluator changes the store by assignments. -/
def RunWrites (before after : Runtime) : Prop := Writes before.store after.store

instance : Std.Refl RunWrites := ⟨fun runtime => Std.Refl.refl runtime.store⟩

instance : IsTrans Runtime RunWrites :=
  ⟨fun _ _ _ left right => IsTrans.trans (r := Writes) _ _ _ left right⟩

@[simp]
theorem keeps_runWrites_liftM {α : Type} {m : StoreM α} (kept : Keeps Writes m) :
    Keeps RunWrites (liftM m : RunM α) := by
  intro before value after run
  obtain ⟨store, inner, rfl⟩ := run_lift_ok.mp run
  exact kept _ _ _ inner

@[simp]
theorem keeps_runWrites_pure {α : Type} (value : α) : Keeps RunWrites (pure value : RunM α) :=
  keeps_pure value

/-- A change that leaves the store alone. -/
theorem keeps_runWrites_modify {f : Runtime → Runtime}
    (same : ∀ runtime, (f runtime).store = runtime.store) :
    Keeps RunWrites (modify f : RunM Unit) := by
  intro before value after run
  change Except.ok ((), f before) = Except.ok (value, after) at run
  cases run
  rw [RunWrites, same]
  exact Std.Refl.refl before.store

@[simp]
theorem keeps_runWrites_get : Keeps RunWrites (get : RunM Runtime) := by
  intro before value after run
  obtain ⟨-, rfl⟩ : before = value ∧ before = after := by simpa using run
  exact Std.Refl.refl before

@[simp]
theorem keeps_runWrites_noteEvent (event : RunEvent) : Keeps RunWrites (noteEvent event) :=
  keeps_runWrites_modify fun _ => rfl

/-- Being made of assignments is a relation between computations that concerns the first one
only. -/
theorem congruence_runWrites : CallCongruence (fun m _ => Keeps RunWrites m) where
  pure := keeps_pure
  stop := keeps_stop
  bind := keeps_bind
  lift kept := keeps_runWrites_liftM (kept Writes)
  getMark _ _ := keeps_bind keeps_runWrites_get fun _ => keeps_pure _
  toggleMark _ _ := keeps_runWrites_modify fun _ => rfl
  noteEvent _ := keeps_runWrites_modify fun _ => rfl
  cached _ := keeps_bind keeps_runWrites_get fun _ => keeps_pure _
  cacheResult _ _ := keeps_runWrites_modify fun _ => rfl
  isFunction _ := keeps_bind keeps_runWrites_get fun _ => keeps_pure _

theorem keeps_runWrites_runCodeInternal (fuel : Nat) (e : Ref) (useCache : Bool) :
    Keeps RunWrites (runCodeInternal fuel e useCache) :=
  related_runCodeWith congruence_runWrites.functions defeq (fun _ _ _ => by simp) fuel e useCache

/-- Running code changes the store by assignments. -/
@[simp]
theorem keeps_runWrites_runCode (fuel : Nat) (e : Ref) : Keeps RunWrites (runCode fuel e) :=
  keeps_bind (keeps_runWrites_modify fun _ => rfl) fun _ =>
    keeps_runWrites_runCodeInternal fuel e false

/-! ## The checker -/

/-- The store changes by assignments, and no hole is recorded. -/
structure Plain (before after : Checker) : Prop where
  writes : Writes before.store after.store
  holeTrace : after.holeTrace = before.holeTrace
  tailCalls : after.tailCalls = before.tailCalls

instance : Std.Refl Plain := ⟨fun checker => ⟨Std.Refl.refl checker.store, rfl, rfl⟩⟩

instance : IsTrans Checker Plain :=
  ⟨fun _ _ _ left right =>
    ⟨IsTrans.trans _ _ _ left.writes right.writes, right.holeTrace.trans left.holeTrace,
      right.tailCalls.trans left.tailCalls⟩⟩

theorem plain_of_eq {before after : Checker} (store : after.store = before.store)
    (holeTrace : after.holeTrace = before.holeTrace)
    (tailCalls : after.tailCalls = before.tailCalls) :
    Plain before after :=
  ⟨store ▸ Std.Refl.refl after.store, holeTrace, tailCalls⟩

/-! ### Tables -/

/-- A frame relation that allows assignments in the store and bindings of identifiers. -/
class AllowsTables (frame : Checker → Checker → Prop) : Prop extends Std.Refl frame,
    IsTrans Checker frame where
  store {before : Checker} {store : Store} : Writes before.store store →
    frame before { before with runtime := { before.runtime with store } }
  insert (checker : Checker) (name : String) (pair : Binding) :
    frame checker { checker with symbols := Function.update checker.symbols name pair }

instance : AllowsTables Plain := ⟨fun writes => ⟨writes, rfl, rfl⟩, fun _ _ _ =>
  plain_of_eq rfl rfl rfl⟩

section Tables

variable {frame : Checker → Checker → Prop} [AllowsTables frame]

@[simp]
theorem keeps_tables_onStore {α : Type} {m : StoreM α} (kept : Keeps Writes m) :
    Keeps frame (onStore m) := by
  intro before value after run
  obtain ⟨store, inner, rfl⟩ := run_onStore_ok.mp run
  exact AllowsTables.store (kept _ _ _ inner)

@[simp]
theorem keeps_tables_liftM {α : Type} {m : StoreM α} (kept : Keeps Writes m) :
    Keeps frame (liftM m : CheckerM α) := keeps_tables_onStore kept

omit [AllowsTables frame] in
@[simp]
theorem keeps_tables_pure [Std.Refl frame] {α : Type} (value : α) :
    Keeps frame (pure value : CheckerM α) := keeps_pure value

omit [AllowsTables frame] in
@[simp]
theorem keeps_tables_stop {α : Type} (why : Stop) : Keeps frame (Exec.stop why : CheckerM α) :=
  keeps_stop why

omit [AllowsTables frame] in
@[simp]
theorem keeps_tables_report {α : Type} (message : String) :
    Keeps frame (report message : CheckerM α) := keeps_stop _

omit [AllowsTables frame] in
@[simp]
theorem keeps_tables_outOfFuel {α : Type} : Keeps frame (outOfFuel : CheckerM α) := keeps_stop _

omit [AllowsTables frame] in
@[simp]
theorem keeps_tables_deref [Std.Refl frame] {α : Type} (pointer : Option α) :
    Keeps frame (deref pointer : CheckerM α) := by
  cases pointer with
  | none => exact keeps_stop _
  | some value => exact keeps_pure value

omit [AllowsTables frame] in
@[simp]
theorem keeps_tables_map [Std.Refl frame] [IsTrans Checker frame] {α β : Type} {f : α → β}
    {m : CheckerM α} (kept : Keeps frame m) : Keeps frame (f <$> m) := by
  rw [map_eq_pure_bind]
  exact keeps_bind kept fun _ => keeps_pure _

omit [AllowsTables frame] in
@[simp]
theorem keeps_tables_get [Std.Refl frame] : Keeps frame (get : CheckerM Checker) := by
  intro before value after run
  change Except.ok (before, before) = Except.ok (value, after) at run
  cases run
  exact Std.Refl.refl before

omit [AllowsTables frame] in
@[simp]
theorem keeps_tables_symbolsGet [Std.Refl frame] [IsTrans Checker frame] (name : String) :
    Keeps frame (symbolsGet name) :=
  keeps_bind keeps_tables_get fun _ => keeps_pure _

@[simp]
theorem keeps_tables_symbolsInsert (name : String) (pair : Binding) :
    Keeps frame (symbolsInsert name pair) := by
  intro before value after run
  change Except.ok _ = Except.ok (value, after) at run
  cases run
  exact AllowsTables.insert before name pair

@[simp]
theorem keeps_tables_restoreBindings (old : List (String × Binding)) :
    Keeps frame (restoreBindings old) := by
  rw [restoreBindings]
  induction old.reverse with
  | nil => exact keeps_pure _
  | cons binding rest hyp =>
      exact keeps_bind (keeps_bind (keeps_tables_symbolsInsert _ _) fun _ => keeps_pure _) fun _ =>
        hyp

@[simp]
theorem keeps_tables_withBinding {α : Type} {name : String} {pair : Binding} {body : CheckerM α}
    (kept : Keeps frame body) : Keeps frame (withBinding name pair body) := by
  rw [withBinding]
  refine keeps_bind (keeps_tables_symbolsInsert _ _) fun prev => keeps_bind kept fun result => ?_
  exact keeps_bind (keeps_tables_symbolsInsert _ _) fun _ => keeps_pure _

end Tables

/-! ### Assignments -/

@[simp]
theorem keeps_plain_onRuntime {α : Type} {m : RunM α} (kept : Keeps RunWrites m) :
    Keeps Plain (onRuntime m) := by
  intro before value after run
  obtain ⟨runtime, inner, rfl⟩ := run_zoom_ok.mp run
  exact ⟨kept _ _ _ inner, rfl, rfl⟩

@[simp]
theorem keeps_plain_liftRun {α : Type} {m : RunM α} (kept : Keeps RunWrites m) :
    Keeps Plain (liftM m : CheckerM α) := keeps_plain_onRuntime kept

/-- What follows the reading of an object may overwrite it. -/
theorem keeps_plain_load_bind {α : Type} {r : Ref} {k : Node → CheckerM α}
    (rest : ∀ before node value after, before.store.heap[r]? = some node →
      (k node).run before = .ok (value, after) → Plain before after) :
    Keeps Plain (onStore (load r) >>= k) := by
  intro before value after run
  obtain ⟨_, node, read, restRun⟩ := run_bind_ok.mp run
  obtain ⟨_, inner, rfl⟩ := run_onStore_ok.mp read
  obtain ⟨found, rfl⟩ := run_load_ok.mp inner
  exact rest _ _ _ _ found restRun

/-- Overwriting an object before a computation. -/
theorem plain_put_bind {α : Type} {r : Ref} {old node : Node} {k : Unit → CheckerM α} {value : α}
    {before after : Checker} (loaded : before.store.heap[r]? = some old)
    (overwrites : Overwrites old node) (rest : Keeps Plain (k ()))
    (run : (onStore (put r node) >>= k).run before = .ok (value, after)) : Plain before after := by
  obtain ⟨middle, ⟨⟩, write, restRun⟩ := run_bind_ok.mp run
  obtain ⟨store, inner, rfl⟩ := run_onStore_ok.mp write
  have assigned : Writes before.store store :=
    run_put_ok.mp inner ▸ (Write.put loaded overwrites).writes
  have written : Plain before { before with runtime := { before.runtime with store } } :=
    ⟨assigned, rfl, rfl⟩
  exact IsTrans.trans _ _ _ written (rest _ _ _ restRun)

@[simp]
theorem keeps_writes_newRat (numerator denominator : Nat) :
    Keeps Writes (newRat numerator denominator) :=
  keeps_ite (keeps_stop _) (keeps_writes_new (by simp))

/-- A change that leaves the store and the record of holes alone. -/
theorem keeps_plain_modify {f : Checker → Checker}
    (store : ∀ checker, (f checker).store = checker.store)
    (holeTrace : ∀ checker, (f checker).holeTrace = checker.holeTrace)
    (tailCalls : ∀ checker, (f checker).tailCalls = checker.tailCalls) :
    Keeps Plain (modify f : CheckerM Unit) := by
  intro before value after run
  change Except.ok ((), f before) = Except.ok (value, after) at run
  cases run
  exact plain_of_eq (store before) (holeTrace before) (tailCalls before)

/-! ### Tokens -/

@[simp]
theorem keeps_plain_tokenStr : Keeps Plain tokenStr :=
  keeps_bind keeps_tables_get fun _ => keeps_pure _

@[simp]
theorem keeps_plain_yylex : Keeps Plain yylex := by
  intro before value after run
  cases lexemes : before.input with
  | nil =>
      obtain ⟨-, rfl⟩ : Token.Eof = value ∧ { before with text := "" } = after := by
        simpa [yylex, run_bind_ok, lexemes] using run
      exact plain_of_eq rfl rfl rfl
  | cons lexeme rest =>
      obtain ⟨-, rfl⟩ : lexeme.token = value ∧
          { before with input := rest, text := lexeme.text } = after := by
        simpa [yylex, run_bind_ok, lexemes] using run
      exact plain_of_eq rfl rfl rfl

@[simp]
theorem keeps_plain_nextToken : Keeps Plain nextToken := by
  intro before value after run
  cases tokens : before.peeked with
  | nil =>
      have scanned : (yylex >>= fun token => pure (desugar token)).run before =
        .ok (value, after) := by
        simpa [nextToken, tokens] using run
      exact keeps_bind keeps_plain_yylex (fun _ => keeps_tables_pure _) _ _ _ scanned
  | cons token rest =>
      obtain ⟨-, rfl⟩ : desugar token = value ∧ { before with peeked := rest } = after := by
        simpa [nextToken, run_bind_ok, tokens] using run
      exact plain_of_eq rfl rfl rfl

@[simp]
theorem keeps_plain_reinsertToken (token : Token) : Keeps Plain (reinsertToken token) := by
  refine keeps_plain_modify ?_ ?_ ?_ <;>
  · intro checker
    split <;> rfl

@[simp]
theorem keeps_plain_prefixId : Keeps Plain prefixId :=
  keeps_bind keeps_plain_nextToken fun _ => keeps_plain_tokenStr

@[simp]
theorem keeps_plain_eatToken (token : Token) : Keeps Plain (eatToken token) :=
  keeps_bind keeps_plain_nextToken fun _ => keeps_ite (keeps_tables_report _) (keeps_pure _)

end Lfsc
