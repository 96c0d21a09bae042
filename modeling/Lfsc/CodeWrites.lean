import Lfsc.CheckCode
import Lfsc.RunWrites

/-!
# Assignments made by reading and type checking code

Reading code and computing its type change the store by assignments only, and record no hole.
-/

namespace Lfsc

open Exec

/-! ## Reading code -/

@[simp]
theorem keeps_plain_progsIndex (name : String) : Keeps Plain (progsIndex name) := by
  intro before value after run
  cases entry : before.progs name with
  | some program =>
      obtain ⟨-, rfl⟩ : program = value ∧ before = after := by
        simpa [progsIndex, run_bind_ok, entry] using run
      exact Std.Refl.refl before
  | none =>
      obtain ⟨-, rfl⟩ : none = value ∧
          { before with progs := Function.update before.progs name (some none) } = after := by
        simpa [progsIndex, run_bind_ok, entry] using run
      exact plain_of_eq rfl rfl rfl

@[simp]
theorem keeps_plain_readCtor : Keeps Plain readCtor := by
  rw [readCtor]
  repeat' first
    | with_reducible refine keeps_bind ?_ fun _ => ?_
    | split
    | simp

@[simp]
theorem keeps_plain_readPatternVars (fuel : Nat) (pat : Ref) (prevs : List (String × Binding)) :
    Keeps Plain (readPatternVars fuel pat prevs) := by
  induction fuel generalizing pat prevs with
  | zero => exact keeps_stop _
  | succ fuel hyp =>
      rw [readPatternVars]
      repeat' first
        | with_reducible refine keeps_bind ?_ fun _ => ?_
        | split
        | simp [hyp]

@[simp]
theorem keeps_plain_readPattern (fuel : Nat) : Keeps Plain (readPattern fuel) := by
  rw [readPattern]
  repeat' first
    | with_reducible refine keeps_bind ?_ fun _ => ?_
    | split
    | simp

@[simp]
theorem keeps_writes_newCase (pat body : Option Ref) : Keeps Writes (newCase pat body) := by
  cases pat with
  | none => exact keeps_pure body
  | some pat => exact keeps_bind (keeps_writes_newCExpr _ _) fun _ => keeps_pure _

section ReadCode

variable {code : CheckerM (Option Ref)} (kept : Keeps Plain code)
include kept

theorem keeps_plain_readCase (fuel : Nat) : Keeps Plain (readCase fuel code) := by
  rw [readCase]
  repeat' first
    | with_reducible refine keeps_bind ?_ fun _ => ?_
    | split
    | simp [kept]

theorem keeps_plain_readDo (fuel : Nat) (acc : Option Ref) :
    Keeps Plain (readDo code fuel acc) := by
  induction fuel generalizing acc with
  | zero => exact keeps_stop _
  | succ fuel hyp =>
      rw [readDo]
      repeat' first
        | with_reducible refine keeps_bind ?_ fun _ => ?_
        | split
        | simp [kept, hyp]

theorem keeps_plain_readCases (fuel rounds : Nat) (cases : List (Option Ref)) :
    Keeps Plain (readCases fuel code rounds cases) := by
  induction rounds generalizing cases with
  | zero => exact keeps_stop _
  | succ rounds hyp =>
      rw [readCases]
      repeat' first
        | with_reducible refine keeps_bind ?_ fun _ => ?_
        | split
        | simp [kept, hyp, keeps_plain_readCase]

theorem keeps_plain_readArgs (fuel : Nat) (acc : Ref) : Keeps Plain (readArgs code fuel acc) := by
  induction fuel generalizing acc with
  | zero => exact keeps_stop _
  | succ fuel hyp =>
      rw [readArgs]
      repeat' first
        | with_reducible refine keeps_bind ?_ fun _ => ?_
        | split
        | simp [kept, hyp]

theorem keeps_plain_readFixed (op : Op) (arity : Nat) : Keeps Plain (readFixed code op arity) := by
  rw [readFixed]
  repeat' first
    | with_reducible exact keeps_mapM (fun _ => kept) _
    | with_reducible refine keeps_bind ?_ fun _ => ?_
    | simp

theorem keeps_plain_readTilde : Keeps Plain (readTilde code) := by
  rw [readTilde]
  refine keeps_bind kept fun result => keeps_bind (keeps_tables_deref result) fun e => ?_
  refine keeps_plain_load_bind fun before node value after found run => ?_
  have tail : Keeps Plain (do
      eatToken .Close
      return some e : CheckerM (Option Ref)) :=
    keeps_bind (keeps_plain_eatToken _) fun _ => keeps_pure _
  cases node with
  | int number => exact plain_put_bind found (.int number) tail run
  | rat number => exact plain_put_bind found (.rat number) tail run
  | _ => exact (run_stop_ok.mp run).elim

theorem keeps_plain_readLet : Keeps Plain (readLet code) := by
  rw [readLet]
  repeat' first
    | with_reducible refine keeps_bind ?_ fun _ => ?_
    | simp [kept]

theorem keeps_plain_readIfMarked : Keeps Plain (readIfMarked code) := by
  rw [readIfMarked]
  repeat' first
    | with_reducible exact keeps_mapM (fun _ => kept) _
    | with_reducible refine keeps_bind ?_ fun _ => ?_
    | split
    | exact keeps_tables_liftM (keeps_writes_new (by simp))
    | simp

theorem keeps_plain_readMarkVar : Keeps Plain (readMarkVar code) := by
  rw [readMarkVar]
  repeat' first
    | with_reducible refine keeps_bind ?_ fun _ => ?_
    | split
    | exact keeps_tables_liftM (keeps_writes_new (by simp))
    | dsimp only
    | simp [kept]

theorem keeps_plain_readMatch (fuel : Nat) : Keeps Plain (readMatch fuel code) := by
  rw [readMatch]
  repeat' first
    | with_reducible refine keeps_bind ?_ fun _ => ?_
    | split
    | simp [kept, keeps_plain_readCases]

theorem keeps_plain_readApp (fuel : Nat) : Keeps Plain (readApp fuel code) := by
  rw [readApp]
  repeat' first
    | with_reducible refine keeps_bind ?_ fun _ => ?_
    | split
    | dsimp only
    | simp [kept, keeps_plain_readArgs]

end ReadCode

@[simp]
theorem keeps_plain_readCode (fuel : Nat) : Keeps Plain (readCode fuel) := by
  induction fuel with
  | zero => exact keeps_stop _
  | succ fuel hyp =>
      rw [readCode]
      repeat' first
        | with_reducible refine keeps_bind ?_ fun _ => ?_
        | split
        | exact keeps_tables_liftM (keeps_writes_new (by simp))
        | simp [hyp, keeps_plain_readDo, keeps_plain_readFixed, keeps_plain_readTilde,
            keeps_plain_readLet, keeps_plain_readIfMarked, keeps_plain_readMarkVar,
            keeps_plain_readMatch, keeps_plain_readApp]

/-! ## Type checking code -/

section CheckCode

variable {frame : Checker → Checker → Prop} [AllowsTables frame]
  {self : Ref → CheckerM (Option Ref)} (kept : ∀ r, Keeps frame (self r))

theorem keeps_tables_kindOfArgs {kind : Ref → CheckerM Ref} (keptKind : ∀ r, Keeps frame (kind r))
    (args : List Ref) (head : Ref) (prevs : List (Ref × Option Ref)) :
    Keeps frame (kindOfArgs kind args head prevs) := by
  induction args generalizing head prevs with
  | nil => exact keeps_pure _
  | cons arg rest hyp =>
      rw [kindOfArgs]
      repeat' first
        | with_reducible refine keeps_bind ?_ fun _ => ?_
        | split
        | simp [keptKind, hyp]

@[simp]
theorem keeps_tables_computeKind (fuel : Nat) (r : Ref) : Keeps frame (computeKind fuel r) := by
  induction fuel generalizing r with
  | zero => exact keeps_stop _
  | succ fuel hyp =>
      rw [computeKind]
      repeat' first
        | with_reducible refine keeps_bind ?_ fun _ => ?_
        | split
        | simp [hyp, keeps_tables_kindOfArgs]

@[simp]
theorem keeps_writes_isDatatype (r : Ref) : Keeps Writes (isDatatype r) := by
  rw [isDatatype]
  refine keeps_bind (keeps_writes_load r) fun node => ?_
  split <;> simp

@[simp]
theorem keeps_tables_followType (type : Option Ref) : Keeps frame (followType type) :=
  keeps_bind (keeps_tables_deref type) fun _ => keeps_tables_liftM (keeps_writes_follow _)

@[simp]
theorem keeps_tables_sameBranchType (first second : Option Ref) (message : String) :
    Keeps frame (sameBranchType first second message) := by
  rw [sameBranchType]
  repeat' first
    | with_reducible refine keeps_bind ?_ fun _ => ?_
    | split
    | simp

@[simp]
theorem keeps_tables_checkMarked (type : Option Ref) (message : String) :
    Keeps frame (checkMarked type message) := by
  rw [checkMarked]
  repeat' first
    | with_reducible refine keeps_bind ?_ fun _ => ?_
    | split
    | dsimp only
    | simp

@[simp]
theorem keeps_tables_checkCompared (type : Option Ref) (message : String) :
    Keeps frame (checkCompared type message) := by
  rw [checkCompared]
  repeat' first
    | with_reducible refine keeps_bind ?_ fun _ => ?_
    | split
    | simp

@[simp]
theorem keeps_tables_headType (e head : Ref) : Keeps frame (headType e head) := by
  rw [headType]
  repeat' first
    | with_reducible refine keeps_bind ?_ fun _ => ?_
    | split
    | dsimp only
    | simp

@[simp]
theorem keeps_writes_checkArgType (fuel : Nat) (argtp domain : Ref) :
    Keeps Writes (checkArgType fuel argtp domain) := by
  rw [checkArgType]
  repeat' first
    | with_reducible refine keeps_bind ?_ fun _ => ?_
    | split
    | simp

@[simp]
theorem keeps_writes_checkIndependent (fuel : Nat) (cur : Ref) :
    Keeps Writes (checkIndependent fuel cur) := by
  rw [checkIndependent]
  repeat' first
    | with_reducible refine keeps_bind ?_ fun _ => ?_
    | split
    | simp

@[simp]
theorem keeps_writes_checkCodeArgs (fuel rounds : Nat) (argtps : List (Option Ref)) (cur : Ref) :
    Keeps Writes (checkCodeArgs fuel rounds argtps cur) := by
  induction rounds generalizing argtps cur with
  | zero =>
      rw [checkCodeArgs_eq]
      refine keeps_bind (keeps_writes_getop cur) fun op => keeps_ite ?_ (by split <;> simp)
      cases argtps with
      | nil => exact keeps_stop _
      | cons argtp rest =>
          refine keeps_bind (keeps_writes_deref argtp) fun _ => keeps_bind (keeps_writes_kid _ _) ?_
          refine fun _ => keeps_bind (keeps_writes_checkArgType _ _ _) fun _ => ?_
          refine keeps_bind (keeps_writes_checkIndependent _ _) fun _ => ?_
          exact keeps_bind (keeps_writes_kid _ _) fun _ => keeps_stop _
  | succ rounds hyp =>
      rw [checkCodeArgs_eq]
      refine keeps_bind (keeps_writes_getop cur) fun op => keeps_ite ?_ (by split <;> simp)
      cases argtps with
      | nil => exact keeps_stop _
      | cons argtp rest =>
          refine keeps_bind (keeps_writes_deref argtp) fun _ => keeps_bind (keeps_writes_kid _ _) ?_
          refine fun _ => keeps_bind (keeps_writes_checkArgType _ _ _) fun _ => ?_
          refine keeps_bind (keeps_writes_checkIndependent _ _) fun _ => ?_
          exact keeps_bind (keeps_writes_kid _ _) fun range => hyp _ _

@[simp]
theorem keeps_tables_bindPattern (vars : List Ref) (cur : Ref) :
    Keeps frame (bindPattern vars cur) := by
  induction vars generalizing cur with
  | nil => exact keeps_pure _
  | cons var rest hyp =>
      rw [bindPattern]
      repeat' first
        | with_reducible refine keeps_bind ?_ fun _ => ?_
        | split
        | simp [hyp]

@[simp]
theorem keeps_tables_checkPattern (pat : Ref) : Keeps frame (checkPattern pat) := by
  rw [checkPattern]
  repeat' first
    | with_reducible refine keeps_bind ?_ fun _ => ?_
    | split
    | simp

@[simp]
theorem keeps_tables_checkProper (fuel : Nat) (type : Ref) (message : String) :
    Keeps frame (checkProper fuel type message) := by
  rw [checkProper]
  repeat' first
    | with_reducible refine keeps_bind ?_ fun _ => ?_
    | split
    | dsimp only
    | simp

include kept

theorem keeps_tables_checkCase (case : Ref) : Keeps frame (checkCase self case) := by
  rw [checkCase]
  repeat' first
    | with_reducible refine keeps_bind ?_ fun _ => ?_
    | split
    | simp [kept]

theorem keeps_tables_checkCases (fuel : Nat) (cases : List Ref) (mtp : Option Ref) :
    Keeps frame (checkCases fuel self cases mtp) := by
  induction cases generalizing mtp with
  | nil => exact keeps_pure _
  | cons case rest hyp =>
      rw [checkCases]
      repeat' first
        | with_reducible refine keeps_bind ?_ fun _ => ?_
        | split
        | simp [hyp, keeps_tables_checkCase kept]

theorem keeps_tables_checkArith (e : Ref) : Keeps frame (checkArith self e) := by
  rw [checkArith]
  repeat' first
    | with_reducible refine keeps_bind ?_ fun _ => ?_
    | split
    | dsimp only
    | simp [kept]

theorem keeps_tables_checkNumeral (e : Ref) (message : String) :
    Keeps frame (checkNumeral self e message) := by
  rw [checkNumeral]
  repeat' first
    | with_reducible refine keeps_bind ?_ fun _ => ?_
    | split
    | dsimp only
    | simp [kept]

theorem keeps_tables_checkBranches (e : Ref) (first : Nat) (message : String) :
    Keeps frame (checkBranches self e first message) := by
  rw [checkBranches]
  repeat' first
    | with_reducible refine keeps_bind ?_ fun _ => ?_
    | simp [kept]

theorem keeps_tables_checkCodeCExpr (fuel : Nat) (op : Op) (e : Ref) :
    Keeps frame (checkCodeCExpr fuel self op e) := by
  cases op <;> unfold checkCodeCExpr <;>
    simp only [checkCodeApp, checkDo, checkLet, checkMpzToMpq, checkIfNumeral, checkFail,
      checkMarkVar, checkIfMarked, checkCompare, checkIfEqual, checkMatch]
  all_goals
    repeat' first
      | with_reducible exact keeps_mapM kept _
      | with_reducible refine keeps_bind ?_ fun _ => ?_
      | split
      | simp [kept, keeps_tables_checkCases, keeps_tables_checkArith, keeps_tables_checkNumeral,
          keeps_tables_checkBranches]

omit kept in
/-- Type checking code changes the store by assignments. -/
@[simp]
theorem keeps_tables_checkCode (fuel : Nat) (e : Ref) : Keeps frame (checkCode fuel e) := by
  induction fuel generalizing e with
  | zero => exact keeps_stop _
  | succ fuel hyp =>
      rw [checkCode]
      repeat' first
        | with_reducible refine keeps_bind ?_ fun _ => ?_
        | split
        | simp [hyp, keeps_tables_checkCodeCExpr]

end CheckCode

end Lfsc
