import Lfsc.HoleAccounts

/-!
# The shape of expressions

Terms are checked by allocating objects and assigning to them.  No object changes its class, and of
the children of an expression that is no application only the first is ever replaced.  A type once
built therefore stays the same sequence of domains.
-/

namespace Lfsc

open Exec

/-! ## Shapes -/

/-- Objects keep their class, and expressions other than applications all but the first child. -/
structure KeepsShape (before after : List Node) : Prop where
  grows : before.length ≤ after.length
  op : ∀ r < before.length, opOf after r = opOf before r
  kids : ∀ r op, opOf before r = some op → op ≠ .app →
    (kidsAt after r).drop 1 = (kidsAt before r).drop 1

theorem keepsShape_refl (heap : List Node) : KeepsShape heap heap :=
  ⟨Nat.le_refl _, fun _ _ => rfl, fun _ _ _ _ => rfl⟩

theorem KeepsShape.trans {first second third : List Node} (left : KeepsShape first second)
    (right : KeepsShape second third) : KeepsShape first third where
  grows := Nat.le_trans left.grows right.grows
  op := fun r bound =>
    (right.op r (Nat.lt_of_lt_of_le bound left.grows)).trans (left.op r bound)
  kids := fun r op found other => by
    have bound : r < first.length := lt_length_of_opOf found
    have kept : opOf second r = some op := (left.op r bound).trans found
    exact (right.kids r op kept other).trans (left.kids r op found other)

theorem keepsShape_append (heap : List Node) (node : Node) : KeepsShape heap (heap ++ [node]) where
  grows := by simp
  op := fun _ bound => opOf_append bound
  kids := fun r op found _ => by
    simp [kidsAt, List.getElem?_append_left (lt_length_of_opOf found)]

theorem keepsShape_set {heap : List Node} {target : Ref} {old node : Node}
    (loaded : heap[target]? = some old) (overwrites : Overwrites old node) :
    KeepsShape heap (heap.set target node) := by
  obtain ⟨bound, -⟩ := List.getElem?_eq_some_iff.mp loaded
  refine ⟨by simp, fun r _ => ?_, fun r op found other => ?_⟩
  · by_cases same : target = r
    · subst same
      cases overwrites <;> simp only [opOf, List.getElem?_set_self bound, loaded]
    · simp [opOf, List.getElem?_set_ne same]
  · by_cases same : target = r
    · subst same
      rw [opOf, loaded] at found
      cases overwrites with
      | cexpr op' kids kids' flag flag' fixed =>
          cases found
          simpa only [kidsAt, List.getElem?_set_self bound, loaded] using fixed other
      | _ => cases found
    · simp [kidsAt, List.getElem?_set_ne same]

theorem Write.keepsShape {before after : Store} (write : Write before after) :
    KeepsShape before.heap after.heap := by
  cases write with
  | new solid => exact keepsShape_append _ _
  | put loaded overwrites => exact keepsShape_set loaded overwrites
  | ask => exact keepsShape_refl _

/-- The shapes of two states of the checker. -/
def Shaped (before after : Checker) : Prop := KeepsShape before.store.heap after.store.heap

instance : Std.Refl Shaped := ⟨fun checker => keepsShape_refl checker.store.heap⟩

instance : IsTrans Checker Shaped := ⟨fun _ _ _ => KeepsShape.trans⟩

theorem Writes.keepsShape {before after : Store} (writes : Writes before after) :
    KeepsShape before.heap after.heap := by
  induction writes with
  | refl => exact keepsShape_refl _
  | tail _ write hyp => exact hyp.trans write.keepsShape

@[simp]
theorem keeps_shaped_of_plain {α : Type} {m : CheckerM α} (kept : Keeps Plain m) :
    Keeps Shaped m := kept.mono fun _ _ plain => plain.writes.keepsShape

theorem shaped_of_eq {before after : Checker} (same : after.store = before.store) :
    Shaped before after := by
  rw [Shaped, same]
  exact keepsShape_refl _

theorem keeps_shaped_modify {f : Checker → Checker}
    (store : ∀ checker, (f checker).store = checker.store) :
    Keeps Shaped (modify f : CheckerM Unit) := by
  intro before value after run
  obtain rfl := run_modify_ok.mp run
  exact shaped_of_eq (store before)

theorem keeps_shaped_withBinding {α : Type} {name : String} {pair : Binding} {body : CheckerM α}
    (kept : Keeps Shaped body) : Keeps Shaped (withBinding name pair body) := by
  rw [withBinding]
  refine keeps_bind (by simp) fun prev => keeps_bind kept fun result => ?_
  exact keeps_bind (by simp) fun _ => keeps_pure _

/-! ## Terms -/

@[simp]
theorem keeps_shaped_checkHole (args : CheckArgs) : Keeps Shaped (checkHole args) := by
  intro before result after run
  obtain ⟨-, -, rfl⟩ := run_checkHole_ok run
  exact keepsShape_append _ _

@[simp]
theorem keeps_shaped_checkHoles (inAsc : Bool) (holes : List (Option Ref)) :
    Keeps Shaped (checkHoles inAsc holes) := by
  induction holes with
  | nil => exact keeps_pure ()
  | cons hole rest hyp =>
      rw [checkHoles]
      repeat' first
        | exact keeps_shaped_modify fun _ => rfl
        | with_reducible refine keeps_bind ?_ fun _ => ?_
        | split
        | simp [hyp]

@[simp]
theorem keeps_shaped_checkHolesTail (fuel : Nat) (domain : Ref) (holes : List (Option Ref)) :
    Keeps Shaped (checkHolesTail fuel domain holes) := by
  induction holes with
  | nil => exact keeps_pure ()
  | cons hole rest hyp =>
      rw [checkHolesTail]
      repeat' first
        | exact keeps_shaped_modify fun _ => rfl
        | with_reducible refine keeps_bind ?_ fun _ => ?_
        | split
        | simp [hyp]

@[simp]
theorem keeps_shaped_checkNumeralToken (args : CheckArgs) (type : Ref) (message : String)
    {create : CheckerM Ref} (kept : Keeps Plain create) :
    Keeps Shaped (checkNumeralToken args type message create) := by
  rw [checkNumeralToken]
  repeat' first
    | with_reducible refine keeps_bind ?_ fun _ => ?_
    | split
    | simp [kept]

@[simp]
theorem keeps_shaped_checkNatural (args : CheckArgs) : Keeps Shaped (checkNatural args) := by
  refine keeps_shaped_checkNumeralToken _ _ _ ?_
  repeat' first
    | exact keeps_tables_onStore (keeps_writes_new (by simp))
    | with_reducible refine keeps_bind ?_ fun _ => ?_
    | split
    | simp

@[simp]
theorem keeps_shaped_checkRational (args : CheckArgs) : Keeps Shaped (checkRational args) := by
  refine keeps_shaped_checkNumeralToken _ _ _ ?_
  repeat' first
    | with_reducible refine keeps_bind ?_ fun _ => ?_
    | split
    | simp

@[simp]
theorem keeps_shaped_checkIdent (fuel : Nat) (args : CheckArgs) :
    Keeps Shaped (checkIdent fuel args) := by
  rw [checkIdent]
  repeat' first
    | with_reducible refine keeps_bind ?_ fun _ => ?_
    | split
    | simp

section Terms

variable {check : CheckArgs → CheckerM Checked} (kept : ∀ args, Keeps Shaped (check args))

include kept

theorem keeps_shaped_checkDomain : Keeps Shaped (checkDomain check) := by
  rw [checkDomain]
  repeat' first
    | with_reducible refine keeps_bind ?_ fun _ => ?_
    | simp [kept]

theorem keeps_shaped_checkBang (fuel : Nat) (args : CheckArgs) :
    Keeps Shaped (checkBang fuel check args) := by
  rw [checkBang, checkBangRange]
  repeat' first
    | exact keeps_shaped_checkDomain kept
    | with_reducible refine keeps_bind ?_ fun _ => ?_
    | with_reducible refine keeps_shaped_withBinding ?_
    | split
    | simp [kept]

theorem keeps_shaped_checkDeclListItem : Keeps Shaped (checkDeclListItem check) := by
  rw [checkDeclListItem]
  repeat' first
    | with_reducible refine keeps_bind ?_ fun _ => ?_
    | split
    | simp [kept]

theorem keeps_shaped_checkDeclItems (create : Bool) (rounds : Nat) (acc : DeclList) :
    Keeps Shaped (checkDeclItems create check rounds acc) := by
  induction rounds generalizing acc with
  | zero => exact keeps_stop _
  | succ rounds hyp =>
      rw [checkDeclItems]
      repeat' first
        | exact keeps_shaped_checkDeclListItem kept
        | with_reducible refine keeps_bind ?_ fun _ => ?_
        | split
        | simp [hyp]

theorem keeps_shaped_checkDeclList (fuel : Nat) (create : Bool) :
    Keeps Shaped (checkDeclList fuel create check) :=
  keeps_bind (by simp) fun _ => keeps_shaped_checkDeclItems kept create fuel _

theorem keeps_shaped_checkArrow (fuel : Nat) (args : CheckArgs) :
    Keeps Shaped (checkArrow fuel check args) := by
  rw [checkArrow]
  repeat' first
    | exact keeps_shaped_checkDeclList kept _ _
    | with_reducible refine keeps_bind ?_ fun _ => ?_
    | split
    | simp [kept]

theorem keeps_shaped_checkPound (fuel : Nat) (args : CheckArgs) :
    Keeps Shaped (checkPound fuel check args) := by
  rw [checkPound]
  repeat' first
    | exact keeps_shaped_checkDomain kept
    | with_reducible refine keeps_bind ?_ fun _ => ?_
    | with_reducible refine keeps_shaped_withBinding ?_
    | split
    | simp [kept]

theorem keeps_shaped_checkPercent (args : CheckArgs) : Keeps Shaped (checkPercent check args) := by
  rw [checkPercent]
  repeat' first
    | with_reducible refine keeps_bind ?_ fun _ => ?_
    | split
    | simp [kept]

theorem keeps_shaped_checkLambda (args : CheckArgs) : Keeps Shaped (checkLambda check args) := by
  rw [checkLambda]
  repeat' first
    | with_reducible refine keeps_bind ?_ fun _ => ?_
    | split
    | simp [kept]

theorem keeps_shaped_checkCaret (fuel : Nat) (args : CheckArgs) :
    Keeps Shaped (checkCaret fuel check args) := by
  rw [checkCaret]
  repeat' first
    | with_reducible refine keeps_bind ?_ fun _ => ?_
    | split
    | simp [kept]

theorem keeps_shaped_checkColon (fuel : Nat) (args : CheckArgs) :
    Keeps Shaped (checkColon fuel check args) := by
  rw [checkColon]
  repeat' first
    | with_reducible refine keeps_bind ?_ fun _ => ?_
    | split
    | simp [kept]

theorem keeps_shaped_checkAt (fuel : Nat) (args : CheckArgs) :
    Keeps Shaped (checkAt fuel check args) := by
  rw [checkAt]
  repeat' first
    | with_reducible refine keeps_bind ?_ fun _ => ?_
    | split
    | simp [kept]

omit kept in
/-- The sign of a numeral, which is changed in place. -/
theorem keeps_shaped_negate (literal : Ref) (e : Checked) :
    Keeps Shaped (do
      match ← load literal with
      | .int value =>
          put literal (.int (-value))
          return e
      | .rat value =>
          put literal (.rat (-value))
          return e
      | _ => report "Negative sign with expr that is not an int. literal." : CheckerM Checked) := by
  refine keeps_shaped_of_plain (keeps_plain_load_bind fun before node value after found run => ?_)
  cases node with
  | int value => exact plain_put_bind found (.int value) (keeps_tables_pure e) run
  | rat value => exact plain_put_bind found (.rat value) (keeps_tables_pure e) run
  | _ => exact (run_stop_ok.mp run).elim

theorem keeps_shaped_checkTilde (args : CheckArgs) : Keeps Shaped (checkTilde check args) := by
  rw [checkTilde]
  repeat' first
    | exact keeps_shaped_negate _ _
    | with_reducible refine keeps_bind ?_ fun _ => ?_
    | split
    | simp [kept]

/-! ## Applications -/

theorem keeps_shaped_checkTailArg (fuel : Nat) (args : CheckArgs) (domain range : Ref)
    (holes : List (Option Ref)) :
    Keeps Shaped (checkTailArg fuel check args domain range holes) := by
  rw [checkTailArg]
  repeat' first
    | with_reducible refine keeps_bind ?_ fun _ => ?_
    | split
    | simp [kept]

omit kept in
@[simp]
theorem keeps_shaped_checkAppEnd (fuel : Nat) (args : CheckArgs) (headtrm : Option Ref)
    (headtp : Ref) (holes : List (Option Ref)) :
    Keeps Shaped (checkAppEnd fuel args headtrm headtp holes) := by
  rw [checkAppEnd]
  repeat' first
    | with_reducible refine keeps_bind ?_ fun _ => ?_
    | split
    | simp

theorem keeps_shaped_checkArg (args : CheckArgs) (prevo : Int) (headtp domain : Ref)
    (headtrm : Option Ref) (holes : List (Option Ref)) :
    Keeps Shaped (checkArg check args prevo headtp domain headtrm holes) := by
  rw [checkArg]
  repeat' first
    | with_reducible refine keeps_bind ?_ fun _ => ?_
    | split
    | simp [kept]

theorem keeps_shaped_checkAppArgs (fuel : Nat) (args : CheckArgs) (prevo : Int) (rounds : Nat)
    (headtrm : Option Ref) (headtp : Ref) (holes : List (Option Ref)) :
    Keeps Shaped (checkAppArgs fuel check args prevo rounds headtrm headtp holes) := by
  induction rounds generalizing headtrm headtp holes with
  | zero => exact keeps_stop _
  | succ rounds hyp =>
      rw [checkAppArgs]
      repeat' first
        | with_reducible exact hyp _ _ _
        | with_reducible exact keeps_shaped_checkTailArg kept _ _ _ _ _
        | with_reducible exact keeps_shaped_checkArg kept _ _ _ _ _ _
        | with_reducible refine keeps_bind ?_ fun _ => ?_
        | split
        | simp

theorem keeps_shaped_checkApp (fuel : Nat) (args : CheckArgs) (c : Token) :
    Keeps Shaped (checkApp fuel check args c) := by
  rw [checkApp]
  repeat' first
    | exact keeps_shaped_checkAppArgs kept _ _ _ _ _ _ _
    | with_reducible refine keeps_bind ?_ fun _ => ?_
    | split
    | simp [kept]

theorem keeps_shaped_checkOpen (fuel : Nat) (args : CheckArgs) :
    Keeps Shaped (checkOpen fuel check args) := by
  rw [checkOpen]
  refine keeps_bind (by simp) fun _ => keeps_bind (by simp) fun token => ?_
  split
  · exact keeps_stop _
  · exact keeps_shaped_checkBang kept fuel args
  · exact keeps_shaped_checkArrow kept fuel args
  · exact keeps_shaped_checkPound kept fuel args
  · exact keeps_shaped_checkPercent kept args
  · exact keeps_shaped_checkLambda kept args
  · exact keeps_shaped_checkCaret kept fuel args
  · exact keeps_shaped_checkColon kept fuel args
  · exact keeps_shaped_checkAt kept fuel args
  · exact keeps_shaped_checkTilde kept args
  · exact keeps_shaped_checkApp kept fuel args _

end Terms

/-- Checking a term keeps the shape of every expression. -/
theorem keeps_shaped_check (fuel : Nat) (args : CheckArgs) : Keeps Shaped (check fuel args) := by
  induction fuel generalizing args with
  | zero => exact keeps_stop _
  | succ fuel hyp =>
      rw [check]
      refine keeps_bind (by simp) fun token => ?_
      split
      · exact keeps_shaped_checkOpen hyp fuel args
      · exact keeps_stop _
      · exact keeps_shaped_checkHole args
      · exact keeps_shaped_checkNatural args
      · exact keeps_shaped_checkRational args
      · exact keeps_shaped_checkIdent fuel args

end Lfsc
