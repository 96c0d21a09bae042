import Lfsc.Exec.Guarded
import Lfsc.RunWrites

/-!
# Side conditions that fill holes

The comparison of an `ifequal` is the one that checking uses to fill holes, and it keeps what it has
filled where the operands turn out to differ.  A comparison that stops at an unfilled hole tells
exactly in which runs no hole is filled.
-/

namespace Lfsc

open Exec

/-! ## Rigid comparison -/

/-- The first switch of `Expr::defeq`, stopped where it would fill a hole. -/
def rigidLeft (fuel : Nat) (self : Ref → Ref → StoreM Bool) (this e : Ref) :
    StoreM (Option Bool) := do
  match ← load this with
  | .cexpr .ascribe _ _ => return some (← self (← kid this 0) e)
  | .cexpr .app _ _ =>
      let reduct ← whr fuel this
      if reduct ≠ this then return some (← self reduct e)
      else
        match ← load (← getHead this true) with
        | .hole _ =>
            let (_, args) ← collectArgs this true
            if args = [] then Exec.stop .abort
            else return some false
        | _ => return none
  | .hole (some val) => return some (← self val e)
  | .hole none => Exec.stop .abort
  | .sym _ (some val) => return some (← self val e)
  | _ => return none

/-- The second switch of `Expr::defeq`, stopped where it would fill a hole. -/
def rigidRight (fuel : Nat) (self : Ref → Ref → StoreM Bool) (this e : Ref) :
    StoreM (Option Bool) := do
  match ← load e with
  | .cexpr .ascribe _ _ => return some (← self this (← kid e 0))
  | .cexpr .app _ _ =>
      let reduct ← whr fuel e
      if reduct ≠ e then return some (← self this reduct) else return none
  | .hole (some val) => return some (← self this val)
  | .hole none => Exec.stop .abort
  | .sym _ (some val) => return some (← self this val)
  | _ => return none

/-- `Expr::defeq`, stopped where it comes to an unfilled hole. -/
def rigidDefeq : Nat → Ref → Ref → StoreM Bool
  | 0, _, _ => outOfFuel
  | fuel + 1, this, e => do
      if this = e then return true
      match ← rigidLeft fuel (rigidDefeq fuel) this e with
      | some decided => return decided
      | none =>
          match ← rigidRight fuel (rigidDefeq fuel) this e with
          | some decided => return decided
          | none =>
              if (← getop this) ≠ (← getop e) then return false
              else defeqSame (rigidDefeq fuel) this e

/-! ## Guarded comparison -/

instance : Steady Writes KeepsHoles where
  split {first middle last} before after kept := by
    constructor
    · intro r val found
      cases val with
      | none => exact after.unfilled (kept r none found)
      | some val => exact before.filled found
    · intro r val found
      cases val with
      | none => exact kept r none (before.unfilled found)
      | some val => exact after.filled found

/-- A computation is guarded by one that stops where it would fill a hole. -/
abbrev Guards {α : Type} (m guarded : StoreM α) : Prop := Guarded Writes KeepsHoles m guarded

theorem guards_self {α : Type} {m : StoreM α} (kept : FillsNoHole m) : Guards m m :=
  guarded_self (kept Writes) (kept KeepsHoles)

theorem breaks_setHoleVal {hole value : Ref} {result : Unit} {before after : Store}
    (unfilled : valOf before.heap hole = none)
    (run : (setHoleVal hole value).run before = .ok (result, after)) :
      ¬ KeepsHoles before after := by
  rw [setHoleVal] at run
  obtain ⟨_, node, read, rest⟩ := run_bind_ok.mp run
  obtain ⟨found, rfl⟩ := run_load_ok.mp read
  cases node with
  | hole old =>
      obtain rfl : old = none := by simpa [valOf, found] using unfilled
      obtain rfl := run_put_ok.mp rest
      intro kept
      have still := kept hole none found
      simp [List.getElem?_set_self (List.getElem?_eq_some_iff.mp found).1] at still
  | _ => exact (run_stop_ok.mp rest).elim

/-- Filling an unfilled hole is what is guarded against. -/
theorem guardedAt_setHoleVal {α : Type} {hole value : Ref} {answer : α} {before : Store}
    (unfilled : valOf before.heap hole = none) :
    GuardedAt Writes KeepsHoles (do
      setHoleVal hole value
      return answer) (Exec.stop .abort) before := by
  refine guardedAt_broken (fun result after run => ?_) fun result after run => ?_
  all_goals
    obtain ⟨middle, _, fill, done⟩ := run_bind_ok.mp run
    obtain ⟨-, rfl⟩ := run_pure_ok.mp done
  · exact writes_setHoleVal unfilled fill
  · exact breaks_setHoleVal unfilled fill

theorem guardedAt_fillHole {α : Type} {hole value : Ref} {answer : α} {before : Store}
    (found : before.heap[hole]? = some (.hole none)) :
    GuardedAt Writes KeepsHoles (do
      fillHole hole value
      return answer) (Exec.stop .abort) before := by
  have unfilled : valOf before.heap hole = none := by simp [valOf, found]
  refine guardedAt_broken (fun result after run => ?_) fun result after run => ?_
  all_goals
    obtain ⟨middle, _, fill, done⟩ := run_bind_ok.mp run
    obtain ⟨-, rfl⟩ := run_pure_ok.mp done
  · exact writes_fillHole unfilled fill
  · obtain ⟨_, last, follow, fill⟩ := run_bind_ok.mp fill
    obtain ⟨-, rfl⟩ := run_follow_ok.mp follow
    exact breaks_setHoleVal unfilled fill

section Comparison

variable {self self' : Ref → Ref → StoreM Bool}
  (guards : ∀ left right, Guards (self left right) (self' left right))

include guards

theorem guards_defeqLeft (fuel : Nat) (this e : Ref) :
    Guards (defeqLeft fuel self this e) (rigidLeft fuel self' this e) := by
  have decided : ∀ left, Guards (do return some (← self left e))
    (do return some (← self' left e)) :=
    fun left => guarded_bind (guards left e) fun _ => guarded_pure _
  intro before
  rw [defeqLeft, rigidLeft]
  refine guardedAt_bind (guards_self (fun _ _ => by simp) before) fun node middle run => ?_
  obtain ⟨found, rfl⟩ := run_load_ok.mp run
  cases node with
  | int value => exact guarded_pure none _
  | rat value => exact guarded_pure none _
  | sym name val =>
      cases val with
      | none => exact guarded_pure none _
      | some val => exact decided val _
  | hole val =>
      cases val with
      | none => exact guardedAt_fillHole found
      | some val => exact decided val _
  | cexpr op kids flag =>
      cases op with
      | ascribe => exact guarded_bind (guards_self fun _ _ => by simp) decided _
      | app =>
          refine guarded_bind (guards_self fun _ _ => by simp) (fun reduct => ?_) _
          intro before
          split
          · exact decided reduct _
          · refine guardedAt_bind (guards_self (fun _ _ => by simp) before) fun head middle _ => ?_
            refine guardedAt_bind (guards_self (fun _ _ => by simp) middle) fun node last _ => ?_
            cases node with
            | hole val =>
                refine guardedAt_bind (guards_self (fun _ _ => by simp) last)
                  fun collected final collect => ?_
                obtain ⟨head, args⟩ := collected
                obtain ⟨unfilled, rfl⟩ := run_collectArgs_followed collect
                simp only
                split
                · exact guardedAt_setHoleVal unfilled
                · exact guarded_pure (some false) _
            | _ => exact guarded_pure none _
      | _ => exact guarded_pure none _

theorem guards_defeqRight (fuel : Nat) (this e : Ref) :
    Guards (defeqRight fuel self this e) (rigidRight fuel self' this e) := by
  have decided : ∀ right,
      Guards (do return some (← self this right)) (do return some (← self' this right)) :=
    fun right => guarded_bind (guards this right) fun _ => guarded_pure _
  intro before
  rw [defeqRight, rigidRight]
  refine guardedAt_bind (guards_self (fun _ _ => by simp) before) fun node middle run => ?_
  obtain ⟨found, rfl⟩ := run_load_ok.mp run
  cases node with
  | int value => exact guarded_pure none _
  | rat value => exact guarded_pure none _
  | sym name val =>
      cases val with
      | none => exact guarded_pure none _
      | some val => exact decided val _
  | hole val =>
      cases val with
      | none => exact guardedAt_fillHole found
      | some val => exact decided val _
  | cexpr op kids flag =>
      cases op with
      | ascribe => exact guarded_bind (guards_self fun _ _ => by simp) decided _
      | app =>
          refine guarded_bind (guards_self fun _ _ => by simp) (fun reduct => ?_) _
          split
          · exact decided reduct
          · exact guarded_pure none
      | _ => exact guarded_pure none _

theorem guards_defeqUnder (this e : Ref) (last : Nat) :
    Guards (defeqUnder self this e last) (defeqUnder self' this e last) := by
  rw [defeqUnder, defeqUnder]
  refine guarded_bind (guards_self fun _ _ => by simp) fun var => ?_
  refine guarded_bind (guards_self fun _ _ => by simp) fun prev => ?_
  refine guarded_bind (guards_self fun _ _ => by simp) fun other => ?_
  refine guarded_bind (guards_self fun _ _ => by simp) fun value => ?_
  refine guarded_bind (guards_self fun _ _ => by simp) fun _ => ?_
  refine guarded_bind (guards_self fun _ _ => by simp) fun left => ?_
  refine guarded_bind (guards_self fun _ _ => by simp) fun right => ?_
  refine guarded_bind (guards left right) fun equal => ?_
  exact guarded_bind (guards_self fun _ _ => by simp) fun _ => guarded_pure equal

theorem guardedAt_defeqKids {this e : Ref} {remaining counter : Nat} {before : Store}
    (left : opOf before.heap this = some .app) (right : opOf before.heap e = some .app) :
    GuardedAt Writes KeepsHoles (defeqKids self this e remaining counter)
      (defeqKids self' this e remaining counter) before := by
  induction remaining generalizing counter before with
  | zero => exact guards_self (fun _ _ => keeps_bind (by simp) fun _ => keeps_pure _) before
  | succ remaining hyp =>
      rw [defeqKids, defeqKids]
      refine guardedAt_bind (guards_self (fun _ _ => by simp) before) fun leftKid middle run => ?_
      obtain ⟨-, rfl⟩ := run_kid_ok.mp run
      refine guardedAt_bind (guards_self (fun _ _ => by simp) before) fun found middle run => ?_
      obtain ⟨-, rfl⟩ := run_kid?_ok.mp run
      cases found with
      | none => exact guarded_pure false _
      | some rightKid =>
          simp only
          split
          · exact hyp left right
          · have first := guards leftKid rightKid before
            refine guardedAt_bind first fun same compared run => ?_
            have written := first.framed _ _ run
            cases same with
            | false => exact guarded_pure false _
            | true =>
                have shared : GuardedAt Writes KeepsHoles (shareKid this e counter)
                    (shareKid this e counter) compared :=
                  ⟨fun _ _ run => writes_shareKid (written.opOf left) (written.opOf right) run,
                    fun _ _ run _ => run, fun _ _ run =>
                      ⟨run, writes_shareKid (written.opOf left) (written.opOf right) run⟩⟩
                refine guardedAt_bind shared fun _ final run => ?_
                have assigned := shared.framed _ _ run
                exact hyp (assigned.opOf (written.opOf left)) (assigned.opOf (written.opOf right))

theorem guardedAt_defeqSame {this e : Ref} {before : Store}
    (same : opOf before.heap this = opOf before.heap e) :
    GuardedAt Writes KeepsHoles (defeqSame self this e) (defeqSame self' this e) before := by
  rw [defeqSame, defeqSame]
  refine guardedAt_bind (guards_self (fun _ _ => by simp) before) fun op middle run => ?_
  obtain ⟨-, found, rfl⟩ := run_getop_ok.mp run
  cases op with
  | none => exact guards_self (fun _ _ => by simp) before
  | some op =>
      cases op with
      | pi =>
          refine guarded_bind (guards_self fun _ _ => by simp) (fun left => ?_) before
          refine guarded_bind (guards_self fun _ _ => by simp) fun right => ?_
          refine guarded_bind (guards left right) fun equal => ?_
          cases equal with
          | false => exact guarded_pure false
          | true => exact guards_defeqUnder guards this e 2
      | lam => exact guards_defeqUnder guards this e 1 before
      | app =>
          refine guardedAt_bind (guards_self (fun _ _ => by simp) before) fun heap middle run => ?_
          obtain ⟨rfl, rfl⟩ := run_getHeap_ok.mp run
          exact guardedAt_defeqKids guards found (same ▸ found)
      | type => exact guarded_pure true before
      | kind => exact guarded_pure true before
      | mpz => exact guarded_pure true before
      | _ => exact guarded_stop Stop.abort before

end Comparison

/-- The rigid comparison stops exactly where a comparison would fill a hole. -/
theorem guards_defeq (fuel : Nat) (this e : Ref) :
    Guards (defeq fuel this e) (rigidDefeq fuel this e) := by
  induction fuel generalizing this e with
  | zero => exact guarded_stop Stop.fuel
  | succ fuel hyp =>
      rw [defeq, rigidDefeq]
      split
      · exact guarded_pure true
      · refine guarded_bind (guards_defeqLeft hyp fuel this e) fun first => ?_
        cases first with
        | some decided => exact guarded_pure decided
        | none =>
            refine guarded_bind (guards_defeqRight hyp fuel this e) fun second => ?_
            cases second with
            | some decided => exact guarded_pure decided
            | none =>
                intro before
                simp only
                refine guardedAt_bind (guards_self (fun _ _ => by simp) before)
                  fun left middle run => ?_
                obtain ⟨-, leftOp, rfl⟩ := run_getop_ok.mp run
                refine guardedAt_bind (guards_self (fun _ _ => by simp) before)
                  fun right middle run => ?_
                obtain ⟨-, rightOp, rfl⟩ := run_getop_ok.mp run
                split
                · exact guarded_pure false _
                · rename_i same
                  exact guardedAt_defeqSame hyp (by rw [leftOp, rightOp]; exact not_not.mp same)

/-! ## Runs -/

/-- `run_code`, stopped where the comparison of an `ifequal` comes to an unfilled hole. -/
def rigidRunCode (fuel : Nat) (e : Ref) : RunM (Option Ref) := do
  modify fun runtime => { runtime with cache := [] }
  runCodeWith rigidDefeq fuel e false

/-- Every hole in the store of the evaluator has the value that it had. -/
def RunKeepsHoles (before after : Runtime) : Prop := KeepsHoles before.store after.store

instance : Std.Refl RunKeepsHoles := ⟨fun runtime => Std.Refl.refl runtime.store⟩

instance : IsTrans Runtime RunKeepsHoles :=
  ⟨fun _ _ _ left right => IsTrans.trans (r := KeepsHoles) _ _ _ left right⟩

instance : Steady RunWrites RunKeepsHoles where
  split {first middle last} before after kept := by
    have written : Writes first.store middle.store := before
    have written' : Writes middle.store last.store := after
    have both : KeepsHoles first.store middle.store ∧ KeepsHoles middle.store last.store :=
      Steady.split written written' kept
    exact both

theorem guarded_lift {α : Type} {m guarded : StoreM α} (guards : Guards m guarded) :
    Guarded RunWrites RunKeepsHoles (liftM m : RunM α) (liftM guarded) :=
  guarded_zoom (fun _ _ => rfl) guards

/-- A step that leaves the store alone guards itself. -/
theorem guarded_of_same {α : Type} {m : RunM α}
    (same : Keeps (fun before after => before.store = after.store) m) :
    Guarded RunWrites RunKeepsHoles m m := by
  refine guarded_self (same.mono fun before after same => ?_)
    (same.mono fun before after same => ?_)
  · rw [RunWrites, same]
    exact Std.Refl.refl after.store
  · rw [RunKeepsHoles, same]
    exact Std.Refl.refl after.store

theorem keeps_store_modify {f : Runtime → Runtime}
    (same : ∀ runtime, (f runtime).store = runtime.store) :
    Keeps (fun before after => before.store = after.store) (modify f : RunM Unit) := by
  intro before value after run
  obtain rfl := run_modify_ok.mp run
  exact (same before).symm

theorem keeps_store_read {α : Type} (f : Runtime → α) :
    Keeps (fun before after => before.store = after.store) (do return f (← get) : RunM α) := by
  intro before value after run
  obtain ⟨-, rfl⟩ : f before = value ∧ before = after := by simpa [run_bind_ok] using run
  rfl

/-- Being guarded is a congruence. -/
theorem congruence_guarded : CallCongruence (Guarded RunWrites RunKeepsHoles) where
  pure := guarded_pure
  stop := guarded_stop
  bind := guarded_bind
  lift kept := guarded_lift (guards_self kept)
  getMark _ _ := guarded_of_same (keeps_store_read _)
  toggleMark _ _ := guarded_of_same (keeps_store_modify fun _ => rfl)
  noteEvent _ := guarded_of_same (keeps_store_modify fun _ => rfl)
  cached _ := guarded_of_same (keeps_store_read _)
  cacheResult _ _ := guarded_of_same (keeps_store_modify fun _ => rfl)
  isFunction _ := guarded_of_same (keeps_store_read _)

theorem guarded_runCode (fuel : Nat) (e : Ref) :
    Guarded RunWrites RunKeepsHoles (runCode fuel e) (rigidRunCode fuel e) := by
  refine guarded_bind (guarded_of_same (keeps_store_modify fun _ => rfl)) fun _ => ?_
  exact related_runCodeWith congruence_guarded.functions rigidDefeq
    (fun fuel left right => guarded_lift (guards_defeq fuel left right)) fuel e false

/-- The run of some code in which no comparison of an `ifequal` comes to an unfilled hole. -/
def RunsRigidly (fuel : Nat) (e : Ref) (before : Runtime) : Prop :=
  ∃ final, (rigidRunCode fuel e).run before = .ok final

/-- An `ifequal` on a variable that stands for `f a b` and one that stands for `f _ c`, or `f a
c`. -/
def comparing (second : Ref) : Runtime :=
  { store := {
      heap := [.sym "f" none, .sym "a" none, .sym "b" none, .sym "c" none, .hole none,
        .cexpr .app [0, 1, 2] false, .cexpr .app [0, second, 3] false, .sym "p" (some 5),
        .sym "q" (some 6), .cexpr .ifequal [7, 8, 1, 2] false]
      before := fun _ _ => false
      fewer := fun _ => false
      asked := 0 }
    marks := fun _ _ => false
    progFunctions := []
    cache := []
    events := [] }

end Lfsc
