import Lfsc.Check
import Lfsc.RunCongruence
import Lfsc.Exec.Refines

/-!
# Recursion depth

The functions of the model take a bound on their recursion depth, which the source does not have.  A
run that returns is also the run of every larger bound, so the bound does not matter to results.
-/

namespace Lfsc

open Exec

variable {fuel more : Nat}

/-! ## Expressions -/

theorem extends_outOfFuel {σ α : Type} {m : Exec σ Stop α} :
    Extends (outOfFuel : Exec σ Stop α) m := extends_stop

theorem extends_cloneUnder {self self' : Ref → StoreM Ref} (wider : ∀ r, Extends (self r) (self' r))
    (var newvar body : Ref) :
    Extends (cloneUnder self var newvar body) (cloneUnder self' var newvar body) := by
  unfold cloneUnder
  refine extends_bind (extends_refl _) fun prev => extends_bind (extends_refl _) fun _ => ?_
  exact extends_bind (wider body) fun _ => extends_refl _

theorem extends_clone (le : fuel ≤ more) (r : Ref) : Extends (clone fuel r) (clone more r) := by
  induction fuel generalizing more r with
  | zero => exact extends_outOfFuel
  | succ fuel hyp =>
      obtain ⟨more, rfl⟩ := Nat.exists_eq_add_of_le' (Nat.le_trans (Nat.le_add_left 1 fuel) le)
      have wider : ∀ r, Extends (clone fuel r) (clone more r) := hyp (Nat.le_of_succ_le_succ le)
      unfold clone
      refine extends_bind (extends_refl _) fun node => ?_
      have copied : ∀ (op : Op) (kids : List Ref), Extends
          (do let copies ← kids.mapM (clone fuel)
              if copies ≠ kids then new (.cexpr op copies false) else return r)
          (do let copies ← kids.mapM (clone more)
              if copies ≠ kids then new (.cexpr op copies false) else return r) :=
        fun op kids => extends_bind (extends_mapM wider kids) fun _ => extends_refl _
      cases node with
      | int | rat => exact extends_refl _
      | hole val =>
          cases val with
          | none => exact extends_refl _
          | some val => exact wider val
      | sym name val =>
          cases val with
          | none => exact extends_refl _
          | some val =>
              exact extends_bind (extends_refl _) fun _ => extends_ite (wider val) (extends_refl _)
      | cexpr op kids flag =>
          cases op with
          | lam => repeat' first
              | with_reducible exact extends_refl _
              | exact extends_cloneUnder wider _ _ _
              | refine extends_bind ?_ fun _ => ?_
          | pi => repeat' first
              | with_reducible exact extends_refl _
              | exact wider _
              | exact extends_cloneUnder wider _ _ _
              | refine extends_bind ?_ fun _ => ?_
          | _ => with_reducible exact copied _ kids

theorem extends_whr (le : fuel ≤ more) (r : Ref) : Extends (whr fuel r) (whr more r) := by
  unfold whr
  repeat' first
    | with_reducible exact extends_refl _
    | exact extends_clone le _
    | refine extends_bind ?_ fun _ => ?_
    | refine extends_ite ?_ ?_

theorem extends_defeqLeft (le : fuel ≤ more) {self self' : Ref → Ref → StoreM Bool}
    (wider : ∀ this e, Extends (self this e) (self' this e)) (this e : Ref) :
    Extends (defeqLeft fuel self this e) (defeqLeft more self' this e) := by
  unfold defeqLeft
  refine extends_bind (extends_refl _) fun node => ?_
  cases node with
  | int | rat => exact extends_refl _
  | hole val =>
      cases val with
      | none => exact extends_refl _
      | some val => exact extends_bind (wider val e) fun _ => extends_refl _
  | sym name val =>
      cases val with
      | none => exact extends_refl _
      | some val => exact extends_bind (wider val e) fun _ => extends_refl _
  | cexpr op kids flag =>
      cases op with
      | ascribe =>
          exact extends_bind (extends_refl _) fun kid =>
            extends_bind (wider kid e) fun _ => extends_refl _
      | app =>
          refine extends_bind (extends_whr le this) fun reduct => ?_
          exact extends_ite (extends_bind (wider reduct e) fun _ => extends_refl _) (extends_refl _)
      | _ => exact extends_refl _

theorem extends_defeqRight (le : fuel ≤ more) {self self' : Ref → Ref → StoreM Bool}
    (wider : ∀ this e, Extends (self this e) (self' this e)) (this e : Ref) :
    Extends (defeqRight fuel self this e) (defeqRight more self' this e) := by
  unfold defeqRight
  refine extends_bind (extends_refl _) fun node => ?_
  cases node with
  | int | rat => exact extends_refl _
  | hole val =>
      cases val with
      | none => exact extends_refl _
      | some val => exact extends_bind (wider this val) fun _ => extends_refl _
  | sym name val =>
      cases val with
      | none => exact extends_refl _
      | some val => exact extends_bind (wider this val) fun _ => extends_refl _
  | cexpr op kids flag =>
      cases op with
      | ascribe =>
          exact extends_bind (extends_refl _) fun kid =>
            extends_bind (wider this kid) fun _ => extends_refl _
      | app =>
          refine extends_bind (extends_whr le e) fun reduct => ?_
          exact extends_ite (extends_bind (wider this reduct) fun _ => extends_refl _)
            (extends_refl _)
      | _ => exact extends_refl _

theorem extends_defeqUnder {self self' : Ref → Ref → StoreM Bool}
    (wider : ∀ this e, Extends (self this e) (self' this e)) (this e : Ref) (last : Nat) :
    Extends (defeqUnder self this e last) (defeqUnder self' this e last) := by
  unfold defeqUnder
  repeat' first
    | with_reducible exact extends_refl _
    | with_reducible exact wider _ _
    | with_reducible refine extends_bind ?_ fun _ => ?_

theorem extends_defeqKids {self self' : Ref → Ref → StoreM Bool}
    (wider : ∀ this e, Extends (self this e) (self' this e)) (this e : Ref)
    (remaining counter : Nat) :
    Extends (defeqKids self this e remaining counter)
      (defeqKids self' this e remaining counter) := by
  induction remaining generalizing counter with
  | zero => exact extends_refl _
  | succ remaining hyp =>
      unfold defeqKids
      refine extends_bind (extends_refl _) fun left => ?_
      refine extends_bind (extends_refl _) fun right => ?_
      cases right with
      | none => exact extends_refl _
      | some right =>
          refine extends_ite (hyp _) (extends_bind (wider left right) fun equal => ?_)
          exact extends_ite (extends_bind (extends_refl _) fun _ => hyp _) (extends_refl _)

theorem extends_defeqSame {self self' : Ref → Ref → StoreM Bool}
    (wider : ∀ this e, Extends (self this e) (self' this e)) (this e : Ref) :
    Extends (defeqSame self this e) (defeqSame self' this e) := by
  unfold defeqSame
  refine extends_bind (extends_refl _) fun op => ?_
  cases op with
  | none => exact extends_refl _
  | some op =>
      cases op with
      | pi =>
          refine extends_bind (extends_refl _) fun left => ?_
          refine extends_bind (extends_refl _) fun right => ?_
          refine extends_bind (wider left right) fun equal => ?_
          exact extends_ite (extends_defeqUnder wider this e 2) (extends_refl _)
      | lam => exact extends_defeqUnder wider this e 1
      | app =>
          exact extends_bind (extends_refl _) fun heap => extends_defeqKids wider this e _ 0
      | _ => exact extends_refl _

theorem extends_defeq (le : fuel ≤ more) (this e : Ref) :
    Extends (defeq fuel this e) (defeq more this e) := by
  induction fuel generalizing more this e with
  | zero => exact extends_outOfFuel
  | succ fuel hyp =>
      obtain ⟨more, rfl⟩ := Nat.exists_eq_add_of_le' (Nat.le_trans (Nat.le_add_left 1 fuel) le)
      have le := Nat.le_of_succ_le_succ le
      have wider : ∀ this e, Extends (defeq fuel this e) (defeq more this e) := hyp le
      unfold defeq
      refine extends_ite (extends_refl _) ?_
      refine extends_bind (extends_defeqLeft le wider this e) fun decided => ?_
      cases decided with
      | some decided => exact extends_refl _
      | none =>
          refine extends_bind (extends_defeqRight le wider this e) fun decided => ?_
          cases decided with
          | some decided => exact extends_refl _
          | none =>
              refine extends_bind (extends_refl _) fun left => ?_
              refine extends_bind (extends_refl _) fun right => ?_
              exact extends_ite (extends_refl _) (extends_defeqSame wider this e)

theorem extends_anyFreeIn {self self' : Ref → List Ref → StoreM (Bool × List Ref)}
    (wider : ∀ r visited, Extends (self r visited) (self' r visited)) (kids visited : List Ref) :
    Extends (anyFreeIn self kids visited) (anyFreeIn self' kids visited) := by
  induction kids generalizing visited with
  | nil => exact extends_refl _
  | cons kid rest hyp =>
      exact extends_bind (wider kid visited) fun _ => extends_ite (extends_refl _) (hyp _)

theorem extends_freeInFrom (le : fuel ≤ more) (x r : Ref) (visited : List Ref) :
    Extends (freeInFrom x fuel r visited) (freeInFrom x more r visited) := by
  induction fuel generalizing more r visited with
  | zero => exact extends_outOfFuel
  | succ fuel hyp =>
      obtain ⟨more, rfl⟩ := Nat.exists_eq_add_of_le' (Nat.le_trans (Nat.le_add_left 1 fuel) le)
      have wider : ∀ r visited, Extends (freeInFrom x fuel r visited)
        (freeInFrom x more r visited) := hyp (Nat.le_of_succ_le_succ le)
      unfold freeInFrom
      refine extends_ite (extends_refl _) (extends_bind (extends_refl _) fun node => ?_)
      cases node with
      | int | rat => exact extends_refl _
      | hole val =>
          cases val with
          | none => exact extends_refl _
          | some val => exact wider val visited
      | sym name val =>
          cases val with
          | none => exact extends_refl _
          | some val =>
              refine extends_bind (extends_refl _) fun value => ?_
              cases value with
              | hole inner => exact wider val visited
              | _ => exact extends_refl _
      | cexpr op kids flag =>
          exact extends_ite (extends_refl _) (extends_anyFreeIn wider kids (r :: visited))

theorem extends_freeIn (le : fuel ≤ more) (r x : Ref) :
    Extends (freeIn fuel r x) (freeIn more r x) :=
  extends_bind (extends_freeInFrom le x r []) fun _ => extends_refl _

theorem extends_calcFreeIn (le : fuel ≤ more) (r : Ref) :
    Extends (calcFreeIn fuel r) (calcFreeIn more r) := by
  unfold calcFreeIn
  repeat' first
    | with_reducible exact extends_refl _
    | with_reducible exact extends_freeIn le _ _
    | with_reducible refine extends_bind ?_ fun _ => ?_

/-! ## Side-condition code -/

theorem extends_liftStore {α : Type} {m m' : StoreM α} (inner : Extends m m') :
    Extends (liftM m : RunM α) (liftM m' : RunM α) := extends_zoom inner

theorem extends_reduceScrutinee (le : fuel ≤ more) (value : Ref) :
    Extends (reduceScrutinee fuel value) (reduceScrutinee more value) := by
  unfold reduceScrutinee
  refine extends_bind (extends_refl _) fun node => ?_
  cases node with
  | cexpr op kids flag => exact extends_whr le value
  | _ => exact extends_refl _

/-- Having at most the runs of another computation is a congruence. -/
theorem congruence_extends : CallCongruence Extends where
  pure _ := extends_refl _
  stop _ := extends_refl _
  bind := extends_bind
  lift _ := extends_refl _
  getMark _ _ := extends_refl _
  toggleMark _ _ := extends_refl _
  noteEvent _ := extends_refl _
  cached _ := extends_refl _
  cacheResult _ _ := extends_refl _
  isFunction _ := extends_refl _

theorem extends_runCodeInternal (le : fuel ≤ more) (e : Ref) (useCache : Bool) :
    Extends (runCodeInternal fuel e useCache) (runCodeInternal more e useCache) := by
  induction fuel generalizing more e useCache with
  | zero => exact extends_outOfFuel
  | succ fuel hyp =>
      obtain ⟨more, rfl⟩ := Nat.exists_eq_add_of_le' (Nat.le_trans (Nat.le_add_left 1 fuel) le)
      have le := Nat.le_of_succ_le_succ le
      unfold runCodeInternal
      refine extends_bind (extends_refl _) fun node => ?_
      cases node with
      | cexpr op kids flag =>
          have step := related_runCExpr congruence_extends.functions (fun e useCache => hyp le e useCache)
            (fun value => extends_liftStore (extends_reduceScrutinee le value))
            (fun left right => extends_liftStore (extends_defeq le left right)) useCache op e
          rwa [runCExprWith_defeq] at step
      | _ => exact extends_refl _

theorem extends_runCode (le : fuel ≤ more) (e : Ref) : Extends (runCode fuel e) (runCode more e) :=
  extends_bind (extends_refl _) fun _ => extends_runCodeInternal le e false

/-! ## Reading code -/

theorem extends_onStore {α : Type} {m m' : StoreM α} (inner : Extends m m') :
    Extends (onStore m) (onStore m') := extends_zoom (extends_zoom inner)

theorem extends_liftChecker {α : Type} {m m' : StoreM α} (inner : Extends m m') :
    Extends (liftM m : CheckerM α) (liftM m' : CheckerM α) := extends_onStore inner

theorem extends_readPatternVars (le : fuel ≤ more) (pat : Ref) (prevs : List (String × Binding)) :
    Extends (readPatternVars fuel pat prevs) (readPatternVars more pat prevs) := by
  induction fuel generalizing more pat prevs with
  | zero => exact extends_outOfFuel
  | succ fuel hyp =>
      obtain ⟨more, rfl⟩ := Nat.exists_eq_add_of_le' (Nat.le_trans (Nat.le_add_left 1 fuel) le)
      unfold readPatternVars
      repeat' first
        | with_reducible exact extends_refl _
        | with_reducible exact hyp (Nat.le_of_succ_le_succ le) _ _
        | with_reducible refine extends_bind ?_ fun _ => ?_
        | with_reducible refine extends_ite ?_ ?_

theorem extends_readPattern (le : fuel ≤ more) : Extends (readPattern fuel) (readPattern more) := by
  refine extends_bind (extends_refl _) fun token => ?_
  cases token with
  | Open =>
      refine extends_bind (extends_refl _) fun ctor => ?_
      cases ctor with
      | none => exact extends_refl _
      | some ctor => exact extends_bind (extends_readPatternVars le ctor []) fun _ => extends_refl _
  | _ => exact extends_refl _

section Reading

variable {readCode readCode' : CheckerM (Option Ref)} (wider : Extends readCode readCode')

include wider

theorem extends_readCase (le : fuel ≤ more) :
    Extends (readCase fuel readCode) (readCase more readCode') :=
  extends_bind (extends_refl _) fun _ => extends_bind (extends_readPattern le) fun _ =>
    extends_bind wider fun _ => extends_refl _

theorem extends_readDo (le : fuel ≤ more) (acc : Option Ref) :
    Extends (readDo readCode fuel acc) (readDo readCode' more acc) := by
  induction fuel generalizing more acc with
  | zero => exact extends_outOfFuel
  | succ fuel hyp =>
      obtain ⟨more, rfl⟩ := Nat.exists_eq_add_of_le' (Nat.le_trans (Nat.le_add_left 1 fuel) le)
      unfold readDo
      repeat' first
        | with_reducible exact extends_refl _
        | with_reducible exact wider
        | with_reducible exact hyp (Nat.le_of_succ_le_succ le) _
        | with_reducible refine extends_bind ?_ fun _ => ?_
        | with_reducible refine extends_ite ?_ ?_

theorem extends_readCases (le : fuel ≤ more) {rounds rounds' : Nat} (le' : rounds ≤ rounds')
    (cases : List (Option Ref)) :
    Extends (readCases fuel readCode rounds cases) (readCases more readCode' rounds' cases) := by
  induction rounds generalizing rounds' cases with
  | zero => exact extends_outOfFuel
  | succ rounds hyp =>
      obtain ⟨rounds', rfl⟩ := Nat.exists_eq_add_of_le'
        (Nat.le_trans (Nat.le_add_left 1 rounds) le')
      unfold readCases
      repeat' first
        | with_reducible exact extends_refl _
        | with_reducible exact extends_readCase wider le
        | with_reducible exact hyp (Nat.le_of_succ_le_succ le') _
        | with_reducible refine extends_bind ?_ fun _ => ?_
        | with_reducible refine extends_ite ?_ ?_

theorem extends_readArgs (le : fuel ≤ more) (acc : Ref) :
    Extends (readArgs readCode fuel acc) (readArgs readCode' more acc) := by
  induction fuel generalizing more acc with
  | zero => exact extends_outOfFuel
  | succ fuel hyp =>
      obtain ⟨more, rfl⟩ := Nat.exists_eq_add_of_le' (Nat.le_trans (Nat.le_add_left 1 fuel) le)
      unfold readArgs
      repeat' first
        | with_reducible exact extends_refl _
        | with_reducible exact wider
        | with_reducible exact hyp (Nat.le_of_succ_le_succ le) _
        | with_reducible refine extends_bind ?_ fun _ => ?_
        | with_reducible refine extends_ite ?_ ?_

theorem extends_readFixed (op : Op) (arity : Nat) :
    Extends (readFixed readCode op arity) (readFixed readCode' op arity) :=
  extends_bind (extends_mapM (fun _ => wider) _) fun _ => extends_refl _

theorem extends_readTilde : Extends (readTilde readCode) (readTilde readCode') :=
  extends_bind wider fun _ => extends_refl _

theorem extends_readLet : Extends (readLet readCode) (readLet readCode') := by
  unfold readLet withBinding
  repeat' first
    | with_reducible exact extends_refl _
    | with_reducible exact wider
    | with_reducible refine extends_bind ?_ fun _ => ?_

theorem extends_readIfMarked : Extends (readIfMarked readCode) (readIfMarked readCode') :=
  extends_bind (extends_refl _) fun _ => extends_bind (extends_mapM (fun _ => wider) _) fun _ =>
    extends_refl _

theorem extends_readMarkVar : Extends (readMarkVar readCode) (readMarkVar readCode') := by
  unfold readMarkVar
  repeat' first
    | with_reducible exact extends_refl _
    | with_reducible exact wider
    | with_reducible refine extends_bind ?_ fun _ => ?_
    | with_reducible refine extends_ite ?_ ?_

theorem extends_readMatch (le : fuel ≤ more) :
    Extends (readMatch fuel readCode) (readMatch more readCode') :=
  extends_bind wider fun _ => extends_bind (extends_readCases wider le le _) fun _ => extends_refl _

/-- The arguments of an application, once its head is looked up. -/
theorem extends_applied (le : fuel ≤ more) (head : Option Ref) :
    Extends
      (match head with
        | none => report "Undeclared identifier at head of an application: "
        | some head => do return some (← readArgs readCode fuel head))
      (match head with
        | none => report "Undeclared identifier at head of an application: "
        | some head => do return some (← readArgs readCode' more head)) := by
  cases head with
  | none => exact extends_refl _
  | some head => exact extends_bind (extends_readArgs wider le head) fun _ => extends_refl _

theorem extends_readApp (le : fuel ≤ more) :
    Extends (readApp fuel readCode) (readApp more readCode') := by
  refine extends_bind (extends_refl _) fun pref => extends_bind (extends_refl _) fun prog => ?_
  have applied := extends_applied wider le
  cases prog with
  | some prog => exact extends_bind (extends_refl _) applied
  | none => exact extends_bind (extends_refl _) fun _ => extends_bind (extends_refl _) applied

end Reading

theorem extends_readCode (le : fuel ≤ more) : Extends (readCode fuel) (readCode more) := by
  induction fuel generalizing more with
  | zero => exact extends_outOfFuel
  | succ fuel hyp =>
      obtain ⟨more, rfl⟩ := Nat.exists_eq_add_of_le' (Nat.le_trans (Nat.le_add_left 1 fuel) le)
      have le := Nat.le_of_succ_le_succ le
      have wider : Extends (readCode fuel) (readCode more) := hyp le
      unfold readCode
      refine extends_bind (extends_refl _) fun token => ?_
      cases token with
      | Open =>
          refine extends_bind (extends_refl _) fun token => ?_
          cases token with
          | Do => exact extends_bind wider fun _ => extends_readDo wider le _
          | Fail => exact extends_readFixed wider _ _
          | At => exact extends_readLet wider
          | IfMarked => exact extends_readIfMarked wider
          | IfEqual => exact extends_readFixed wider _ _
          | Match => exact extends_readMatch wider le
          | MarkVar => exact extends_readMarkVar wider
          | MpAdd | MpMul | MpDiv | MpNeg | MpzToMpq | MpIfNeg | MpIfZero | Compare =>
              exact extends_readFixed wider _ _
          | Tilde => exact extends_readTilde wider
          | Eof => exact extends_refl _
          | _ => exact extends_readApp wider le
      | _ => exact extends_refl _

/-! ## Types of code -/

section Kinds

variable {self self' : Ref → CheckerM Ref} (wider : ∀ r, Extends (self r) (self' r))

include wider

theorem extends_kindOfArgs (args : List Ref) (head : Ref) (prevs : List (Ref × Option Ref)) :
    Extends (kindOfArgs self args head prevs) (kindOfArgs self' args head prevs) := by
  induction args generalizing head prevs with
  | nil => exact extends_refl _
  | cons arg rest hyp =>
      unfold kindOfArgs
      repeat' first
        | with_reducible exact extends_refl _
        | with_reducible exact wider _
        | with_reducible exact hyp _ _
        | with_reducible refine extends_bind ?_ fun _ => ?_
        | with_reducible refine extends_ite ?_ ?_

end Kinds

theorem extends_computeKind (le : fuel ≤ more) (r : Ref) :
    Extends (computeKind fuel r) (computeKind more r) := by
  induction fuel generalizing more r with
  | zero => exact extends_outOfFuel
  | succ fuel hyp =>
      obtain ⟨more, rfl⟩ := Nat.exists_eq_add_of_le' (Nat.le_trans (Nat.le_add_left 1 fuel) le)
      have wider : ∀ r, Extends (computeKind fuel r) (computeKind more r) :=
        hyp (Nat.le_of_succ_le_succ le)
      unfold computeKind
      refine extends_bind (extends_refl _) fun e => extends_bind (extends_refl _) fun node => ?_
      cases node with
      | cexpr op kids flag =>
          cases op with
          | app =>
              refine extends_bind (extends_refl _) fun head => extends_bind (wider head) fun _ => ?_
              exact extends_bind (extends_kindOfArgs wider _ _ _) fun _ => extends_refl _
          | _ => exact extends_refl _
      | _ => exact extends_refl _

theorem extends_checkArgType (le : fuel ≤ more) (argtp domain : Ref) :
    Extends (checkArgType fuel argtp domain) (checkArgType more argtp domain) := by
  unfold checkArgType
  repeat' first
    | with_reducible exact extends_refl _
    | with_reducible exact extends_defeq le _ _
    | with_reducible refine extends_bind ?_ fun _ => ?_
    | with_reducible refine extends_ite ?_ ?_

theorem extends_checkIndependent (le : fuel ≤ more) (cur : Ref) :
    Extends (checkIndependent fuel cur) (checkIndependent more cur) := by
  unfold checkIndependent
  repeat' first
    | with_reducible exact extends_refl _
    | with_reducible exact extends_calcFreeIn le _
    | with_reducible refine extends_bind ?_ fun _ => ?_
    | with_reducible refine extends_ite ?_ ?_

theorem extends_checkCodeArgs (le : fuel ≤ more) {rounds rounds' : Nat} (le' : rounds ≤ rounds')
    (argtps : List (Option Ref)) (cur : Ref) :
    Extends (checkCodeArgs fuel rounds argtps cur) (checkCodeArgs more rounds' argtps cur) := by
  induction rounds generalizing rounds' argtps cur with
  | zero =>
      rw [checkCodeArgs_eq, checkCodeArgs_eq]
      refine extends_bind (extends_refl _) fun op => extends_ite ?_ (extends_refl _)
      cases argtps with
      | nil => exact extends_refl _
      | cons argtp rest =>
          refine extends_bind (extends_refl _) fun type =>
            extends_bind (extends_refl _) fun domain => ?_
          refine extends_bind (extends_checkArgType le type domain) fun _ => ?_
          refine extends_bind (extends_checkIndependent le cur) fun _ => ?_
          exact extends_bind (extends_refl _) fun range => extends_outOfFuel
  | succ rounds hyp =>
      obtain ⟨rounds', rfl⟩ := Nat.exists_eq_add_of_le'
        (Nat.le_trans (Nat.le_add_left 1 rounds) le')
      rw [checkCodeArgs_eq, checkCodeArgs_eq]
      refine extends_bind (extends_refl _) fun op => extends_ite ?_ (extends_refl _)
      cases argtps with
      | nil => exact extends_refl _
      | cons argtp rest =>
          refine extends_bind (extends_refl _) fun type =>
            extends_bind (extends_refl _) fun domain => ?_
          refine extends_bind (extends_checkArgType le type domain) fun _ => ?_
          refine extends_bind (extends_checkIndependent le cur) fun _ => ?_
          exact extends_bind (extends_refl _) fun range =>
            hyp (Nat.le_of_succ_le_succ le') rest range

theorem extends_checkProper (le : fuel ≤ more) (type : Ref) (message : String) :
    Extends (checkProper fuel type message) (checkProper more type message) :=
  extends_bind (extends_computeKind le type) fun _ => extends_refl _

section Typing

variable {self self' : Ref → CheckerM (Option Ref)} (wider : ∀ e, Extends (self e) (self' e))

include wider

theorem extends_checkCase (case : Ref) : Extends (checkCase self case) (checkCase self' case) := by
  unfold checkCase
  refine extends_bind (extends_refl _) fun op => extends_ite (wider case) ?_
  refine extends_bind (extends_refl _) fun pat => extends_bind (extends_refl _) fun node => ?_
  have bound : Extends
      (do let prevs ← checkPattern pat
          let type ← self (← kid case 1)
          restoreBindings prevs
          return type)
      (do let prevs ← checkPattern pat
          let type ← self' (← kid case 1)
          restoreBindings prevs
          return type) :=
    extends_bind (extends_refl _) fun _ => extends_bind (extends_refl _) fun body =>
      extends_bind (wider body) fun _ => extends_refl _
  cases node with
  | sym name val => exact extends_bind (extends_refl _) fun body => wider body
  | _ => exact bound

theorem extends_checkCases (le : fuel ≤ more) (cases : List Ref) (mtp : Option Ref) :
    Extends (checkCases fuel self cases mtp) (checkCases more self' cases mtp) := by
  induction cases generalizing mtp with
  | nil => exact extends_refl _
  | cons case rest hyp =>
      refine extends_bind (extends_checkCase wider case) fun type => ?_
      cases mtp with
      | none => exact hyp type
      | some mtp =>
          refine extends_bind (extends_refl _) fun type => ?_
          refine extends_bind (extends_onStore (extends_defeq le mtp type)) fun equal => ?_
          exact extends_ite (extends_bind (extends_refl _) fun _ => hyp _) (hyp _)

theorem extends_checkArith (e : Ref) : Extends (checkArith self e) (checkArith self' e) := by
  unfold checkArith
  repeat' first
    | with_reducible exact extends_refl _
    | with_reducible exact wider _
    | with_reducible refine extends_bind ?_ fun _ => ?_

theorem extends_checkNumeral (e : Ref) (message : String) :
    Extends (checkNumeral self e message) (checkNumeral self' e message) := by
  unfold checkNumeral
  repeat' first
    | with_reducible exact extends_refl _
    | with_reducible exact wider _
    | with_reducible refine extends_bind ?_ fun _ => ?_

theorem extends_checkCodeApp (le : fuel ≤ more) (e : Ref) :
    Extends (checkCodeApp fuel self e) (checkCodeApp more self' e) := by
  refine extends_bind (extends_refl _) fun kid => extends_bind (extends_refl _) fun head => ?_
  refine extends_bind (extends_refl _) fun heap => extends_bind (extends_mapM wider _) fun types =>
    ?_
  refine extends_bind (extends_refl _) fun type => ?_
  exact extends_bind (extends_onStore (extends_checkCodeArgs le le types type)) fun _ =>
    extends_refl _

theorem extends_checkDo (e : Ref) : Extends (checkDo self e) (checkDo self' e) :=
  extends_bind (extends_refl _) fun first => extends_bind (wider first) fun _ =>
    extends_bind (extends_refl _) fun second => wider second

theorem extends_checkLet (e : Ref) : Extends (checkLet self e) (checkLet self' e) := by
  unfold checkLet withBinding
  repeat' first
    | with_reducible exact extends_refl _
    | with_reducible exact wider _
    | with_reducible refine extends_bind ?_ fun _ => ?_

theorem extends_checkMpzToMpq (e : Ref) :
    Extends (checkMpzToMpq self e) (checkMpzToMpq self' e) :=
  extends_bind (extends_refl _) fun operand => extends_bind (wider operand) fun _ => extends_refl _

theorem extends_checkBranches (e : Ref) (first : Nat) (message : String) :
    Extends (checkBranches self e first message) (checkBranches self' e first message) :=
  extends_bind (extends_refl _) fun yes => extends_bind (wider yes) fun _ =>
    extends_bind (extends_refl _) fun no => extends_bind (wider no) fun _ => extends_refl _

theorem extends_checkIfNumeral (e : Ref) :
    Extends (checkIfNumeral self e) (checkIfNumeral self' e) :=
  extends_bind (extends_checkNumeral wider e _) fun _ => extends_checkBranches wider e 1 _

theorem extends_checkFail (e : Ref) : Extends (checkFail self e) (checkFail self' e) :=
  extends_bind (extends_refl _) fun operand => extends_bind (wider operand) fun _ => extends_refl _

theorem extends_checkMarkVar (e : Ref) : Extends (checkMarkVar self e) (checkMarkVar self' e) :=
  extends_bind (extends_refl _) fun operand => extends_bind (wider operand) fun _ => extends_refl _

theorem extends_checkIfMarked (e : Ref) : Extends (checkIfMarked self e) (checkIfMarked self' e) :=
  extends_bind (extends_refl _) fun operand => extends_bind (wider operand) fun _ =>
    extends_bind (extends_refl _) fun _ => extends_checkBranches wider e 2 _

theorem extends_checkCompare (e : Ref) : Extends (checkCompare self e) (checkCompare self' e) :=
  extends_bind (extends_refl _) fun left => extends_bind (wider left) fun _ =>
    extends_bind (extends_refl _) fun _ => extends_bind (extends_refl _) fun right =>
      extends_bind (wider right) fun _ => extends_bind (extends_refl _) fun _ =>
        extends_checkBranches wider e 2 _

theorem extends_checkIfEqual (e : Ref) : Extends (checkIfEqual self e) (checkIfEqual self' e) := by
  unfold checkIfEqual
  repeat' first
    | with_reducible exact extends_refl _
    | with_reducible exact wider _
    | with_reducible exact extends_checkBranches wider _ _ _
    | with_reducible refine extends_bind ?_ fun _ => ?_
    | with_reducible refine extends_ite ?_ ?_

theorem extends_checkMatch (le : fuel ≤ more) (e : Ref) :
    Extends (checkMatch fuel self e) (checkMatch more self' e) := by
  refine extends_bind (extends_refl _) fun scrutinee => extends_bind (wider scrutinee) fun _ => ?_
  refine extends_bind (extends_refl _) fun type => ?_
  refine extends_bind (extends_checkProper le type _) fun _ => ?_
  exact extends_bind (extends_refl _) fun _ => extends_checkCases wider le _ _

theorem extends_checkCodeCExpr (le : fuel ≤ more) (op : Op) (e : Ref) :
    Extends (checkCodeCExpr fuel self op e) (checkCodeCExpr more self' op e) := by
  cases op with
  | app => exact extends_checkCodeApp wider le e
  | do_ => exact extends_checkDo wider e
  | let_ => exact extends_checkLet wider e
  | add | mul | div => exact extends_checkArith wider e
  | neg => exact extends_map some (extends_checkNumeral wider e _)
  | mpzToMpq => exact extends_checkMpzToMpq wider e
  | ifneg | ifzero => exact extends_checkIfNumeral wider e
  | fail => exact extends_checkFail wider e
  | markvar => exact extends_checkMarkVar wider e
  | ifmarked => exact extends_checkIfMarked wider e
  | compare => exact extends_checkCompare wider e
  | ifequal => exact extends_checkIfEqual wider e
  | match_ => exact extends_checkMatch wider le e
  | _ => exact extends_refl _

end Typing

theorem extends_checkCode (le : fuel ≤ more) (e : Ref) :
    Extends (checkCode fuel e) (checkCode more e) := by
  induction fuel generalizing more e with
  | zero => exact extends_outOfFuel
  | succ fuel hyp =>
      obtain ⟨more, rfl⟩ := Nat.exists_eq_add_of_le' (Nat.le_trans (Nat.le_add_left 1 fuel) le)
      have le := Nat.le_of_succ_le_succ le
      unfold checkCode
      refine extends_bind (extends_refl _) fun node => ?_
      cases node with
      | cexpr op kids flag => exact extends_checkCodeCExpr (fun e => hyp le e) le op e
      | _ => exact extends_refl _

/-! ## Checking -/

theorem extends_withBinding {α : Type} {body body' : CheckerM α} (name : String) (pair : Binding)
    (wider : Extends body body') :
    Extends (withBinding name pair body) (withBinding name pair body') :=
  extends_bind (extends_refl _) fun _ => extends_bind wider fun _ => extends_refl _

theorem extends_bindSymbol (le : fuel ≤ more) (symbol e : Ref) :
    Extends (bindSymbol fuel symbol e) (bindSymbol more symbol e) := by
  unfold bindSymbol
  refine extends_bind (extends_refl _) fun op => ?_
  repeat' first
    | with_reducible exact extends_refl _
    | with_reducible exact extends_whr le _
    | with_reducible refine extends_ite ?_ ?_
    | with_reducible refine extends_bind ?_ fun _ => ?_

theorem extends_insertAndBindSymbol (le : fuel ≤ more) (name : String) (symbol e : Ref)
    (type : Option Ref) :
    Extends (insertAndBindSymbol fuel name symbol e type)
      (insertAndBindSymbol more name symbol e type) :=
  extends_bind (extends_onStore (extends_bindSymbol le symbol e)) fun _ => extends_refl _

theorem extends_newPi (le : fuel ≤ more) (symbol domain range : Option Ref) :
    Extends (newPi fuel symbol domain range) (newPi more symbol domain range) :=
  extends_bind (extends_refl _) fun pi => extends_bind (extends_calcFreeIn le pi) fun _ =>
    extends_refl _

theorem extends_buildPis (le : fuel ≤ more) (decls : List (Ref × Option Ref)) (ret : Option Ref) :
    Extends (buildPis fuel decls ret) (buildPis more decls ret) := by
  induction decls generalizing ret with
  | nil => exact extends_refl _
  | cons decl earlier hyp => exact extends_bind (extends_newPi le _ _ _) fun _ => hyp _

theorem extends_buildValidatePi (le : fuel ≤ more) (decls : List (Ref × Option Ref))
    (ret : Option Ref) (retKind : Ref) (create : Bool) :
    Extends (buildValidatePi fuel decls ret retKind create)
      (buildValidatePi more decls ret retKind create) := by
  unfold buildValidatePi
  repeat' first
    | with_reducible exact extends_refl _
    | with_reducible exact extends_buildPis le _ _
    | with_reducible refine extends_ite ?_ ?_
    | with_reducible refine extends_bind ?_ fun _ => ?_

theorem extends_runPremise (le : fuel ≤ more) (code expected : Ref) :
    Extends (runPremise fuel code expected) (runPremise more code expected) := by
  refine extends_bind (extends_runCode le code) fun computed => ?_
  cases computed with
  | none => exact extends_refl _
  | some computed =>
      exact extends_bind (extends_liftStore (extends_defeq le expected computed)) fun _ =>
        extends_refl _

theorem extends_checkHolesTail (le : fuel ≤ more) (domain : Ref) (holes : List (Option Ref)) :
    Extends (checkHolesTail fuel domain holes) (checkHolesTail more domain holes) := by
  induction holes with
  | nil => exact extends_refl _
  | cons hole rest hyp =>
      refine extends_bind (extends_refl _) fun hole => extends_bind (extends_refl _) fun node => ?_
      cases node with
      | hole val =>
          cases val with
          | some val => exact hyp
          | none =>
              refine extends_bind (extends_onStore (extends_freeIn le domain hole)) fun occurs => ?_
              repeat' first
                | with_reducible exact extends_refl _
                | with_reducible exact hyp
                | with_reducible refine extends_ite ?_ ?_
                | with_reducible refine extends_bind ?_ fun _ => ?_
      | _ => exact hyp

theorem extends_annotatedRange (le : fuel ≤ more) (domain expected : Option Ref) :
    Extends (annotatedRange fuel domain expected) (annotatedRange more domain expected) := by
  cases expected with
  | none => exact extends_refl _
  | some expected =>
      unfold annotatedRange
      repeat' first
        | with_reducible exact extends_refl _
        | with_reducible exact extends_liftChecker (extends_defeq le _ _)
        | with_reducible refine extends_ite ?_ ?_
        | with_reducible refine extends_bind ?_ fun _ => ?_

section Checking

variable {check check' : CheckArgs → CheckerM Checked}
  (wider : ∀ args, Extends (check args) (check' args))

include wider

theorem extends_checkDomain : Extends (checkDomain check) (checkDomain check') := by
  unfold checkDomain
  repeat' first
    | with_reducible exact extends_refl _
    | with_reducible exact wider _
    | with_reducible refine extends_bind ?_ fun _ => ?_

theorem extends_checkBangRange (args : CheckArgs) :
    Extends (checkBangRange check args) (checkBangRange check' args) := by
  unfold checkBangRange
  repeat' first
    | with_reducible exact extends_refl _
    | with_reducible exact wider _
    | with_reducible exact extends_checkDomain wider
    | with_reducible refine extends_withBinding _ _ ?_
    | with_reducible refine extends_bind ?_ fun _ => ?_

theorem extends_checkBang (le : fuel ≤ more) (args : CheckArgs) :
    Extends (checkBang fuel check args) (checkBang more check' args) := by
  refine extends_bind (extends_checkBangRange wider args) fun formed => ?_
  cases args.expected with
  | none =>
      refine extends_ite ?_ (extends_refl _)
      exact extends_bind (extends_onStore (extends_newPi le _ _ _)) fun _ => extends_refl _
  | some expected =>
      refine extends_bind (extends_refl _) fun sort => extends_ite (extends_refl _) ?_
      refine extends_ite ?_ (extends_refl _)
      exact extends_bind (extends_onStore (extends_newPi le _ _ _)) fun _ => extends_refl _

theorem extends_checkDeclListItem :
    Extends (checkDeclListItem check) (checkDeclListItem check') := by
  unfold checkDeclListItem
  repeat' first
    | with_reducible exact extends_refl _
    | with_reducible exact wider _
    | with_reducible refine extends_ite ?_ ?_
    | with_reducible refine extends_bind ?_ fun _ => ?_

theorem extends_checkDeclItems (create : Bool) (le : fuel ≤ more) (acc : DeclList) :
    Extends (checkDeclItems create check fuel acc) (checkDeclItems create check' more acc) := by
  induction fuel generalizing more acc with
  | zero => exact extends_outOfFuel
  | succ fuel hyp =>
      obtain ⟨more, rfl⟩ := Nat.exists_eq_add_of_le' (Nat.le_trans (Nat.le_add_left 1 fuel) le)
      unfold checkDeclItems
      repeat' first
        | with_reducible exact extends_refl _
        | with_reducible exact extends_checkDeclListItem wider
        | with_reducible exact hyp (Nat.le_of_succ_le_succ le) _
        | with_reducible refine extends_ite ?_ ?_
        | with_reducible refine extends_bind ?_ fun _ => ?_

theorem extends_checkDeclList (le : fuel ≤ more) (create : Bool) :
    Extends (checkDeclList fuel create check) (checkDeclList more create check') :=
  extends_bind (extends_refl _) fun _ => extends_checkDeclItems wider create le _

theorem extends_checkArrow (le : fuel ≤ more) (args : CheckArgs) :
    Extends (checkArrow fuel check args) (checkArrow more check' args) := by
  refine extends_bind (extends_checkDeclList wider le args.create) fun decls => ?_
  refine extends_bind (wider _) fun ret => extends_bind (extends_refl _) fun _ => ?_
  refine extends_bind (extends_refl _) fun _ => extends_bind (extends_refl _) fun kind => ?_
  exact extends_bind (extends_onStore (extends_buildValidatePi le _ _ _ _)) fun _ => extends_refl _

theorem extends_checkPound (le : fuel ≤ more) (args : CheckArgs) :
    Extends (checkPound fuel check args) (checkPound more check' args) := by
  refine extends_bind (extends_refl _) fun id => extends_bind (extends_refl _) fun sym => ?_
  refine extends_bind (extends_refl _) fun prevo => ?_
  refine extends_bind (extends_checkDomain wider) fun domain => ?_
  refine extends_bind (extends_withBinding _ _ ?_) fun _ => extends_refl _
  refine extends_bind (extends_annotatedRange le domain args.expected) fun expected => ?_
  refine extends_bind (wider _) fun range => extends_bind (extends_refl _) fun _ => ?_
  refine extends_bind (extends_refl _) fun _ => ?_
  exact extends_bind (extends_onStore (extends_newPi le _ _ _)) fun _ => extends_refl _

theorem extends_checkPercent (args : CheckArgs) :
    Extends (checkPercent check args) (checkPercent check' args) := by
  unfold checkPercent
  refine extends_bind (extends_refl _) fun checker => ?_
  repeat' first
    | with_reducible exact extends_refl _
    | with_reducible exact wider _
    | with_reducible refine extends_ite ?_ ?_
    | with_reducible refine extends_bind ?_ fun _ => ?_

theorem extends_checkLambda (args : CheckArgs) :
    Extends (checkLambda check args) (checkLambda check' args) := by
  unfold checkLambda
  repeat' first
    | with_reducible exact extends_refl _
    | with_reducible exact wider _
    | with_reducible refine extends_ite ?_ ?_
    | with_reducible refine extends_bind ?_ fun _ => ?_

theorem extends_checkCaret (le : fuel ≤ more) (args : CheckArgs) :
    Extends (checkCaret fuel check args) (checkCaret more check' args) := by
  unfold checkCaret
  cases args.expected with
  | none => exact extends_refl _
  | some expected =>
      repeat' first
        | with_reducible exact extends_refl _
        | with_reducible exact wider _
        | with_reducible exact extends_readCode le
        | with_reducible exact extends_checkCode le _
        | with_reducible refine extends_ite ?_ ?_
        | with_reducible refine extends_bind ?_ fun _ => ?_

theorem extends_checkColon (le : fuel ≤ more) (args : CheckArgs) :
    Extends (checkColon fuel check args) (checkColon more check' args) := by
  refine extends_bind (extends_refl _) fun prevo => extends_bind (wider _) fun type => ?_
  refine extends_bind (extends_refl _) fun _ => extends_bind (extends_refl _) fun type => ?_
  refine extends_bind (wider _) fun trm => extends_bind (extends_refl _) fun _ => ?_
  refine extends_bind (extends_refl _) fun _ => ?_
  cases args.expected with
  | none => exact extends_refl _
  | some expected =>
      exact extends_bind (extends_onStore (extends_defeq le expected type)) fun _ => extends_refl _

theorem extends_checkAt (le : fuel ≤ more) (args : CheckArgs) :
    Extends (checkAt fuel check args) (checkAt more check' args) := by
  unfold checkAt
  repeat' first
    | with_reducible exact extends_refl _
    | with_reducible exact wider _
    | with_reducible exact extends_insertAndBindSymbol le _ _ _ _
    | with_reducible refine extends_ite ?_ ?_
    | with_reducible refine extends_bind ?_ fun _ => ?_

theorem extends_checkTilde (args : CheckArgs) :
    Extends (checkTilde check args) (checkTilde check' args) :=
  extends_bind (extends_refl _) fun _ => extends_bind (wider _) fun _ => extends_refl _

theorem extends_checkTailArg (le : fuel ≤ more) (args : CheckArgs) (domain range : Ref)
    (holes : List (Option Ref)) :
    Extends (checkTailArg fuel check args domain range holes)
      (checkTailArg more check' args domain range holes) := by
  have entered : ∀ computed : Option Ref, Extends
      (do checkHolesTail fuel domain holes
          let arg ← check { args with
            create := false, expected := some domain, computed := false, isHole := false }
          return { arg with computed })
      (do checkHolesTail more domain holes
          let arg ← check' { args with
            create := false, expected := some domain, computed := false, isHole := false }
          return { arg with computed }) := fun computed =>
    extends_bind (extends_checkHolesTail le domain holes) fun _ => extends_bind (wider _) fun _ =>
      extends_refl _
  unfold checkTailArg
  cases args.expected with
  | none => exact extends_bind (extends_refl _) entered
  | some expected =>
      refine extends_bind (extends_onStore (extends_defeq le expected range)) fun equal => ?_
      exact extends_ite (extends_bind (extends_refl _) fun _ =>
        extends_bind (extends_refl _) entered)
        (extends_bind (extends_refl _) entered)

theorem extends_checkArg (args : CheckArgs) (prevo : Int) (headtp domain : Ref)
    (headtrm : Option Ref) (holes : List (Option Ref)) :
    Extends (checkArg check args prevo headtp domain headtrm holes)
      (checkArg check' args prevo headtp domain headtrm holes) := by
  unfold checkArg
  repeat' first
    | with_reducible exact extends_refl _
    | with_reducible exact wider _
    | with_reducible refine extends_bind ?_ fun _ => ?_

end Checking

/-- The end of an application, once its type is known. -/
theorem extends_ended (le : fuel ≤ more) (args : CheckArgs) (headtrm : Option Ref) (headtp : Ref)
    (holes : List (Option Ref)) :
    Extends
      (do let computed ←
            match args.expected with
            | some expected => do
                if ¬ (← defeq fuel expected headtp) then
                  report ("The type expected for an application does not" ++
                    " match the computed type.(2) \n")
                pure none
            | none => writeComputed args.computed headtp
          checkHoles args.inAsc holes
          return { term := if args.create then headtrm else none, computed } : CheckerM Checked)
      (do let computed ←
            match args.expected with
            | some expected => do
                if ¬ (← defeq more expected headtp) then
                  report ("The type expected for an application does not" ++
                    " match the computed type.(2) \n")
                pure none
            | none => writeComputed args.computed headtp
          checkHoles args.inAsc holes
          return { term := if args.create then headtrm else none, computed } :
            CheckerM Checked) := by
  cases args.expected with
  | none => exact extends_refl _
  | some expected =>
      exact extends_bind (extends_onStore (extends_defeq le expected headtp)) fun _ =>
        extends_refl _

theorem extends_checkAppEnd (le : fuel ≤ more) (args : CheckArgs) (headtrm : Option Ref)
    (headtp : Ref) (holes : List (Option Ref)) :
    Extends (checkAppEnd fuel args headtrm headtp holes)
      (checkAppEnd more args headtrm headtp holes) := by
  have ended := fun headtp => extends_ended le args headtrm headtp holes
  refine extends_bind (extends_refl _) fun _ => extends_bind (extends_refl _) fun op => ?_
  refine extends_ite ?_ (extends_bind (extends_refl _) ended)
  refine extends_bind (extends_refl _) fun run => extends_bind (extends_refl _) fun op => ?_
  refine extends_ite ?_ (extends_bind (extends_refl _) ended)
  refine extends_bind (extends_refl _) fun code => extends_bind (extends_refl _) fun code => ?_
  refine extends_bind (extends_refl _) fun result => ?_
  refine extends_bind (extends_zoom (extends_runPremise le code result)) fun _ => ?_
  exact extends_bind (extends_refl _) ended

section Applications

variable {check check' : CheckArgs → CheckerM Checked}
  (wider : ∀ args, Extends (check args) (check' args))

include wider

theorem extends_checkAppArgs (le : fuel ≤ more) {rounds rounds' : Nat} (le' : rounds ≤ rounds')
    (args : CheckArgs) (prevo : Int) (headtrm : Option Ref) (headtp : Ref)
    (holes : List (Option Ref)) :
    Extends (checkAppArgs fuel check args prevo rounds headtrm headtp holes)
      (checkAppArgs more check' args prevo rounds' headtrm headtp holes) := by
  induction rounds generalizing rounds' headtrm headtp holes with
  | zero => exact extends_outOfFuel
  | succ rounds hyp =>
      obtain ⟨rounds', rfl⟩ := Nat.exists_eq_add_of_le'
        (Nat.le_trans (Nat.le_add_left 1 rounds) le')
      have later := fun headtrm headtp holes =>
        hyp (Nat.le_of_succ_le_succ le') headtrm headtp holes
      have entered : ∀ domain range : Ref, Extends
          (do if (← getop domain) = some .run then
                runPremise fuel (← kid domain 0) (← kid domain 1)
                checkAppArgs fuel check args prevo rounds headtrm range holes
              else if ← isTailArg args headtp range then
                checkTailArg fuel check args domain range holes
              else
                let next ← checkArg check args prevo headtp domain headtrm holes
                checkAppArgs fuel check args prevo rounds next.1 range next.2 : CheckerM Checked)
          (do if (← getop domain) = some .run then
                runPremise more (← kid domain 0) (← kid domain 1)
                checkAppArgs more check' args prevo rounds' headtrm range holes
              else if ← isTailArg args headtp range then
                checkTailArg more check' args domain range holes
              else
                let next ← checkArg check' args prevo headtp domain headtrm holes
                checkAppArgs more check' args prevo rounds' next.1 range next.2 :
                  CheckerM Checked) := by
        intro domain range
        refine extends_bind (extends_refl _) fun op => extends_ite ?_ ?_
        · refine extends_bind (extends_refl _) fun code =>
            extends_bind (extends_refl _) fun result => ?_
          exact extends_bind (extends_zoom (extends_runPremise le code result)) fun _ => later _ _ _
        · refine extends_bind (extends_refl _) fun tail => extends_ite ?_ ?_
          · exact extends_checkTailArg wider le args domain range holes
          · exact extends_bind (extends_checkArg wider args prevo headtp domain headtrm holes)
              fun _ => later _ _ _
      unfold checkAppArgs
      refine extends_bind (extends_refl _) fun token => ?_
      refine extends_ite (extends_checkAppEnd le args headtrm headtp holes) ?_
      refine extends_bind (extends_refl _) fun _ => extends_bind (extends_refl _) fun op => ?_
      refine extends_ite (extends_bind (extends_refl _) fun _ => ?_) ?_
      · exact extends_bind (extends_refl _) fun domain => extends_bind (extends_refl _) fun range =>
          entered domain range
      · exact extends_bind (extends_refl _) fun domain => extends_bind (extends_refl _) fun range =>
          entered domain range

theorem extends_checkApp (le : fuel ≤ more) (args : CheckArgs) (c : Token) :
    Extends (checkApp fuel check args c) (checkApp more check' args c) := by
  refine extends_bind (extends_refl _) fun _ => extends_bind (extends_refl _) fun prevo => ?_
  refine extends_bind (wider _) fun head => extends_bind (extends_refl _) fun _ => ?_
  refine extends_bind (extends_refl _) fun type => extends_bind (extends_refl _) fun headtp => ?_
  refine extends_bind (extends_refl _) fun flag => ?_
  refine extends_ite ?_ ?_
  · exact extends_bind (extends_onStore (extends_clone le headtp)) fun _ =>
      extends_checkAppArgs wider le le _ _ _ _ _
  · exact extends_bind (extends_refl _) fun _ => extends_bind (extends_refl _) fun _ =>
      extends_checkAppArgs wider le le _ _ _ _ _

theorem extends_checkOpen (le : fuel ≤ more) (args : CheckArgs) :
    Extends (checkOpen fuel check args) (checkOpen more check' args) := by
  refine extends_bind (extends_refl _) fun _ => extends_bind (extends_refl _) fun token => ?_
  cases token with
  | Eof => exact extends_refl _
  | Bang => exact extends_checkBang wider le args
  | Arrow => exact extends_checkArrow wider le args
  | Pound => exact extends_checkPound wider le args
  | Percent => exact extends_checkPercent wider args
  | ReverseSolidus => exact extends_checkLambda wider args
  | Caret => exact extends_checkCaret wider le args
  | Colon => exact extends_checkColon wider le args
  | At => exact extends_checkAt wider le args
  | Tilde => exact extends_checkTilde wider args
  | _ => exact extends_checkApp wider le args _

end Applications

theorem extends_checkIdent (le : fuel ≤ more) (args : CheckArgs) :
    Extends (checkIdent fuel args) (checkIdent more args) := by
  refine extends_bind (extends_refl _) fun name => extends_bind (extends_refl _) fun pair => ?_
  cases pair.expr with
  | none => exact extends_refl _
  | some symbol =>
      cases args.expected with
      | none => exact extends_refl _
      | some expected =>
          refine extends_bind (extends_refl _) fun type => ?_
          exact extends_bind (extends_onStore (extends_defeq le expected type)) fun _ =>
            extends_refl _

/-- A larger bound on the recursion depth of `check` allows the same runs and more. -/
theorem extends_check (le : fuel ≤ more) (args : CheckArgs) :
    Extends (check fuel args) (check more args) := by
  induction fuel generalizing more args with
  | zero => exact extends_outOfFuel
  | succ fuel hyp =>
      obtain ⟨more, rfl⟩ := Nat.exists_eq_add_of_le' (Nat.le_trans (Nat.le_add_left 1 fuel) le)
      have le := Nat.le_of_succ_le_succ le
      unfold check
      refine extends_bind (extends_refl _) fun token => ?_
      cases token with
      | Open => exact extends_checkOpen (fun args => hyp le args) le args
      | Eof | Hole | Natural | Rational => exact extends_refl _
      | _ => exact extends_checkIdent le args

end Lfsc
