import Lfsc.Exec.Refines
import Lfsc.RunCode

/-!
# What side conditions mean

A big-step evaluator for side conditions over first-order terms: call by value from left to right,
the first matching case, failure propagating everywhere, and an environment that binds only the
variables in scope.  It says what `run_code_internal` is for and shares no state with it but the
marks.
-/

namespace Lfsc

open Exec

/-! ## Terms and code -/

/-- A value of a side condition: a symbol, a numeral, or a value applied to values. -/
inductive Val
  | sym (name : Ref)
  | int (value : Int)
  | rat (value : Rat)
  | app (head : Val) (args : List Val)

namespace Val

mutual

/-- Whether two values are the same. -/
def same : Val → Val → Bool
  | .sym left, .sym right => left = right
  | .int left, .int right => left = right
  | .rat left, .rat right => left = right
  | .app head args, .app head' args' => head.same head' && sameAll args args'
  | _, _ => false

/-- Whether two lists of values are the same. -/
def sameAll : List Val → List Val → Bool
  | [], [] => true
  | arg :: args, arg' :: args' => arg.same arg' && sameAll args args'
  | _, _ => false

end

mutual

theorem same_iff : ∀ left right : Val, left.same right = true ↔ left = right
  | .sym _, right => by cases right <;> simp [same]
  | .int _, right => by cases right <;> simp [same]
  | .rat _, right => by cases right <;> simp [same]
  | .app head args, right => by
      cases right with
      | app head' args' => simp [same, same_iff head head', sameAll_iff args args']
      | _ => simp [same]

theorem sameAll_iff : ∀ left right : List Val, sameAll left right = true ↔ left = right
  | [], right => by cases right <;> simp [sameAll]
  | arg :: args, right => by
      cases right with
      | nil => simp [sameAll]
      | cons arg' args' => simp [sameAll, same_iff arg arg', sameAll_iff args args']

end

instance : DecidableEq Val := fun left right => decidable_of_iff _ (same_iff left right)

/-- A value applied to values. -/
def apply (head : Val) (args : List Val) : Val := if args = [] then head else .app head args

/-- The head and the arguments of a value. -/
def spine : Val → Val × List Val
  | .app head args => (head, args)
  | value => (value, [])

end Val

/-- The pattern of a case of a `match`. -/
inductive Pattern
  | ctor (name : Ref) (vars : List Ref)
  | default
  deriving DecidableEq, Repr

/-- Side-condition code. -/
inductive Code
  | int (value : Int)
  | rat (value : Rat)
  | sym (name : Ref)
  | apply (head : Ref) (args : List Code)
  | fail
  | do_ (first second : Code)
  | let_ (var : Ref) (value body : Code)
  | arith (op : Op) (left right : Code)
  | neg (operand : Code)
  | mpzToMpq (operand : Code)
  | ifNumeral (op : Op) (operand yes no : Code)
  | ifMarked (index : Nat) (operand yes no : Code)
  | compare (left right yes no : Code)
  | ifEqual (left right yes no : Code)
  | markVar (index : Nat) (operand : Code)
  | match_ (scrutinee : Code) (branches : List (Pattern × Code))

/-- What a symbol stands for in code. -/
inductive Role
  /-- A parameter, a pattern variable or a `let` variable. -/
  | var
  /-- A declared symbol that is fully applied to so many arguments. -/
  | constructor (arity : Nat)
  /-- A program with its parameters and its body. -/
  | program (params : List Ref) (body : Code)

/-- What every symbol stands for. -/
abbrev Signature : Type := Ref → Role

/-- The values of the variables in scope. -/
abbrev Env : Type := Ref → Option Val

/-- The marks of symbols. -/
abbrev Marks : Type := Ref → Nat → Bool

/-- Computations of the evaluator. -/
abbrev EvalM (α : Type) : Type := Exec Marks Stop α

/-! ## Evaluation -/

/-- An environment with further variables bound in turn. -/
def Env.bind : Env → List (Ref × Val) → Env
  | env, [] => env
  | env, (var, value) :: rest => Env.bind (Function.update env var (some value)) rest

/-- The value of a symbol; a program is no value, and a variable out of scope has none. -/
def lookup (sig : Signature) (env : Env) (name : Ref) : EvalM Val :=
  match sig name with
  | .var => deref (env name)
  | .constructor _ => pure (.sym name)
  | .program _ _ => Exec.stop .undefined

/-- Toggle a mark. -/
def toggle (name : Ref) (index : Nat) : EvalM Unit :=
  modify fun (marks : Marks) =>
    Function.update marks name (Function.update (marks name) index (!marks name index))

/-- The value of an arithmetic operation, which fails on anything but two integers or two
rationals. -/
def Val.arith (op : Op) : Val → Val → Option Val
  | .int m, .int n => Val.int <$> intArith op m n
  | .rat p, .rat q => Val.rat <$> ratArith op p q
  | _, _ => none

/-- The negation of a numeral. -/
def Val.neg : Val → Option Val
  | .int value => some (.int (-value))
  | .rat value => some (.rat (-value))
  | _ => none

/-- The condition of a numeral test. -/
def Val.test (op : Op) : Val → Option Bool
  | .int value => some (if op = .ifneg then value < 0 else value = 0)
  | .rat value => some (if op = .ifneg then value < 0 else value = 0)
  | _ => none

/-- The variables bound when a value matches a pattern, with the parts of the value. -/
def Pattern.matches : Pattern → Val → Option (List (Ref × Val))
  | .default, _ => some []
  | .ctor name vars, value =>
      if value.spine.1 = .sym name ∧ value.spine.2.length = vars.length then
        some (vars.zip value.spine.2)
      else none

/-- Evaluate arguments from left to right. -/
def evalArgs (self : Code → EvalM (Option Val)) : List Code → EvalM (Option (List Val))
  | [] => return some []
  | arg :: rest => do
      match ← self arg with
      | none => return none
      | some value =>
          match ← evalArgs self rest with
          | none => return none
          | some values => return some (value :: values)

/-- Apply a symbol to values.  The body of a program sees its parameters only. -/
def evalApply (sig : Signature) (self : Env → Code → EvalM (Option Val)) (env : Env) (head : Ref)
    (values : List Val) : EvalM (Option Val) :=
  match sig head with
  | .program params body =>
      if params.length = values.length then
        self (Env.bind (fun _ => none) (params.zip values)) body
      else return none
  | _ => do return some ((← lookup sig env head).apply values)

/-- The first branch whose pattern matches. -/
def evalBranches (self : Env → Code → EvalM (Option Val)) (env : Env) (value : Val) :
    List (Pattern × Code) → EvalM (Option Val)
  | [] => return none
  | (pattern, body) :: rest =>
      match pattern.matches value with
      | some parts => self (env.bind parts) body
      | none => evalBranches self env value rest

/-- Evaluate code that has to yield a symbol. -/
def evalSymbol (self : Code → EvalM (Option Val)) (code : Code) : EvalM (Option Ref) := do
  match ← self code with
  | some (.sym name) => return some name
  | _ => return none

/-- One of two branches. -/
def evalBranch (self : Code → EvalM (Option Val)) (yes no : Code) (condition : Bool) :
    EvalM (Option Val) := if condition then self yes else self no

/-- One level of evaluation, with the order of symbols that `compare` uses. -/
def evalStep (sig : Signature) (before : Ref → Ref → Bool)
    (self : Env → Code → EvalM (Option Val)) (env : Env) : Code → EvalM (Option Val)
  | .int value => return some (.int value)
  | .rat value => return some (.rat value)
  | .sym name => do return some (← lookup sig env name)
  | .apply head args => do
      match ← evalArgs (self env) args with
      | none => return none
      | some values => evalApply sig self env head values
  | .fail => return none
  | .do_ first second => do
      match ← self env first with
      | none => return none
      | some _ => self env second
  | .let_ var value body => do
      match ← self env value with
      | none => return none
      | some value => self (env.bind [(var, value)]) body
  | .arith op left right => do
      match ← self env left with
      | none => return none
      | some left =>
          match ← self env right with
          | none => return none
          | some right => return left.arith op right
  | .neg operand => do
      match ← self env operand with
      | none => return none
      | some value => return value.neg
  | .mpzToMpq operand => do
      match ← self env operand with
      | none => return none
      | some (.int value) => return some (.rat value)
      | some _ => Exec.stop .undefined
  | .ifNumeral op operand yes no => do
      match ← self env operand with
      | none => return none
      | some value =>
          match value.test op with
          | none => return none
          | some condition => evalBranch (self env) yes no condition
  | .ifMarked index operand yes no => do
      match ← evalSymbol (self env) operand with
      | none => return none
      | some name => evalBranch (self env) yes no ((← get) name index)
  | .compare left right yes no => do
      match ← evalSymbol (self env) left with
      | none => return none
      | some left =>
          match ← evalSymbol (self env) right with
          | none => return none
          | some right => evalBranch (self env) yes no (before left right)
  | .ifEqual left right yes no => do
      match ← self env left with
      | none => return none
      | some left =>
          match ← self env right with
          | none => return none
          | some right => evalBranch (self env) yes no (left = right)
  | .markVar index operand => do
      match ← evalSymbol (self env) operand with
      | none => return none
      | some name =>
          toggle name index
          return some (.sym name)
  | .match_ scrutinee branches => do
      match ← self env scrutinee with
      | none => return none
      | some value => evalBranches self env value branches

/-- Evaluation to a bounded depth. -/
def eval (sig : Signature) (before : Ref → Ref → Bool) : Nat → Env → Code → EvalM (Option Val)
  | 0, _, _ => outOfFuel
  | fuel + 1, env, code => evalStep sig before (eval sig before fuel) env code

/-! ## The depth of evaluation -/

theorem extends_evalArgs {self self' : Code → EvalM (Option Val)}
    (wider : ∀ code, Extends (self code) (self' code)) (args : List Code) :
    Extends (evalArgs self args) (evalArgs self' args) := by
  induction args with
  | nil => exact extends_refl _
  | cons arg rest hyp =>
      refine extends_bind (wider arg) fun value => ?_
      cases value with
      | none => exact extends_refl _
      | some value => exact extends_bind hyp fun _ => extends_refl _

theorem extends_evalBranch {self self' : Code → EvalM (Option Val)}
    (wider : ∀ code, Extends (self code) (self' code)) (yes no : Code) (condition : Bool) :
    Extends (evalBranch self yes no condition) (evalBranch self' yes no condition) :=
  extends_ite (wider yes) (wider no)

theorem extends_evalSymbol {self self' : Code → EvalM (Option Val)}
    (wider : ∀ code, Extends (self code) (self' code)) (code : Code) :
    Extends (evalSymbol self code) (evalSymbol self' code) :=
  extends_bind (wider code) fun _ => extends_refl _

section Depth

variable {sig : Signature} {before : Ref → Ref → Bool}
  {self self' : Env → Code → EvalM (Option Val)}
  (wider : ∀ env code, Extends (self env code) (self' env code))

include wider

theorem extends_evalApply (env : Env) (head : Ref) (values : List Val) :
    Extends (evalApply sig self env head values) (evalApply sig self' env head values) := by
  unfold evalApply
  split
  · exact extends_ite (wider _ _) (extends_refl _)
  · exact extends_refl _

theorem extends_evalBranches (env : Env) (value : Val) (branches : List (Pattern × Code)) :
    Extends (evalBranches self env value branches) (evalBranches self' env value branches) := by
  induction branches with
  | nil => exact extends_refl _
  | cons branch rest hyp =>
      obtain ⟨pattern, body⟩ := branch
      unfold evalBranches
      split
      · exact wider _ _
      · exact hyp

/-- One level of evaluation over more evaluations has more evaluations. -/
theorem extends_evalStep (env : Env) (code : Code) :
    Extends (evalStep sig before self env code) (evalStep sig before self' env code) := by
  cases code with
  | int | rat | sym | fail => exact extends_refl _
  | apply head args =>
      refine extends_bind (extends_evalArgs (wider env) args) fun values => ?_
      cases values with
      | none => exact extends_refl _
      | some values => exact extends_evalApply wider env head values
  | do_ first second =>
      refine extends_bind (wider env first) fun value => ?_
      cases value with
      | none => exact extends_refl _
      | some value => exact wider env second
  | let_ var value body =>
      refine extends_bind (wider env value) fun value => ?_
      cases value with
      | none => exact extends_refl _
      | some value => exact wider _ body
  | arith op left right =>
      refine extends_bind (wider env left) fun left => ?_
      cases left with
      | none => exact extends_refl _
      | some left => exact extends_bind (wider env right) fun _ => extends_refl _
  | neg operand => exact extends_bind (wider env operand) fun _ => extends_refl _
  | mpzToMpq operand => exact extends_bind (wider env operand) fun _ => extends_refl _
  | ifNumeral op operand yes no =>
      refine extends_bind (wider env operand) fun value => ?_
      cases value with
      | none => exact extends_refl _
      | some value =>
          simp only
          cases value.test op with
          | none => exact extends_refl _
          | some condition => exact extends_evalBranch (wider env) yes no condition
  | ifMarked index operand yes no =>
      refine extends_bind (extends_evalSymbol (wider env) operand) fun name => ?_
      cases name with
      | none => exact extends_refl _
      | some name =>
          exact extends_bind (extends_refl _) fun marks =>
            extends_evalBranch (wider env) yes no (marks name index)
  | compare left right yes no =>
      refine extends_bind (extends_evalSymbol (wider env) left) fun left => ?_
      cases left with
      | none => exact extends_refl _
      | some left =>
          refine extends_bind (extends_evalSymbol (wider env) right) fun right => ?_
          cases right with
          | none => exact extends_refl _
          | some right => exact extends_evalBranch (wider env) yes no (before left right)
  | ifEqual left right yes no =>
      refine extends_bind (wider env left) fun left => ?_
      cases left with
      | none => exact extends_refl _
      | some left =>
          refine extends_bind (wider env right) fun right => ?_
          cases right with
          | none => exact extends_refl _
          | some right => exact extends_evalBranch (wider env) yes no _
  | markVar index operand =>
      exact extends_bind (extends_evalSymbol (wider env) operand) fun _ => extends_refl _
  | match_ scrutinee branches =>
      refine extends_bind (wider env scrutinee) fun value => ?_
      cases value with
      | none => exact extends_refl _
      | some value => exact extends_evalBranches wider env value branches

end Depth

/-- An evaluation that returns does so at every greater depth. -/
theorem extends_eval {sig : Signature} {before : Ref → Ref → Bool} {fuel more : Nat}
    (le : fuel ≤ more) (env : Env) (code : Code) :
    Extends (eval sig before fuel env code) (eval sig before more env code) := by
  induction fuel generalizing more env code with
  | zero => exact extends_stop
  | succ fuel hyp =>
      obtain ⟨more, rfl⟩ := Nat.exists_eq_add_of_le' (Nat.le_trans (Nat.le_add_left 1 fuel) le)
      exact extends_evalStep (fun env code => hyp (by omega) env code) env code

/-- Some code evaluates to a result with some marks afterwards. -/
def Evaluates (sig : Signature) (before : Ref → Ref → Bool) (env : Env) (code : Code)
    (marks : Marks) (result : Option Val) (final : Marks) : Prop :=
  ∃ fuel, (eval sig before fuel env code).run marks = .ok (result, final)

/-- Evaluation is deterministic. -/
theorem evaluates_unique {sig : Signature} {before : Ref → Ref → Bool} {env : Env} {code : Code}
    {marks final final' : Marks} {result result' : Option Val}
    (first : Evaluates sig before env code marks result final)
    (second : Evaluates sig before env code marks result' final') :
    result = result' ∧ final = final' := by
  obtain ⟨fuel, first⟩ := first
  obtain ⟨fuel', second⟩ := second
  have left := extends_eval (Nat.le_max_left fuel fuel') env code _ _ _ first
  have right := extends_eval (Nat.le_max_right fuel fuel') env code _ _ _ second
  simpa using left.symm.trans right

end Lfsc
