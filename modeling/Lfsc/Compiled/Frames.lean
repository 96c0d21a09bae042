import Lfsc.Compiled.Naming
import Lfsc.Compiled.Values
import Mathlib.Data.List.Forall2
import Mathlib.Data.List.ReduceOption

/-!
# Variables of compiled side conditions

The variables of a compiled function follow the environment of the evaluator: every variable in
scope is a C++ variable with its value, and the next numbered names are free.  Statements keep the
values of variables and add variables with known names.
-/

namespace Lfsc

open Exec

theorem Val.Exact.getHead_eq {sig : Signature} {value : Val} (exact : value.Exact sig) :
    value.getHead = value.spine.1 := by
  cases exact <;> rfl

namespace Compiled

/-! ## Variables -/

/-- A name that the writer made up between two states. -/
def Temporary (before after : Writer) (name : String) : Prop :=
  (∃ number, before.exprCount ≤ number ∧ number < after.exprCount ∧ name = exprName number) ∨
    ∃ number, before.rnumCount ≤ number ∧ number < after.rnumCount ∧ name = numberName number

/-- Variables keep their values, and new ones have given names or names that the writer made up. -/
structure Adds (names : List String) (before after : Writer) (locals locals' : Locals) : Prop where
  /-- Variables keep their values. -/
  kept : ∀ name pointer, locals name = some pointer → locals' name = some pointer
  /-- New variables have known names. -/
  new : ∀ name, locals name = none → locals' name ≠ none →
    name ∈ names ∨ Temporary before after name

/-- The variables of a compiled function follow an environment. -/
structure Follows (sig : Signature) (text : Ref → String) (progs : List Ref)
    (bound taken : List String) (writer : Writer) (locals : Locals) (env : Env) : Prop where
  /-- A variable in scope counts as a variable and has its value. -/
  value : ∀ var value, env var = some value → text var ∈ writer.vars ∧
    locals (getVarName (text var)) = some (some value) ∧ value.Exact sig
  /-- What counts as a variable is a variable of the program or numbered. -/
  within : ∀ name ∈ writer.vars, name ∈ bound ∨ ∃ number, name = exprName number
  /-- The next numbered names are free. -/
  names : ∀ name, locals name ≠ none → name ∈ taken ∨
    (∃ number, number < writer.exprCount ∧ name = exprName number) ∨
    ∃ number, number < writer.rnumCount ∧ name = numberName number
  /-- The other names are names of the program. -/
  proper : ∀ name ∈ taken, Proper text progs name

section Variables

variable {sig : Signature} {text : Ref → String} {progs : List Ref}
  {bound taken names : List String} {before middle after : Writer}
  {locals locals' locals'' : Locals} {env : Env}

theorem Temporary.mono {first last : Writer} {name : String} (made : Temporary before after name)
    (exprs : first.exprCount ≤ before.exprCount) (numbers : first.rnumCount ≤ before.rnumCount)
    (exprs' : after.exprCount ≤ last.exprCount) (numbers' : after.rnumCount ≤ last.rnumCount) :
    Temporary first last name := by
  rcases made with ⟨number, low, high, rfl⟩ | ⟨number, low, high, rfl⟩
  · exact .inl ⟨number, exprs.trans low, high.trans_le exprs', rfl⟩
  · exact .inr ⟨number, numbers.trans low, high.trans_le numbers', rfl⟩

theorem adds_refl (locals : Locals) : Adds [] before after locals locals :=
  ⟨fun _ _ found => found, fun _ free found => absurd free found⟩

/-- A new variable with a known name. -/
theorem adds_declare {name : String} (free : locals name = none)
    (allowed : name ∈ names ∨ Temporary before after name) (pointer : Option Pointer) :
    Adds names before after locals (Function.update locals name pointer) := by
  constructor
  · intro other value found
    rw [Function.update_of_ne]
    · exact found
    · rintro rfl
      cases free.symm.trans found
  · intro other unseen found
    by_cases same : other = name
    · exact same ▸ allowed
    · rw [Function.update_of_ne same] at found
      exact absurd unseen found

theorem Adds.trans {names' : List String} (first : Adds names before middle locals locals')
    (second : Adds names' middle after locals' locals'') (grown : Grown bound before middle)
    (grown' : Grown bound middle after) :
    Adds (names ++ names') before after locals locals'' := by
  refine ⟨fun name pointer found => second.kept _ _ (first.kept _ _ found), ?_⟩
  intro name free found
  by_cases between : locals' name = none
  · rcases second.new name between found with named | made
    · exact .inl (List.mem_append_right _ named)
    · exact .inr (made.mono grown.exprCount grown.rnumCount le_rfl le_rfl)
  · rcases first.new name free between with named | made
    · exact .inl (List.mem_append_left _ named)
    · exact .inr (made.mono le_rfl le_rfl grown'.exprCount grown'.rnumCount)

/-- The same variables are added when one that is there has another value. -/
theorem Adds.update (adds : Adds names before after locals locals') {target : String}
    {pointer : Pointer} (declared : locals target = some pointer) (value : Option Pointer) :
    Adds names before after (Function.update locals target value)
      (Function.update locals' target value) := by
  constructor
  · intro name found
    by_cases same : name = target
    · subst same
      simp
    · rw [Function.update_of_ne same, Function.update_of_ne same]
      exact adds.kept name found
  · intro name free found
    by_cases same : name = target
    · subst same
      rw [Function.update_self] at free found
      exact absurd free found
    · rw [Function.update_of_ne same] at free found
      exact adds.new name free found

theorem Adds.wider {names' : List String} (adds : Adds names before after locals locals')
    (subset : names ⊆ names') : Adds names' before after locals locals' :=
  ⟨adds.kept, fun name free found =>
    (adds.new name free found).imp_left fun member => subset member⟩

theorem Adds.grown {first last : Writer} (adds : Adds names before after locals locals')
    (grown : Grown bound first before) (grown' : Grown bound after last) :
    Adds names first last locals locals' :=
  ⟨adds.kept, fun name free found => (adds.new name free found).imp_right fun made =>
    made.mono grown.exprCount grown.rnumCount grown'.exprCount grown'.rnumCount⟩

theorem Follows.free_expr (follows : Follows sig text progs bound taken before locals env)
    {number : Nat} (unused : before.exprCount ≤ number) : locals (exprName number) = none := by
  by_contra found
  rcases follows.names _ found with member | ⟨used, low, same⟩ | ⟨used, -, same⟩
  · exact (follows.proper _ member).expr number rfl
  · have := exprName_injective same
    omega
  · exact exprName_ne_numberName _ _ same

theorem Follows.free_number (follows : Follows sig text progs bound taken before locals env)
    {number : Nat} (unused : before.rnumCount ≤ number) : locals (numberName number) = none := by
  by_contra found
  rcases follows.names _ found with member | ⟨used, -, same⟩ | ⟨used, low, same⟩
  · exact (follows.proper _ member).number number rfl
  · exact exprName_ne_numberName _ _ same.symm
  · have := numberName_injective same
    omega

theorem Follows.free_global (follows : Follows sig text progs bound taken before locals env)
    (symbol : String) : locals (globalName symbol) = none := by
  by_contra found
  rcases follows.names _ found with member | ⟨used, -, same⟩ | ⟨used, -, same⟩
  · exact (follows.proper _ member).global symbol rfl
  · exact exprName_ne_globalName _ _ same.symm
  · exact numberName_ne_globalName _ _ same.symm

theorem Follows.free_function (follows : Follows sig text progs bound taken before locals env)
    {prog : Ref} (member : prog ∈ progs) : locals (getFunctionName (text prog)) = none := by
  by_contra found
  rcases follows.names _ found with taken | ⟨used, -, same⟩ | ⟨used, -, same⟩
  · exact (follows.proper _ taken).function prog member rfl
  · exact exprName_ne_getFunctionName _ _ same.symm
  · exact numberName_ne_getFunctionName _ _ same.symm

theorem Follows.free_var (follows : Follows sig text progs bound taken before locals env)
    {name : String} (proper : Proper text progs name) (untaken : name ∉ taken) :
    locals name = none := by
  by_contra found
  rcases follows.names _ found with member | ⟨used, -, same⟩ | ⟨used, -, same⟩
  · exact untaken member
  · exact proper.expr used same
  · exact proper.number used same

/-- Variables that the writer added are in scope for what is written next. -/
theorem Follows.added (follows : Follows sig text progs bound taken before locals env)
    (adds : Adds names before after locals locals') (grown : Grown bound before after)
    (proper : ∀ name ∈ names, Proper text progs name) :
    Follows sig text progs bound (names ++ taken) after locals' env := by
  refine ⟨fun var value found => ?_, fun name member => ?_, fun name found => ?_,
    fun name member => ?_⟩
  · obtain ⟨member, held, exact⟩ := follows.value var value found
    exact ⟨grown.vars member, adds.kept _ _ held, exact⟩
  · rcases grown.within name member with old | new
    · exact follows.within name old
    · exact new
  · by_cases free : locals name = none
    · rcases adds.new name free found with named | ⟨number, -, high, rfl⟩ | ⟨number, -, high, rfl⟩
      · exact .inl (List.mem_append_left _ named)
      · exact .inr (.inl ⟨number, high, rfl⟩)
      · exact .inr (.inr ⟨number, high, rfl⟩)
    · rcases follows.names name free with old | ⟨number, low, rfl⟩ | ⟨number, low, rfl⟩
      · exact .inl (List.mem_append_right _ old)
      · exact .inr (.inl ⟨number, low.trans_le grown.exprCount, rfl⟩)
      · exact .inr (.inr ⟨number, low.trans_le grown.rnumCount, rfl⟩)
  · rcases List.mem_append.mp member with named | old
    · exact proper name named
    · exact follows.proper name old

/-- Which names are taken does not depend on their order. -/
theorem Follows.congr (follows : Follows sig text progs bound taken before locals env)
    {taken' : List String} (same : ∀ name, name ∈ taken ↔ name ∈ taken') :
    Follows sig text progs bound taken' before locals env :=
  ⟨follows.value, follows.within,
    fun name found => (follows.names name found).imp_left (same name).mp,
    fun name member => follows.proper name ((same name).mpr member)⟩

/-- A writer that has gone on keeps the variables in scope. -/
theorem Follows.grown (follows : Follows sig text progs bound taken before locals env)
    (grown : Grown bound before after) : Follows sig text progs bound taken after locals env := by
  simpa using follows.added (adds_refl locals) grown (by simp)

/-- Another value for a variable that is not in scope. -/
theorem Follows.update (follows : Follows sig text progs bound taken before locals env)
    {target : String} {pointer : Pointer} (declared : locals target = some pointer)
    (apart : ∀ var value, env var = some value → getVarName (text var) ≠ target)
    (pointer' : Pointer) :
    Follows sig text progs bound taken before (Function.update locals target (some pointer'))
      env := by
  refine ⟨fun var value found => ?_, follows.within, fun name found => ?_, follows.proper⟩
  · obtain ⟨member, held, exact⟩ := follows.value var value found
    refine ⟨member, ?_, exact⟩
    rw [Function.update_of_ne (apart var value found)]
    exact held
  · refine follows.names name ?_
    by_cases same : name = target
    · subst same
      simp [declared]
    · rwa [Function.update_of_ne same] at found

/-- A new variable of the program. -/
theorem Follows.declare (follows : Follows sig text progs bound taken before locals env)
    {name : String} (proper : Proper text progs name) (untaken : name ∉ taken) (pointer : Pointer) :
    Follows sig text progs bound (name :: taken) before
      (Function.update locals name (some pointer)) env := by
  have free := follows.free_var proper untaken
  refine ⟨fun var value found => ?_, follows.within, fun other found => ?_, ?_⟩
  · obtain ⟨member, held, exact⟩ := follows.value var value found
    refine ⟨member, ?_, exact⟩
    rw [Function.update_of_ne]
    · exact held
    · rintro same
      rw [same, free] at held
      cases held
  · by_cases same : other = name
    · exact .inl (by simp [same])
    · rw [Function.update_of_ne same] at found
      exact (follows.names other found).imp_left (List.mem_cons_of_mem _)
  · simpa using ⟨proper, follows.proper⟩

/-- A variable of the program comes into scope. -/
theorem Follows.bind (follows : Follows sig text progs bound taken before locals env) {var : Ref}
    {value : Val} (member : text var ∈ bound)
    (held : locals (getVarName (text var)) = some (some value)) (exact : value.Exact sig) :
    Follows sig text progs bound taken { before with vars := before.vars ++ [text var] } locals
      (Function.update env var (some value)) := by
  refine ⟨fun other inner found => ?_, fun name named => ?_, follows.names, follows.proper⟩
  · by_cases same : other = var
    · subst same
      obtain rfl : value = inner := by simpa using found
      exact ⟨by simp, held, exact⟩
    · rw [Function.update_of_ne same] at found
      obtain ⟨old, held', exact'⟩ := follows.value other inner found
      exact ⟨List.mem_append_left _ old, held', exact'⟩
  · rcases List.mem_append.mp named with old | new
    · exact follows.within name old
    · obtain rfl : name = text var := by simpa using new
      exact .inl member

end Variables

/-! ## Statements -/

section Statements

variable {linked : Linked} {locals locals' : Locals}

attribute [local simp] exec execAll

theorem execAll_append (first second : List Stmt) :
    execAll linked locals (first ++ second) =
      (execAll linked locals first).bind fun locals' => execAll linked locals' second := by
  induction first generalizing locals with
  | nil => simp [execAll]
  | cons stmt first hyp =>
      simp only [List.cons_append, execAll]
      cases exec linked locals stmt with
      | none => rfl
      | some next => exact hyp

theorem execAll_append_of {first : List Stmt} (run : execAll linked locals first = some locals')
    (second : List Stmt) :
    execAll linked locals (first ++ second) = execAll linked locals' second := by
  rw [execAll_append, run]
  rfl

theorem execAll_cons_of {stmt : Stmt} (run : exec linked locals stmt = some locals')
    (rest : List Stmt) : execAll linked locals (stmt :: rest) = execAll linked locals' rest := by
  rw [execAll, run]
  rfl

theorem object_of_local {name : String} {value : Val} (held : locals name = some (some value)) :
    object linked locals name = some value := by
  simp [object, read, held]

theorem read_of_local {name : String} {pointer : Pointer} (held : locals name = some pointer) :
    read linked locals name = some pointer := by
  simp [read, held]

/-- Variables that point to expressions, and these expressions. -/
def Holds (locals : Locals) (exprs : List String) (values : List Val) : Prop :=
  List.Forall₂ (fun expr value => locals expr = some (some value)) exprs values

theorem Holds.read_all {exprs : List String} {values : List Val}
    (holds : Holds locals exprs values) :
    exprs.mapM (read linked locals) = some (values.map some) := by
  induction holds with
  | nil => rfl
  | cons here _ hyp =>
      rw [List.mapM_cons, read_of_local here, hyp]
      rfl

theorem Holds.adds {names : List String} {before after : Writer} {exprs : List String}
    {values : List Val} (holds : Holds locals exprs values)
    (adds : Adds names before after locals locals') : Holds locals' exprs values :=
  holds.imp fun _ _ held => adds.kept _ _ held

/-- A variable points to an expression. -/
def Points (locals : Locals) (name : String) : Prop := ∃ value, locals name = some (some value)

theorem Points.update {name : String} (points : Points locals name) (target : String)
    (value : Val) :
    Points (Function.update locals target (some (some value))) name := by
  by_cases same : name = target
  · exact ⟨value, by simp [same]⟩
  · obtain ⟨inner, held⟩ := points
    exact ⟨inner, by rw [Function.update_of_ne same, held]⟩

theorem Holds.points {exprs : List String} {values : List Val} (holds : Holds locals exprs values) :
    ∀ expr ∈ exprs, Points locals expr := by
  induction holds with
  | nil => simp
  | cons here _ hyp => simpa using ⟨⟨_, here⟩, hyp⟩

theorem exec_inc {name : String} (points : Points locals name) :
    exec linked locals (.inc name) = some locals := by
  obtain ⟨value, held⟩ := points
  rw [exec, object_of_local held]
  rfl

theorem exec_dec {name : String} (points : Points locals name) :
    exec linked locals (.dec name) = some locals := by
  obtain ⟨value, held⟩ := points
  rw [exec, object_of_local held]
  rfl

theorem execAll_dec {exprs : List String} (points : ∀ expr ∈ exprs, Points locals expr) :
    execAll linked locals (exprs.map .dec) = some locals := by
  induction exprs with
  | nil => simp [execAll]
  | cons expr exprs hyp =>
      rw [List.forall_mem_cons] at points
      rw [List.map_cons, execAll_cons_of (exec_dec points.1)]
      exact hyp points.2

theorem exec_declare {stored : Bool} {name : String} (free : read linked locals name = none) :
    exec linked locals (.declare stored name) =
      some (Function.update locals name (some none)) := by
  rw [exec, declare, free]

theorem assign_of_declared {name : String} {pointer : Pointer}
    (declared : locals name = some pointer) (pointer' : Pointer) :
    assign locals name pointer' = some (Function.update locals name (some pointer')) := by
  rw [assign, declared]

theorem exec_call {target function : String} {exprs : List String} {values : List Val}
    {pointer pointer' : Pointer} (free : unnamed linked locals function = some ())
    (declared : locals target = some pointer) (holds : Holds locals exprs values)
    (returned : linked.calls function (values.map some) = some pointer') :
    exec linked locals (.call target function exprs) =
      some (Function.update locals target (some pointer')) := by
  rw [exec, free, holds.read_all, ← assign_of_declared declared]
  simp [returned]

theorem reduceOption_takeWhile (values : List Val) :
    ((values.map some).takeWhile Option.isSome).reduceOption = values := by
  induction values with
  | nil => rfl
  | cons value values hyp =>
      rw [List.map_cons, List.takeWhile_cons_of_pos rfl, List.reduceOption_cons_of_some, hyp]

theorem exec_newApp {target head : String} {exprs : List String} {value : Val} {values : List Val}
    {pointer : Pointer} (declared : locals target = some pointer)
    (held : locals head = some (some value)) (holds : Holds locals exprs values) :
    exec linked locals (.newApp target head exprs) =
      some (Function.update locals target (some (some (.app value values)))) := by
  rw [exec, object_of_local held, holds.read_all, ← assign_of_declared declared]
  simp [reduceOption_takeWhile]

theorem exec_head {target scrutinee : String} {value : Val}
    (free : read linked locals target = none) (held : locals scrutinee = some (some value)) :
    exec linked locals (.head target scrutinee) =
      some (Function.update locals target (some (some value.getHead))) := by
  rw [exec, object_of_local held]
  simp [declare, free]

theorem exec_cases {head : String} {branches : List (String × List Stmt)} {otherwise : List Stmt}
    {value : Val} (held : locals head = some (some value))
    (run : execCases linked locals value (execAll linked locals otherwise) branches =
      some locals') :
    exec linked locals (.cases head branches otherwise) = some (leave locals locals') := by
  rw [exec, object_of_local held]
  simp [run]

theorem exec_arith {op : Op} {number target left right : String} {m n value : Val}
    {pointer : Pointer} (exactly : op = .add ∨ op = .mul)
    (free : unnamed linked locals number = some ()) (declared : locals target = some pointer)
    (held : locals left = some (some m)) (held' : locals right = some (some n))
    (result : m.arith op n = some value) :
    exec linked locals (.arith (if op = .add then .add else .mul) op number target left right) =
      some (Function.update locals target (some (some value))) := by
  have same : (if op = .add then Op.add else .mul) = op := by
    rcases exactly with rfl | rfl <;> rfl
  rw [same, exec, free, object_of_local held, object_of_local held', ← assign_of_declared declared]
  cases m <;> cases n <;> simp [Val.arith] at result
  · obtain ⟨sum, found, rfl⟩ := result
    simp [found]
  · obtain ⟨sum, found, rfl⟩ := result
    simp [found]

theorem exec_neg {number target operand : String} {inner value : Val} {pointer : Pointer}
    (free : unnamed linked locals number = some ()) (declared : locals target = some pointer)
    (held : locals operand = some (some inner)) (result : inner.neg = some value) :
    exec linked locals (.neg number target operand) =
      some (Function.update locals target (some (some value))) := by
  rw [exec, free, object_of_local held, ← assign_of_declared declared]
  cases inner <;> simp [Val.neg] at result <;> subst result <;> rfl

theorem exec_toRational {number target operand : String} {value : Int} {pointer : Pointer}
    (free : read linked locals number = none) (declared : locals target = some pointer)
    (held : locals operand = some (some (.int value))) :
    exec linked locals (.toRational number target operand) =
      some (Function.update (Function.update locals number (some none)) target
        (some (some (.rat value)))) := by
  have other : target ≠ number := by
    rintro rfl
    rw [read_of_local declared] at free
    cases free
  rw [exec, object_of_local held]
  simp [declare, free, assign, Function.update_of_ne other, declared]

theorem exec_ifNumeral_int {op : Op} {operand : String} {intYes intNo ratYes ratNo : List Stmt}
    {value : Int} {condition : Bool} (held : locals operand = some (some (.int value)))
    (tested : (Val.int value).test op = some condition)
    (run : execAll linked locals (if condition then intYes else intNo) = some locals') :
    exec linked locals (.ifNumeral op operand intYes intNo ratYes ratNo) =
      some (leave locals locals') := by
  have decided : (if op = .ifneg then decide (value < 0) else decide (value = 0)) = condition :=
    Option.some.inj tested
  rw [exec, object_of_local held]
  by_cases negative : op = .ifneg
  · rw [if_pos negative] at decided
    subst decided
    by_cases low : value < 0 <;>
      simp only [low, decide_true, decide_false, Bool.false_eq_true, if_true, if_false] at run <;>
      simp [negative, low, run]
  · rw [if_neg negative] at decided
    subst decided
    by_cases zero : value = 0 <;>
      simp only [zero, decide_true, decide_false, Bool.false_eq_true, if_true, if_false] at run <;>
      simp [negative, zero, run]

theorem exec_ifNumeral_rat {op : Op} {operand : String} {intYes intNo ratYes ratNo : List Stmt}
    {value : Rat} {condition : Bool} (held : locals operand = some (some (.rat value)))
    (tested : (Val.rat value).test op = some condition)
    (run : execAll linked locals (if condition then ratYes else ratNo) = some locals') :
    exec linked locals (.ifNumeral op operand intYes intNo ratYes ratNo) =
      some (leave locals locals') := by
  rw [exec, object_of_local held]
  by_cases negative : op = .ifneg <;> cases condition <;> simp_all [Val.test]

/-- At the end of a block, only the values that the outer variables had been given are left. -/
theorem leave_eq {target : String} {pointer pointer' : Pointer}
    (declared : locals target = some pointer)
    (kept : ∀ name value, Function.update locals target (some pointer') name = some value →
      locals' name = some value) :
    leave locals locals' = Function.update locals target (some pointer') := by
  funext name
  by_cases same : name = target
  · subst same
    simp only [leave, declared]
    rw [kept name pointer' (by simp)]
    simp
  · rw [Function.update_of_ne same]
    unfold leave
    cases found : locals name with
    | none => rfl
    | some value => exact kept name value (by rw [Function.update_of_ne same, found])

end Statements

/-! ## Expressions -/

/-- The functions and the global variables that a compiled function sees are those of the programs
and the symbols: calls are right as far as the programs were evaluated to less than some depth. -/
structure Serves (sig : Signature) (order : Ref → Ref → Bool) (text : Ref → String)
    (progs : List Ref) (symbols : String → Pointer) (syms : List String) (linked : Linked)
    (fuel : Nat) : Prop where
  /-- The symbols that were looked up. -/
  entry : ∀ symbol ∈ syms, linked.globals (globalName symbol) = some (symbols symbol)
  /-- There are no other global variables. -/
  other : ∀ name, (∀ symbol, name ≠ globalName symbol) → linked.globals name = none
  /-- The functions. -/
  calls : ∀ depth, depth < fuel → ∀ prog ∈ progs, ∀ params body values value,
    sig prog = .program params body → params.length = values.length →
    (∀ arg ∈ values, arg.Exact sig) →
    Yields sig order depth (Env.bind (fun _ => none) (params.zip values)) body value →
    linked.calls (getFunctionName (text prog)) (values.map some) = some (some value) ∧
      value.Exact sig

section Simulation

variable {sig : Signature} {order : Ref → Ref → Bool} {text : Ref → String} {progs : List Ref}
  {symbols : String → Pointer} {bound taken syms : List String} {linked : Linked} {fuel : Nat}
  {before after : Writer} {locals : Locals} {env : Env}

theorem Serves.mono {more : Nat} (serves : Serves sig order text progs symbols syms linked more)
    (le : fuel ≤ more) : Serves sig order text progs symbols syms linked fuel :=
  ⟨serves.entry, serves.other, fun depth lt => serves.calls depth (lt.trans_le le)⟩

variable (serves : Serves sig order text progs symbols syms linked fuel)

include serves

theorem Serves.read_expr (follows : Follows sig text progs bound taken before locals env)
    {number : Nat} (unused : before.exprCount ≤ number) :
    read linked locals (exprName number) = none := by
  rw [read, follows.free_expr unused]
  exact serves.other _ fun symbol => exprName_ne_globalName _ _

theorem Serves.read_number (follows : Follows sig text progs bound taken before locals env) :
    read linked locals (numberName before.rnumCount) = none := by
  rw [read, follows.free_number le_rfl]
  exact serves.other _ fun symbol => numberName_ne_globalName _ _

theorem Serves.unnamed_number (follows : Follows sig text progs bound taken before locals env) :
    unnamed linked locals (numberName before.rnumCount) = some () := by
  rw [unnamed, serves.read_number follows]

theorem Serves.unnamed_function (follows : Follows sig text progs bound taken before locals env)
    {prog : Ref} (member : prog ∈ progs) :
    unnamed linked locals (getFunctionName (text prog)) = some () := by
  have free : read linked locals (getFunctionName (text prog)) = none := by
    rw [read, follows.free_function member]
    exact serves.other _ fun symbol => getFunctionName_ne_globalName _ _
  rw [unnamed, free]

theorem Serves.read_var (follows : Follows sig text progs bound taken before locals env)
    {name : String} (proper : Proper text progs name) (untaken : name ∉ taken) :
    read linked locals name = none := by
  rw [read, follows.free_var proper untaken]
  exact serves.other _ proper.global

/-- A symbol of the signature is read from its global variable. -/
theorem simulates_writeSym {target : String} {name : Ref} {stmts : List Stmt} {pointer : Pointer}
    (run : (writeSym text target name).run before = .ok (stmts, after))
    (found : Found text symbols bound name)
    (follows : Follows sig text progs bound taken before locals env)
    (declared : locals target = some pointer) (known : after.globalSyms ⊆ syms) :
    execAll linked locals stmts =
      some (Function.update locals target (some (some (.sym name)))) := by
  rcases run_writeSym bound run with ⟨member, -⟩ | ⟨-, looked, -, -, -, rfl⟩
  · rcases follows.within _ member with var | ⟨number, numbered⟩
    · exact absurd var found.unbound
    · exact absurd numbered (found.unnumbered number)
  · have value : read linked locals (globalName (getVarName (text name))) =
        some (some (.sym name)) := by
      rw [read, follows.free_global]
      exact (serves.entry _ (known looked)).trans (congrArg some found.entry)
    have copied : exec linked locals (.copy target (globalName (getVarName (text name)))) =
        some (Function.update locals target (some (some (.sym name)))) := by
      rw [exec, value]
      exact assign_of_declared declared _
    rw [execAll_cons_of copied, execAll_cons_of (exec_inc ⟨.sym name, by simp⟩), execAll]

/-- An expression is written into the next numbered variable, or it is a variable. -/
theorem simulates_writeExprWith {code : Code} {write : String → WriteM (List Stmt)} {value : Val}
    {sound : Prop} {names : List String} {stmts : List Stmt} {expr : String}
    (run : (writeExprWith text false code write).run before = .ok ((stmts, expr), after))
    (follows : Follows sig text progs bound taken before locals env)
    (known : ∀ name, code = .sym name → text name ∈ before.vars →
      sound ∧ locals (getVarName (text name)) = some (some value))
    (each : ∀ target, Keeps (Grown bound) (write target))
    (writes : ∀ {start middle : Writer} {written : List Stmt} {target : String} {locals : Locals},
      (write target).run start = .ok (written, middle) →
      Follows sig text progs bound taken start locals env → locals target = some none →
      (∀ var value, env var = some value → getVarName (text var) ≠ target) →
      middle.globalSyms = after.globalSyms →
      sound ∧ ∃ locals', execAll linked locals written = some locals' ∧
        Adds names start middle (Function.update locals target (some (some value))) locals') :
    sound ∧ ∃ locals', execAll linked locals stmts = some locals' ∧
      Adds names before after locals locals' ∧ locals' expr = some (some value) := by
  rcases run_writeExprWith run with
    ⟨name, rfl, member, rfl, rfl, rfl⟩ | ⟨-, written, middle, writeRun, rfl, rfl, rfl⟩
  · obtain ⟨also, held⟩ := known name rfl member
    refine ⟨also, locals, ?_, (adds_refl locals).wider (List.nil_subset _), held⟩
    rw [execAll_cons_of (exec_inc ⟨value, held⟩), execAll]
  · set expr := exprName before.exprCount with expr_eq
    have free : locals expr = none := follows.free_expr le_rfl
    have declares : exec linked locals (.declare (isSym code) expr) =
        some (Function.update locals expr (some none)) :=
      exec_declare (serves.read_expr follows le_rfl)
    have grown := each _ _ _ _ writeRun
    have follows' : Follows sig text progs bound taken
        { before with exprCount := before.exprCount + 1 }
        (Function.update locals expr (some none)) env := by
      have adds : Adds [] before { before with exprCount := before.exprCount + 1 } locals
          (Function.update locals expr (some none)) :=
        adds_declare free (.inr (.inl ⟨before.exprCount, le_rfl, Nat.lt_succ_self _, expr_eq⟩)) _
      simpa using follows.added adds (grown_newExpr before) (by simp)
    have apart : ∀ var value, env var = some value → getVarName (text var) ≠ expr := by
      intro var value found same
      obtain ⟨-, held, -⟩ := follows.value var value found
      rw [same, free] at held
      cases held
    obtain ⟨also, locals', writtenRun, adds⟩ := writes writeRun follows' (by simp) apart rfl
    refine ⟨also, locals', ?_, ⟨fun name pointer found => ?_, fun name unseen found => ?_⟩,
      adds.kept _ _ (by simp)⟩
    · simpa [execAll_cons_of declares] using writtenRun
    · have other : name ≠ expr := by
        rintro rfl
        cases free.symm.trans found
      refine adds.kept _ _ ?_
      rw [Function.update_of_ne other, Function.update_of_ne other]
      exact found
    · by_cases same : name = expr
      · exact .inr (.inl ⟨before.exprCount, le_rfl, grown.exprCount, same⟩)
      · refine (adds.new name ?_ found).imp_right fun made =>
          made.mono (Nat.le_succ _) le_rfl le_rfl le_rfl
        rw [Function.update_of_ne same, Function.update_of_ne same]
        exact unseen

/-- `write_expr` on a symbol of the signature, or on a case with that constructor. -/
theorem simulates_writeFound {name : Ref} {code : Code} {stmts : List Stmt} {expr : String}
    (run : (writeExprWith text false code fun target => writeSym text target name).run before =
      .ok ((stmts, expr), after))
    (symbol : ∀ other, code = .sym other → other = name)
    (found : Found text symbols bound name)
    (follows : Follows sig text progs bound taken before locals env)
    (known : after.globalSyms ⊆ syms) :
    ∃ locals', execAll linked locals stmts = some locals' ∧
      Adds [] before after locals locals' ∧ locals' expr = some (some (.sym name)) := by
  suffices simulated : True ∧ ∃ locals', execAll linked locals stmts = some locals' ∧
      Adds [] before after locals locals' ∧ locals' expr = some (some (.sym name)) from simulated.2
  refine simulates_writeExprWith serves run follows ?_ (fun target => keeps_writeSym target name) ?_
  · intro other same member
    rw [symbol other same] at member
    rcases follows.within _ member with var | ⟨number, numbered⟩
    · exact absurd var found.unbound
    · exact absurd numbered (found.unnumbered number)
  · intro start middle written target locals writeRun follows declared apart same
    exact ⟨trivial, _, simulates_writeSym serves writeRun found follows declared (same ▸ known),
      adds_refl _⟩

end Simulation

end Compiled

end Lfsc
