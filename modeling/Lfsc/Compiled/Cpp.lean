import Lfsc.SideCondition.Evaluator

/-!
# The C++ that the side-condition writer emits

The statements that `sccwriter` writes, and what they do to the variables of a function.
Expressions are the values that they denote: reference counts and addresses are left out.  A run is
undefined where C++ leaves it undefined, where the process exits and where a declaration would hide
another one; nothing is said of the statements about marks, `compare` and `ifequal`.
-/

namespace Lfsc

/-- `get_head`. -/
def Val.getHead : Val → Val
  | .app head _ => head.getHead
  | value => value

namespace Compiled

/-! ## Statements -/

/-- A statement, after the lines that are written for it. -/
inductive Stmt
  /-- `Expr* target = NULL;`, maybe `static`. -/
  | declare (stored : Bool) (target : String)
  /-- `target = new IntExpr( (signed long int)value );` -/
  | newInt (target : String) (value : Int)
  /-- `target = new RatExpr( num, den );` -/
  | newRat (target : String) (num den : Int)
  /-- `target = source;` -/
  | copy (target source : String)
  /-- `target = NULL;` -/
  | null (target : String)
  /-- `var->inc();` -/
  | inc (var : String)
  /-- `var->dec();` -/
  | dec (var : String)
  /-- `target = function( args );` -/
  | call (target function : String) (args : List String)
  /-- `target = new CExpr( APP, head, args );` -/
  | newApp (target head : String) (args : List String)
  /-- `Expr* target = scrutinee->followDefs()->get_head();` -/
  | head (target scrutinee : String)
  /-- `Expr* target = ((CExpr*)scrutinee->followDefs())->kids[index];` -/
  | kid (target scrutinee : String) (index : Nat)
  /-- `if( head==ctor ){ body }else if( .. ){ .. }else{ otherwise }` -/
  | cases (head : String) (branches : List (String × List Stmt)) (otherwise : List Stmt)
  /-- The report that no case matches, and `exit( 1 );`. -/
  | exit
  /-- The test of the class of the left operand; for each class a number that is declared,
  initialized, set to the result of the operation and made an expression: `mpz_` operations or
  `mpq_` ones. -/
  | arith (onInt onRat : Op) (number target left right : String)
  /-- The same for `mpz_neg` and `mpq_neg`. -/
  | neg (number target operand : String)
  /-- `mpq_t number; mpq_init(number); mpq_set_num( number, .. ); target = new RatExpr(number);` -/
  | toRational (number target operand : String)
  /-- The test of the class of the operand, and for each class the test of its sign. -/
  | ifNumeral (op : Op) (operand : String) (intYes intNo ratYes ratNo : List Stmt)
  /-- `if (var->getclass() != SYM_EXPR) { exit( 1 ); }` -/
  | checkSym (var : String)
  /-- `clearmark` if the mark is set, `setmark` otherwise. -/
  | toggleMark (var : String) (index : Nat)
  /-- `if ( ((SymExpr*)var->followDefs())->getmark(index)){ yes }else{ no }` -/
  | ifMarked (var : String) (index : Nat) (yes no : List Stmt)
  /-- `if( ((SymExpr*)left)->followDefs() < ((SymExpr*)right)->followDefs() ){ yes }else{ no }` -/
  | compare (left right : String) (yes no : List Stmt)
  /-- `if( left->defeq( right) ){ yes }else{ no }` -/
  | ifEqual (left right : String) (yes no : List Stmt)

/-- A function, which returns the value of a variable at its end. -/
structure Function where
  /-- The name. -/
  name : String
  /-- The names of the parameters. -/
  params : List String
  /-- The body. -/
  body : List Stmt
  /-- The variable that is returned. -/
  result : String

/-- What is written to `scccode.cpp`. -/
structure File where
  /-- The symbols that are looked up in the symbol table, each in a variable of its own. -/
  globals : List String
  /-- The functions, each with the program that it is called for. -/
  functions : List (Ref × Function)

/-! ## Runs -/

/-- A pointer to an expression, which may be null. -/
abbrev Pointer : Type := Option Val

/-- The variables that are visible, with their values. -/
abbrev Locals : Type := String → Option Pointer

/-- What a function sees of the file: the functions and the global variables. -/
structure Linked where
  /-- What a function returns for its arguments, if it returns. -/
  calls : String → List Pointer → Option Pointer
  /-- The values of the global variables. -/
  globals : String → Option Pointer

section Runs

variable (linked : Linked)

/-- The value of a variable. -/
def read (locals : Locals) (var : String) : Option Pointer :=
  match locals var with
  | some pointer => some pointer
  | none => linked.globals var

/-- The expression that a variable points to. -/
def object (locals : Locals) (var : String) : Option Val := (read linked locals var).join

/-- Declare a variable, which hides no other one. -/
def declare (locals : Locals) (var : String) (pointer : Pointer) : Option Locals :=
  match read linked locals var with
  | some _ => none
  | none => some (Function.update locals var (some pointer))

/-- Assign to a local variable. -/
def assign (locals : Locals) (var : String) (pointer : Pointer) : Option Locals :=
  match locals var with
  | some _ => some (Function.update locals var (some pointer))
  | none => none

/-- The end of a block, where the variables that it declared are no longer visible. -/
def leave (outer inner : Locals) : Locals := fun var =>
  match outer var with
  | some _ => inner var
  | none => none

/-- `kids[index]` of an expression; the array ends with a null pointer. -/
def kidOf : Val → Nat → Option Pointer
  | .app head args, index =>
      if index ≤ args.length + 1 then some ((head :: args)[index]?) else none
  | _, _ => none

/-- The test that no variable has a name, where a number is declared or a function is called. -/
def unnamed (locals : Locals) (name : String) : Option Unit :=
  match read linked locals name with
  | some _ => none
  | none => some ()

mutual

/-- What a statement does, `none` where it is undefined or the process exits. -/
def exec (locals : Locals) : Stmt → Option Locals
  | .declare _ target => declare linked locals target none
  | .newInt target value => assign locals target (some (.int value))
  | .newRat target num den =>
      if den = 0 then none else assign locals target (some (.rat ((num : Rat) / (den : Rat))))
  | .copy target source => do assign locals target (← read linked locals source)
  | .null target => assign locals target none
  | .inc var | .dec var => do
      let _ ← object linked locals var
      return locals
  | .call target function args => do
      unnamed linked locals function
      let pointers ← args.mapM (read linked locals)
      assign locals target (← linked.calls function pointers)
  | .newApp target head args => do
      let head ← object linked locals head
      let pointers ← args.mapM (read linked locals)
      -- The kids end with the first null pointer.
      assign locals target (some (.app head (pointers.takeWhile Option.isSome).reduceOption))
  | .head target scrutinee => do
      let value ← object linked locals scrutinee
      declare linked locals target (some value.getHead)
  | .kid target scrutinee index => do
      declare linked locals target (← kidOf (← object linked locals scrutinee) index)
  | .cases head branches otherwise => do
      let value ← object linked locals head
      return leave locals (← execCases locals value (execAll locals otherwise) branches)
  | .arith onInt onRat number target left right => do
      unnamed linked locals number
      match ← object linked locals left with
      | .int m =>
          match ← object linked locals right with
          | .int n => assign locals target (some (.int (← intArith onInt m n)))
          | _ => none
      | .rat p =>
          match ← object linked locals right with
          | .rat q => assign locals target (some (.rat (← ratArith onRat p q)))
          | _ => none
      | _ => return locals
  | .neg number target operand => do
      unnamed linked locals number
      match ← object linked locals operand with
      | .int value => assign locals target (some (.int (-value)))
      | .rat value => assign locals target (some (.rat (-value)))
      | _ => return locals
  | .toRational number target operand => do
      match ← object linked locals operand with
      | .int value => assign (← declare linked locals number none) target (some (.rat value))
      | _ => none
  | .ifNumeral op operand intYes intNo ratYes ratNo => do
      match ← object linked locals operand with
      | .int value =>
          if (if op = .ifneg then value < 0 else value = 0) then
            return leave locals (← execAll locals intYes)
          else return leave locals (← execAll locals intNo)
      | .rat value =>
          if (if op = .ifneg then value < 0 else value = 0) then
            return leave locals (← execAll locals ratYes)
          else return leave locals (← execAll locals ratNo)
      | _ => return locals
  | .exit | .checkSym _ | .toggleMark _ _ | .ifMarked _ _ _ _ | .compare _ _ _ _
  | .ifEqual _ _ _ _ => none

/-- One statement after the other. -/
def execAll (locals : Locals) : List Stmt → Option Locals
  | [] => some locals
  | stmt :: rest => do execAll (← exec locals stmt) rest

/-- The first branch whose constructor is the head, or what is done otherwise. -/
def execCases (locals : Locals) (head : Val) (otherwise : Option Locals) :
    List (String × List Stmt) → Option Locals
  | [] => otherwise
  | (ctor, body) :: rest => do
      if head = (← object linked locals ctor) then execAll locals body
      else execCases locals head otherwise rest

end

end Runs

/-- The parameters of a function, with its arguments. -/
def Function.enter (function : Function) (args : List Pointer) : Locals := fun var =>
  ((function.params.zip args).lookup var)

/-- A call of a function: its parameters must be as many as its arguments. -/
def Function.call (function : Function) (linked : Linked) (args : List Pointer) :
    Option Pointer := do
  if function.params.length ≠ args.length then none
  read linked (← execAll linked (function.enter args) function.body) function.result

/-- The global variables, initialized from the symbol table. -/
def File.global (file : File) (symbols : String → Pointer) (var : String) : Option Pointer :=
  (file.globals.find? fun name => "e_" ++ name = var).map symbols

/-- The functions of a file, to a bounded depth of calls. -/
def File.calls (file : File) (symbols : String → Pointer) : Nat → String → List Pointer →
    Option Pointer
  | 0, _, _ => none
  | depth + 1, name, args => do
      let (_, function) ← file.functions.find? fun entry => entry.2.name = name
      function.call ⟨file.calls symbols depth, file.global symbols⟩ args

/-- `run_compiled_scc`: the function of a program. -/
def File.run (file : File) (symbols : String → Pointer) (depth : Nat) (prog : Ref)
    (args : List Pointer) : Option Pointer := do
  let (_, function) ← file.functions.find? fun entry => entry.1 = prog
  file.calls symbols depth function.name args

end Compiled

end Lfsc
