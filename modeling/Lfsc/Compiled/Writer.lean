import Lfsc.Compiled.Cpp
import Mathlib.Algebra.Group.Int.Defs

/-!
# The side-condition writer

`sccwriter` writes a C++ function for every program.  Names are mapped to C++ names character by
character, values are kept in numbered variables, and a list of names, which only grows within a
program, tells the variables of a program from the symbols of the signature.
-/

namespace Lfsc

namespace Compiled

/-- The lists and counters of an `sccwriter`. -/
structure Writer where
  /-- The names that count as variables. -/
  vars : List String
  /-- The symbols to look up. -/
  globalSyms : List String
  /-- How many variables were numbered. -/
  exprCount : Nat
  /-- How many numbers were numbered. -/
  rnumCount : Nat
  deriving DecidableEq, Repr

/-- Computations of the writer, which stop where what is written is not C++. -/
abbrev WriteM (α : Type) : Type := Exec Writer Unit α

/-- What is written is C++ under a condition only. -/
def demand (condition : Prop) [Decidable condition] : WriteM Unit :=
  if condition then return () else Exec.stop ()

/-! ## Names -/

/-- A character of a name, in signed arithmetic on bytes. -/
def getVarChar (c : Char) : Char :=
  let code := c.toNat
  let code := if code ≤ 47 ∨ 128 ≤ code then (code + 65) % 256
    else if 58 ≤ code ∧ code ≤ 64 then code + (97 - 58) else code
  let code := if 91 ≤ code ∧ code ≤ 94 ∨ code = 96 then code + (104 - 91)
    else if 123 ≤ code ∧ code ≤ 127 then code - 4 else code
  Char.ofNat code

/-- `get_var_name`. -/
def getVarName (name : String) : String := name.map getVarChar

/-- `get_function_name`. -/
def getFunctionName (name : String) : String := "f_" ++ name

/-- The variable of a symbol that is looked up. -/
def globalName (name : String) : String := "e_" ++ name

/-- A numbered variable. -/
def exprName (number : Nat) : String := "e" ++ number.repr

/-- A numbered number. -/
def numberName (number : Nat) : String := "rnum" ++ number.repr

/-- `mpz_get_si`: an integer that does not fit a `signed long` loses its high bits. -/
def getSi (value : Int) : Int :=
  if 0 ≤ value then value % 2 ^ 63 else -1 - (-1 - value) % 2 ^ 63

/-! ## Lists and counters -/

/-- `is_var`. -/
def isVar (name : String) : WriteM Bool := do return name ∈ (← get).vars

/-- A name is added to the variables. -/
def addVar (name : String) : WriteM Unit :=
  modify fun writer => { writer with vars := writer.vars ++ [name] }

/-- `add_global_sym`. -/
def addGlobalSym (name : String) : WriteM Unit :=
  modify fun writer =>
    if name ∈ writer.globalSyms then writer
    else { writer with globalSyms := writer.globalSyms ++ [name] }

/-- The next numbered variable. -/
def newExpr : WriteM String := do
  let number := (← get).exprCount
  modify fun writer => { writer with exprCount := writer.exprCount + 1 }
  return exprName number

/-- The next numbered number. -/
def newNumber : WriteM String := do
  let number := (← get).rnumCount
  modify fun writer => { writer with rnumCount := writer.rnumCount + 1 }
  return numberName number

/-! ## Code -/

section Code

variable (sig : Signature) (text : Ref → String) (progs : List Ref)

/-- `write_code` on a symbol. -/
def writeSym (target : String) (name : Ref) : WriteM (List Stmt) := do
  let var := getVarName (text name)
  if ← isVar (text name) then return [.copy target var, .inc target]
  else
    addGlobalSym var
    return [.copy target (globalName var), .inc target]

/-- Whether code is a symbol that counts as a variable. -/
def isKnown : Code → WriteM Bool
  | .sym name => isVar (text name)
  | _ => return false

/-- Whether code is a symbol, for which the variable is `static`. -/
def isSym : Code → Bool
  | .sym _ => true
  | _ => false

/-- `write_expr` on code that `write_code` writes. -/
def writeExprWith (check : Bool) (code : Code) (write : String → WriteM (List Stmt)) :
    WriteM (List Stmt × String) := do
  let known ← isKnown text code
  match code, known with
  | .sym name, true => return ([.inc (getVarName (text name))], getVarName (text name))
  | _, _ =>
      let target ← newExpr
      let written ← write target
      addVar target
      return (.declare (isSym code) target :: written ++
        if check then [.checkSym target] else [], target)

/-- `write_expr` on a symbol. -/
def writeSymExpr (name : Ref) : WriteM (List Stmt × String) :=
  writeExprWith text false (.sym name) fun target => writeSym text target name

/-- `write_expr` on the head of an application that is no call. -/
def writeHead (head : Ref) : WriteM (List Stmt × String) := do
  match sig head with
  | .program _ _ =>
      -- The value of the symbol is written: a program, for which `write_code` writes nothing.
      let target ← newExpr
      addVar target
      return ([.declare false target], target)
  | _ => writeSymExpr text head

/-- `write_expr` on a case, which writes the head of its pattern. -/
def writeCtor (ctor : Ref) : WriteM (List Stmt × String) := do
  let target ← newExpr
  let written ← writeSym text target ctor
  addVar target
  return (.declare false target :: written, target)

/-- `write_args` on the cases of a `match`. -/
def writeCtors : List (Pattern × Code) → WriteM (List Stmt × List String)
  | (.ctor ctor _, _) :: rest => do
      let (written, target) ← writeCtor text ctor
      let (more, targets) ← writeCtors rest
      return (written ++ more, target :: targets)
  | _ => return ([], [])

/-- The variables of a pattern are set to the arguments of the scrutinee. -/
def writePattern (scrutinee : String) : Nat → List Ref → WriteM (List Stmt)
  | _, [] => return []
  | index, var :: rest => do
      addVar (text var)
      let more ← writePattern scrutinee (index + 1) rest
      return .kid (getVarName (text var)) scrutinee (index + 1) :: more

/-- The default of a `match` is its last case; otherwise an `else` without `if` is written. -/
def defaultLast : List (Pattern × Code) → Bool
  | [] => true
  | (.ctor _ _, _) :: rest => defaultLast rest
  | (.default, _) :: rest => rest.isEmpty

mutual

/-- `write_code`. -/
def writeCode (target : String) : Code → WriteM (List Stmt)
  | .int value => return [.newInt target (getSi value), .inc target]
  | .rat value => return [.newRat target (getSi value.num) (getSi value.den), .inc target]
  | .sym name => writeSym text target name
  | .apply head args => do
      let (written, exprs) ← writeArgs args
      match sig head, decide (head ∈ progs) with
      | .program _ _, true =>
          return written ++ .call target (getFunctionName (text head)) exprs :: exprs.map .dec
      | _, _ =>
          let (more, expr) ← writeHead sig text head
          -- `CExpr` has constructors for one to three arguments besides the head.
          demand (0 < exprs.length ∧ exprs.length ≤ 3)
          return written ++ more ++ [.newApp target expr exprs]
  | .fail => return [.null target]
  | .do_ first second => do
      let (written, expr) ← writeExprWith text false first (writeCode · first)
      let more ← writeCode target second
      return written ++ .dec expr :: more
  | .let_ var value body => do
      let name := getVarName (text var)
      let written ← writeCode name value
      addVar (text var)
      let more ← writeCode target body
      return .declare false name :: written ++ more ++ [.dec name]
  | .arith op left right => do
      let (written, expr1) ← writeExprWith text false left (writeCode · left)
      let (more, expr2) ← writeExprWith text false right (writeCode · right)
      let number ← newNumber
      let onInt := if op = .add then .add else .mul
      return written ++ more ++ [.arith onInt op number target expr1 expr2, .dec expr1, .dec expr2]
  | .neg operand => do
      let (written, expr) ← writeExprWith text false operand (writeCode · operand)
      let number ← newNumber
      return written ++ [.neg number target expr, .dec expr]
  | .mpzToMpq operand => do
      let (written, expr) ← writeExprWith text false operand (writeCode · operand)
      let number ← newNumber
      return written ++ [.toRational number target expr, .dec expr]
  | .ifNumeral op operand yes no => do
      let (written, expr) ← writeExprWith text false operand (writeCode · operand)
      -- Both branches are written twice, once for each class.
      let intYes ← writeCode target yes
      let intNo ← writeCode target no
      let ratYes ← writeCode target yes
      let ratNo ← writeCode target no
      return written ++ [.ifNumeral op expr intYes intNo ratYes ratNo, .dec expr]
  | .ifMarked index operand yes no => do
      let (written, expr) ← writeExprWith text true operand (writeCode · operand)
      let first ← writeCode target yes
      let second ← writeCode target no
      return written ++ [.ifMarked expr index first second, .dec expr]
  | .compare left right yes no => do
      let (written, expr1) ← writeExprWith text true left (writeCode · left)
      let (more, expr2) ← writeExprWith text true right (writeCode · right)
      let first ← writeCode target yes
      let second ← writeCode target no
      return written ++ more ++ [.compare expr1 expr2 first second, .dec expr1, .dec expr2]
  | .ifEqual left right yes no => do
      let (written, expr1) ← writeExprWith text true left (writeCode · left)
      let (more, expr2) ← writeExprWith text true right (writeCode · right)
      let first ← writeCode target yes
      let second ← writeCode target no
      return written ++ more ++ [.ifEqual expr1 expr2 first second, .dec expr1, .dec expr2]
  | .markVar index operand => do
      let (written, expr) ← writeExprWith text true operand (writeCode · operand)
      return written ++ [.toggleMark expr index, .copy target expr, .inc target, .dec expr]
  | .match_ scrutinee branches => do
      demand (defaultLast branches)
      let (written, expr) ← writeExprWith text false scrutinee (writeCode · scrutinee)
      let head ← newExpr
      let (more, exprs) ← writeMatchArgs branches
      let (cases, otherwise) ← writeBranches target expr exprs branches
      return written ++ .head head expr :: more ++
        .cases head cases otherwise :: .dec expr :: exprs.map .dec

/-- `write_expr` on the arguments of an application. -/
def writeArgs : List Code → WriteM (List Stmt × List String)
  | [] => return ([], [])
  | arg :: rest => do
      let (written, expr) ← writeExprWith text false arg (writeCode · arg)
      let (more, exprs) ← writeArgs rest
      return (written ++ more, expr :: exprs)

/-- `write_args`: the constructors of the cases, or the default where it is the only case. -/
def writeMatchArgs : List (Pattern × Code) → WriteM (List Stmt × List String)
  | [(.default, body)] => do
      match body with
      | .sym name => return ([], [text name])
      | _ =>
          let (written, expr) ← writeExprWith text false body (writeCode · body)
          return (written, [expr])
  | branches => writeCtors text branches

/-- The cases of a `match`. -/
def writeBranches (target scrutinee : String) : List String → List (Pattern × Code) →
    WriteM (List (String × List Stmt) × List Stmt)
  | _, [] => return ([], [.exit])
  | _, (.default, body) :: _ => do return ([], ← writeCode target body)
  | exprs, (.ctor _ vars, body) :: rest => do
      let kids ← writePattern text scrutinee 0 vars
      let written ← writeCode target body
      let (cases, otherwise) ← writeBranches target scrutinee exprs.tail rest
      return ((exprs.headD "", kids ++ written) :: cases, otherwise)

end

/-- `write_expr`. -/
def writeExpr (code : Code) : WriteM (List Stmt × String) :=
  writeExprWith text false code (writeCode sig text progs · code)

/-- `write_file` on a program: its header and its body. -/
def writeFunction (prog : Ref) : WriteM (Ref × Function) := do
  match sig prog with
  | .program params body =>
      modify fun writer =>
        { writer with vars := params.map text, exprCount := 0, rnumCount := 0 }
      let (written, expr) ← writeExpr sig text progs body
      return (prog,
        { name := getFunctionName (text prog)
          params := params.map fun param => getVarName (text param)
          body := written
          result := expr })
  | _ => Exec.stop ()

/-- `write_file`. -/
def writeFile : Option File :=
  match (progs.mapM (writeFunction sig text progs)).run ⟨[], [], 0, 0⟩ with
  | .ok (functions, writer) => some { globals := writer.globalSyms, functions }
  | .error _ => none

end Code

end Compiled

end Lfsc
