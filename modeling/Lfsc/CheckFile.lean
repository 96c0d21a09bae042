import Lfsc.Check

/-!
# Top-level commands

`check_file` reads commands until the end of the file.  A run of the checker starts from `init` and
goes through the commands of some sequence of files.
-/

namespace Lfsc

/-- Report that a top-level identifier was bound before. -/
def rejectRebind (prev : Binding) : CheckerM Unit := do
  if prev.expr ≠ none ∨ prev.type ≠ none then
    report "The top-level identifier was already bound"

/-- `define`. -/
def cmdDefine (fuel : Nat) : CheckerM Unit := do
  let id ← prefixId
  let prevo ← getOpenParens
  let t ← check fuel { create := true, computed := true, returnPos := true }
  eatExcess prevo
  let type ← deref t.computed
  if (← getop (← follow type)) = some .kind then
    report "Kind-level definitions are not supported.\n"
  let s ← newSym id
  rejectRebind (← insertAndBindSymbol fuel id s (← deref t.term) (some type))

/-- `declare`. -/
def cmdDeclare (fuel : Nat) : CheckerM Unit := do
  let id ← prefixId
  let prevo ← getOpenParens
  let t ← check fuel { create := true, computed := true, returnPos := true }
  eatExcess prevo
  if ¬ (← isTypeOrKind (← deref t.computed)) then
    report "The expression declared is neither\na type nor a kind.\n"
  let s ← newSym id
  rejectRebind (← symbolsInsert id ⟨some s, t.term⟩)

/-- `declare-rule`. -/
def cmdDeclareRule (fuel : Nat) : CheckerM Unit := do
  let id ← prefixId
  let decls ← checkDeclList fuel true (check fuel)
  let ret ← check fuel { create := true, computed := true }
  restoreBindings decls.oldBindings
  let (type, _) ← buildValidatePi fuel decls.decls ret.term (← deref ret.computed) true
  let s ← newSym id
  rejectRebind (← symbolsInsert id ⟨some s, type⟩)

/-- `declare-type`. -/
def cmdDeclareType (fuel : Nat) : CheckerM Unit := do
  let id ← prefixId
  let decls ← checkDeclList fuel true (check fuel)
  restoreBindings decls.oldBindings
  let (type, _) ← buildValidatePi fuel decls.decls (some statType) statKind true
  let s ← newSym id
  rejectRebind (← symbolsInsert id ⟨some s, type⟩)

/-- The loop of `build_macro`, from the last declaration to the first. -/
def buildMacroFrom (fuel : Nat) : List (Ref × Option Ref) → Option Ref → Option Ref →
    StoreM (Option Ref × Option Ref)
  | [], ret, retType => return (ret, retType)
  | (sym, type) :: earlier, ret, retType => do
      let _ ← deref type
      let pi ← newPi fuel (some sym) type retType
      if ← getFlag pi then report "The type of an annotated lambda is dependent."
      setKid pi 0 (← newSym (← symName sym))
      let lam ← newCExpr .lam [some sym, ret]
      setFlag lam true
      buildMacroFrom fuel earlier (some lam) (some pi)

/-- `build_macro`. -/
def buildMacro (fuel : Nat) (decls : List (Ref × Option Ref)) (ret retType : Option Ref) :
    StoreM (Option Ref × Option Ref) := buildMacroFrom fuel decls.reverse ret retType

/-- `define-const`. -/
def cmdDefineConst (fuel : Nat) : CheckerM Unit := do
  let id ← prefixId
  let decls ← checkDeclList fuel true (check fuel)
  let ret ← check fuel { create := true, computed := true }
  let (value, type) ← buildMacro fuel decls.decls ret.term ret.computed
  restoreBindings decls.oldBindings
  let s ← newSym id
  rejectRebind (← insertAndBindSymbol fuel id s (← deref value) type)

/-- The end of `check` and `check-assuming`: local names are restored and marks cleared. -/
def cleanUp (prev : Int) : CheckerM Unit := do
  restoreBindings (← get).localSymNames
  modify fun checker =>
    { checker with
      localSymNames := []
      runtime := { checker.runtime with marks := fun _ _ => false } }
  eatExcess prev

/-- `check`. -/
def cmdCheck (fuel : Nat) : CheckerM Unit := do
  let prev ← getOpenParens
  modify fun checker => { checker with bigCheck := true }
  let t ← check fuel { create := false, computed := true, returnPos := true }
  modify fun checker => { checker with ascHoles := [] }
  let _ ← deref t.computed
  cleanUp prev

/-- `check-assuming`. -/
def cmdCheckAssuming (fuel : Nat) : CheckerM Unit := do
  let prev ← getOpenParens
  let decls ← checkDeclList fuel false (check fuel)
  let type ← check fuel { create := true, expected := some statType }
  let _ ← check fuel { create := false, expected := some (← deref type.term) }
  restoreBindings decls.oldBindings
  cleanUp prev

/-- `opaque`. -/
def cmdOpaque (fuel : Nat) : CheckerM Unit := do
  let id ← prefixId
  let prevo ← getOpenParens
  let t ← check fuel { create := false, computed := true, returnPos := true }
  eatExcess prevo
  let type ← deref t.computed
  if (← getop (← follow type)) = some .kind then
    report "Kind-level definitions are not supported.\n"
  let s ← newSym id
  rejectRebind (← symbolsInsert id ⟨some s, some type⟩)

/-- `run`. -/
def cmdRun (fuel : Nat) : CheckerM Unit := do
  let code ← deref (← readCode fuel)
  let _ ← checkCode fuel code
  let _ ← runCode fuel code

/-- The loop of `program` and `function` over the parameters: names, symbols and types. -/
def readParams (fuel : Nat) : Nat → List (String × Ref × Ref) → CheckerM (List (String × Ref × Ref))
  | 0, _ => outOfFuel
  | rounds + 1, acc => do
      let d ← nextToken
      if d = .Close then return acc
      reinsertToken d
      eatToken .Open
      let name ← prefixId
      if (← symbolsGet name).expr ≠ none then
        report "A program variable is already declared (as a constant).\n"
      let var ← newSym name
      let prev ← getOpenParens
      let type ← check fuel { create := true, computed := true, returnPos := true }
      let type ← deref type.term
      checkProper fuel type "A program argument's type is neither proper, nor a datatype."
      eatExcess prev
      eatToken .Close
      let _ ← symbolsInsert name ⟨some var, some type⟩
      readParams fuel rounds (acc ++ [(name, var, type)])

/-- The type of a program, from the last parameter to the first. -/
def progType (fuel : Nat) : List (String × Ref × Ref) → Ref → StoreM Ref
  | [], ret => return ret
  | (_, var, type) :: earlier, ret => do
      progType fuel earlier (← newPi fuel (some var) (some type) (some ret))

/-- Unbind the parameters of a program. -/
def unbindParams (params : List (String × Ref × Ref)) : CheckerM Unit :=
  params.forM fun param => do let _ ← symbolsInsert param.1 Binding.none

/-- A new program symbol, entered into `progs` and, for `function`, into `progFunctions`. -/
def declareProg (progstr : String) (isFunction : Bool) : CheckerM Ref := do
  let prog ← newSym progstr
  if (← get).progs progstr ≠ none then report "Redeclaring program "
  modify fun checker =>
    { checker with progs := Function.update checker.progs progstr (some (some prog)) }
  if isFunction then
    modify fun checker =>
      { checker with
        runtime := { checker.runtime with
          progFunctions := prog :: checker.runtime.progFunctions } }
  return prog

/-- The return type and the body of a program, which may call itself: the expression that defines
it. -/
def readProgram (fuel : Nat) (prog : Ref) (params : List (String × Ref × Ref)) : CheckerM Ref := do
  let prev ← getOpenParens
  let ret ← check fuel
    { create := true, expected := some statType, computed := true, returnPos := true }
  let ret ← deref ret.term
  eatExcess prev
  checkProper fuel ret "A program's return type is neither proper, nor a datatype."
  let code ← readCode fuel
  let type ← progType fuel params.reverse ret
  setSymVal prog (some (← newCExpr .prog [some type]))
  let bodyType ← checkCode fuel (← deref code)
  if ¬ (← defeq fuel (← deref bodyType) ret) then
    report "Return type for a program does not match its body.\n"
  let vars ← newCExpr .progvars (params.map fun param => some param.2.1)
  newCExpr .prog [some type, some vars, code]

/-- `program` and `function`. -/
def cmdProgram (fuel : Nat) (isFunction : Bool) : CheckerM Unit := do
  let prog ← declareProg (← prefixId) isFunction
  eatToken .Open
  let params ← readParams fuel fuel []
  if params = [] then report "A program lacks input variables."
  let body ← readProgram fuel prog params
  unbindParams params
  setSymVal prog (some body)

/-- The command that a token starts. -/
def command (fuel : Nat) : Token → CheckerM Unit
  | .Define => cmdDefine fuel
  | .Declare => cmdDeclare fuel
  | .DeclareRule => cmdDeclareRule fuel
  | .DeclareType => cmdDeclareType fuel
  | .DefineConst => cmdDefineConst fuel
  | .Check => cmdCheck fuel
  | .CheckAssuming => cmdCheckAssuming fuel
  | .Opaque => cmdOpaque fuel
  | .Run => cmdRun fuel
  | .Program => cmdProgram fuel false
  | .Function => cmdProgram fuel true
  | _ => report "Acceptable top-level commands are:"

/-- The loop of `check_file`. -/
def checkFile (fuel : Nat) : Nat → CheckerM Unit
  | 0 => outOfFuel
  | rounds + 1 => do
      match ← nextToken with
      | .Eof => return ()
      | .Open =>
          command fuel (← nextToken)
          checkFile fuel rounds
      | .Close => checkFile fuel rounds
      | _ => report "Top-level commands must start with parentheses"

/-- `init`: the built-in expressions and the identifiers bound to them. -/
def initChecker (before : Ref → Ref → Bool) (fewer : Nat → Bool) : Checker where
  runtime :=
    { store :=
        { heap := [.cexpr .type [] false, .cexpr .kind [] false, .cexpr .mpz [] false,
            .cexpr .mpq [] false]
          before
          fewer
          asked := 0 }
      marks := fun _ _ => false
      progFunctions := []
      cache := []
      events := [] }
  symbols := fun name =>
    if name = "type" then ⟨some statType, some statKind⟩
    else if name = "mpz" then ⟨some statMpz, some statType⟩
    else if name = "mpq" then ⟨some statMpq, some statType⟩
    else Binding.none
  progs := fun _ => none
  localSymNames := []
  ascHoles := []
  openParens := 0
  allowRun := false
  tailCalls := true
  bigCheck := true
  input := []
  text := ""
  peeked := []
  trace := []
  holeTrace := []

/-! ## Runs -/

/-- What happens between two states of the loop of `check_file`. -/
inductive Action
  /-- A file ends and the next one, with these tokens and this option, is opened. -/
  | openFile (lexemes : List Lexeme) (tailCalls : Bool)
  /-- A closing parenthesis is skipped. -/
  | skip
  /-- The command that a token starts is accepted. -/
  | command (token : Token)

/-- One step of the checker. -/
inductive Step : Checker → Action → Checker → Prop
  | openFile {before ended : Checker} (lexemes : List Lexeme) (tailCalls : Bool)
      (eof : nextToken.run before = .ok (.Eof, ended)) :
      Step before (.openFile lexemes tailCalls) { ended with input := lexemes, tailCalls }
  | skip {before after : Checker} (close : nextToken.run before = .ok (.Close, after)) :
      Step before .skip after
  | command {before opened start after : Checker} {token : Token} (fuel : Nat)
      (open_ : nextToken.run before = .ok (.Open, opened))
      (name : nextToken.run opened = .ok (token, start))
      (accepted : (command fuel token).run start = .ok ((), after)) :
      Step before (.command token) after

/-- The states met by a run all of whose steps satisfy a condition. -/
inductive RunWith (condition : Checker → Action → Checker → Prop) : Checker → Prop
  | init (before : Ref → Ref → Bool) (fewer : Nat → Bool) :
      RunWith condition (initChecker before fewer)
  | step {current next : Checker} {action : Action} (run : RunWith condition current)
      (step : Step current action next) (meets : condition current action next) :
      RunWith condition next

/-- The states met by a run. -/
def Reachable (state : Checker) : Prop := RunWith (fun _ _ _ => True) state

end Lfsc
