import Lfsc.ReadCode

/-!
# Types of side-condition code

`compute_kind` and `check_code`.  Both look up types by the name of a symbol in the symbol table;
`check_code` binds pattern and `let` variables there by their names, without a symbol.
-/

namespace Lfsc

/-- `statType`. -/
def statType : Ref := 0

/-- `statKind`. -/
def statKind : Ref := 1

/-- `statMpz`. -/
def statMpz : Ref := 2

/-- `statMpq`. -/
def statMpq : Ref := 3

/-! ## Kinds -/

/-- The loop of `compute_kind` over the arguments of an application: the kind reached, the number of
arguments left and the variables assigned with their old values, last first. -/
def kindOfArgs (self : Ref → CheckerM Ref) :
    List Ref → Ref → List (Ref × Option Ref) → CheckerM (Ref × List Ref × List (Ref × Option Ref))
  | [], head, prevs => return (head, [], prevs)
  | arg :: rest, head, prevs => do
      if (← getop head) = some .pi then
        let actual ← follow arg
        let range ← kid head 2
        let var ← kid head 0
        let prev ← symVal var
        setSymVal var (some actual)
        kindOfArgs self rest (← self range) ((var, prev) :: prevs)
      else return (head, arg :: rest, prevs)

/-- `compute_kind`. -/
def computeKind : Nat → Ref → CheckerM Ref
  | 0, _ => outOfFuel
  | fuel + 1, r => do
      let e ← follow r
      match ← load e with
      | .cexpr .app kids _ =>
          let head ← computeKind fuel (← kid e 0)
          let (head, left, prevs) ← kindOfArgs (computeKind fuel) (kids.drop 1) head []
          if left ≠ [] ∧ (← getop head) ≠ some .pi then
            report "the expression applied to some arguments is not a function"
          restoreVals prevs
          return head
      | .cexpr .mpq _ _ | .cexpr .mpz _ _ => return statType
      | .cexpr _ _ _ => return e
      | .sym name _ =>
          match (← symbolsGet name).type with
          | some type => return type
          | none => return e
      | .int _ | .rat _ => return e
      | .hole _ => report "Hole expression have no kind."

/-- `Expr::isDatatype`. -/
def isDatatype (r : Ref) : StoreM Bool := do
  match ← load r with
  | .sym _ _ | .cexpr .mpz _ _ | .cexpr .mpq _ _ => return true
  | _ => return false

/-! ## Types -/

/-- A type computed for code, followed through definitions. -/
def followType (type : Option Ref) : CheckerM Ref := do follow (← deref type)

/-- The test that `check_code` makes after two branches: their types are the same object. -/
def sameBranchType (first second : Option Ref) (message : String) : CheckerM (Option Ref) := do
  let left ← followType first
  let right ← followType second
  if left ≠ right then report message
  return some left

/-- The test of `check_code` on a symbol that is marked: its type is a symbol without a value, and
the type of that symbol ends in `type`. -/
def checkMarked (type : Option Ref) (message : String) : CheckerM Unit := do
  let type ← deref type
  let kind ←
    match ← load type with
    | .sym name none => do pure (← symbolsGet name).type
    | _ => pure none
  match kind with
  | some kind => do if ¬ (← isType kind statType) then report message
  | none => report message

/-- The test of `check_code` on an operand of `compare`: its type is a symbol without a value. -/
def checkCompared (type : Option Ref) (message : String) : CheckerM Unit := do
  match ← load (← deref type) with
  | .sym _ none => return ()
  | _ => report message

/-- The type of the head of an application in `check_code`, given the head followed through
definitions. -/
def headType (e head : Ref) : CheckerM Ref := do
  let type ←
    match ← load head with
    | .cexpr .prog _ _ => some <$> kid head 0
    | .sym name _ => do pure (← symbolsGet name).type
    | _ =>
        match ← load (← kid e 0) with
        | .sym name _ => do pure (← symbolsGet name).type
        | _ => report "An application's head is neither a program nor symbol"
  match type with
  | some type => follow type
  | none => report "The head of an application is missing a type in code."

/-- The test of `check_code` on the type of an argument: it is the domain of the function, or
applies the domain to arguments. -/
def checkArgType (fuel : Nat) (argtp domain : Ref) : StoreM Unit := do
  let typesMatch ← defeq fuel argtp domain
  let appTypesMatch ←
    if (← getop argtp) = some .app then do defeq fuel (← kid argtp 0) domain
    else pure false
  if ¬ typesMatch ∧ ¬ appTypesMatch then
    report "Type mismatch for argument in application in code."

/-- The test of `check_code` that a pi abstraction is not dependent; a flag left by an application
is computed anew and set again. -/
def checkIndependent (fuel : Nat) (cur : Ref) : StoreM Unit := do
  if ← getFlag cur then
    calcFreeIn fuel cur
    if ← getFlag cur then
      report "A dependently typed function is being applied in code."
    setFlag cur true

/-- The loop of `check_code` over the pi abstractions of the type of a head. -/
def checkCodeArgs (fuel : Nat) : Nat → List (Option Ref) → Ref → StoreM Ref
  | rounds, argtps, cur => do
      if (← getop cur) = some .pi then
        match argtps with
        | [] => report "A function is not being fully applied in code."
        | argtp :: rest =>
            checkArgType fuel (← deref argtp) (← kid cur 1)
            checkIndependent fuel cur
            let range ← kid cur 2
            match rounds with
            | 0 => outOfFuel
            | rounds + 1 => checkCodeArgs fuel rounds rest range
      else if argtps ≠ [] then
        report "A function is being fully applied to too many arguments in code."
      else return cur

theorem checkCodeArgs_eq (fuel rounds : Nat) (argtps : List (Option Ref)) (cur : Ref) :
    checkCodeArgs fuel rounds argtps cur = do
      if (← getop cur) = some .pi then
        match argtps with
        | [] => report "A function is not being fully applied in code."
        | argtp :: rest =>
            checkArgType fuel (← deref argtp) (← kid cur 1)
            checkIndependent fuel cur
            let range ← kid cur 2
            match rounds with
            | 0 => outOfFuel
            | rounds + 1 => checkCodeArgs fuel rounds rest range
      else if argtps ≠ [] then
        report "A function is being fully applied to too many arguments in code."
      else return cur := by
  cases argtps with
  | nil => cases rounds <;> rfl
  | cons argtp rest => cases rounds <;> rfl

/-- The pattern variables of a case, bound to the domains of the type of its constructor: the old
bindings. -/
def bindPattern : List Ref → Ref → CheckerM (List (String × Binding) × Ref)
  | [], cur => return ([], cur)
  | var :: rest, cur => do
      let type ← follow cur
      if (← getop type) ≠ some .pi then
        report "Too many arguments to a constructor in a pattern."
      let name ← symName var
      let prev ← symbolsInsert name ⟨none, some (← kid type 1)⟩
      let (prevs, last) ← bindPattern rest (← kid type 2)
      return ((name, prev) :: prevs, last)

/-- The variables of the pattern of a case, bound for its body: the old bindings. -/
def checkPattern (pat : Ref) : CheckerM (List (String × Binding)) := do
  let (ctor, vars) ← collectArgs pat true
  let ctortp ← deref (← symbolsGet (← symName ctor)).type
  let (prevs, last) ← bindPattern vars ctortp
  if (← getop (← follow last)) = some .pi then
    report "Too few arguments to a constructor in a pattern."
  return prevs

/-- `check_code` on one case of a `match` or on its default. -/
def checkCase (self : Ref → CheckerM (Option Ref)) (case : Ref) : CheckerM (Option Ref) := do
  if (← getop case) ≠ some .case_ then self case
  else
    let pat ← kid case 0
    match ← load pat with
    | .sym _ _ => self (← kid case 1)
    | _ =>
        let prevs ← checkPattern pat
        let type ← self (← kid case 1)
        restoreBindings prevs
        return type

/-- The loop of `check_code` over the cases of a `match`, with the type of the first one. -/
def checkCases (fuel : Nat) (self : Ref → CheckerM (Option Ref)) :
    List Ref → Option Ref → CheckerM (Option Ref)
  | [], mtp => return mtp
  | case :: rest, mtp => do
      let type ← checkCase self case
      match mtp with
      | none => checkCases fuel self rest type
      | some mtp =>
          if ¬ (← defeq fuel mtp (← deref type)) then
            report "Types for bodies of match cases or the default differ."
          checkCases fuel self rest (some mtp)

/-- The test of `check_code` that a scrutinee has a proper type or a datatype; the same test is made
on the types of a program. -/
def checkProper (fuel : Nat) (type : Ref) (message : String) : CheckerM Unit := do
  let kind ← computeKind fuel type
  if kind ≠ statType ∧ ¬ (← isDatatype type) then report message

/-- The types `check_code` computes for the two operands of an arithmetic operation. -/
def checkArith (self : Ref → CheckerM (Option Ref)) (e : Ref) : CheckerM (Option Ref) := do
  let first ← self (← kid e 0)
  let second ← self (← kid e 1)
  let left ← followType first
  let right ← followType second
  if left ≠ statMpz ∧ left ≠ statMpq then
    report "Argument to mp_[arith] does not have type \"mpz\" or \"mpq\".\n"
  if left ≠ right then report "Arguments to mp_[arith] have differing types.\n"
  return some left

/-- The type of the operand of `mp_neg`, `mp_ifneg` and `mp_ifzero` in `check_code`. -/
def checkNumeral (self : Ref → CheckerM (Option Ref)) (e : Ref) (message : String) :
    CheckerM Ref := do
  let type ← followType (← self (← kid e 0))
  if type ≠ statMpz ∧ type ≠ statMpq then report message
  return type

/-- `check_code` on an application. -/
def checkCodeApp (fuel : Nat) (self : Ref → CheckerM (Option Ref)) (e : Ref) :
    CheckerM (Option Ref) := do
  let head ← follow (← kid e 0)
  let argtps ← ((kidsAt (← getHeap) e).drop 1).mapM self
  let type ← headType e head
  return some (← checkCodeArgs fuel fuel argtps type)

/-- `check_code` on a `do`. -/
def checkDo (self : Ref → CheckerM (Option Ref)) (e : Ref) : CheckerM (Option Ref) := do
  let _ ← self (← kid e 0)
  self (← kid e 1)

/-- `check_code` on an `@`. -/
def checkLet (self : Ref → CheckerM (Option Ref)) (e : Ref) : CheckerM (Option Ref) := do
  let name ← symName (← kid e 0)
  let type ← self (← kid e 1)
  let body ← kid e 2
  withBinding name ⟨none, type⟩ (self body)

/-- `check_code` on an `mpz_to_mpq`. -/
def checkMpzToMpq (self : Ref → CheckerM (Option Ref)) (e : Ref) : CheckerM (Option Ref) := do
  let type ← followType (← self (← kid e 0))
  if type ≠ statMpz then report "Argument to mpz_to_mpq does not have type \"mpz\".\n"
  return some statMpq

/-- The two branches of a conditional in `check_code`. -/
def checkBranches (self : Ref → CheckerM (Option Ref)) (e : Ref) (first : Nat)
    (message : String) : CheckerM (Option Ref) := do
  let yes ← self (← kid e first)
  let no ← self (← kid e (first + 1))
  sameBranchType yes no message

/-- `check_code` on an `mp_ifneg` or `mp_ifzero`. -/
def checkIfNumeral (self : Ref → CheckerM (Option Ref)) (e : Ref) : CheckerM (Option Ref) := do
  let _ ← checkNumeral self e "Argument to mp_if does not have type \"mpz\" or \"mpq\".\n"
  checkBranches self e 1
    "\"mp_if\" used with expressions that do not have equal datatypes\nfor their types.\n"

/-- `check_code` on a `fail`. -/
def checkFail (self : Ref → CheckerM (Option Ref)) (e : Ref) : CheckerM (Option Ref) := do
  let type ← deref (← self (← kid e 0))
  if type ≠ statType then report "\"fail\" is used with an expression which is not a type."
  some <$> onStore (kid e 0)

/-- `check_code` on a `markvar`. -/
def checkMarkVar (self : Ref → CheckerM (Option Ref)) (e : Ref) : CheckerM (Option Ref) := do
  let type ← self (← kid e 1)
  checkMarked type ("\"markvar\" is used with an expression which " ++
    "cannot be a non-variable or a lambda-bound variable.\n")
  return type

/-- `check_code` on an `ifmarked`. -/
def checkIfMarked (self : Ref → CheckerM (Option Ref)) (e : Ref) : CheckerM (Option Ref) := do
  let type ← self (← kid e 1)
  checkMarked type ("\"ifmarked\" is used with an expression which " ++
    "cannot be a non-variable or a lambda-bound variable.\n")
  checkBranches self e 2 ("\"ifmarked\" used with expressions that do not " ++
    "have equal datatypes\nfor their types.\n")

/-- `check_code` on a `compare`. -/
def checkCompare (self : Ref → CheckerM (Option Ref)) (e : Ref) : CheckerM (Option Ref) := do
  let left ← self (← kid e 0)
  checkCompared left ("\"compare\" is used with a first expression which " ++
    "cannot be a lambda-bound variable.\n")
  let right ← self (← kid e 1)
  checkCompared right ("\"compare\" is used with a second expression which " ++
    "cannot be a lambda-bound variable.\n")
  checkBranches self e 2 ("\"compare\" used with expressions that do not " ++
    "have equal simple datatypes\nfor their types.\n")

/-- `check_code` on an `ifequal`. -/
def checkIfEqual (self : Ref → CheckerM (Option Ref)) (e : Ref) : CheckerM (Option Ref) := do
  let left ← self (← kid e 0)
  let right ← self (← kid e 1)
  if left ≠ right then
    report "\"ifequal\" used with compare expressions that do not have equal types\n"
  checkBranches self e 2 ("\"ifequal\" used with return expressions that do not " ++
    "have equal datatypes\nfor their types.\n")

/-- `check_code` on a `match`. -/
def checkMatch (fuel : Nat) (self : Ref → CheckerM (Option Ref)) (e : Ref) :
    CheckerM (Option Ref) := do
  let scruttp ← deref (← self (← kid e 0))
  checkProper fuel scruttp "The match scrutinee's type is neither proper, nor a datatype"
  checkCases fuel self ((kidsAt (← getHeap) e).drop 1) none

/-- `check_code` on an expression with an operator. -/
def checkCodeCExpr (fuel : Nat) (self : Ref → CheckerM (Option Ref)) (op : Op) (e : Ref) :
    CheckerM (Option Ref) :=
  match op with
  | .app => checkCodeApp fuel self e
  | .mpz | .mpq => return some statType
  | .do_ => checkDo self e
  | .let_ => checkLet self e
  | .add | .mul | .div => checkArith self e
  | .neg =>
      some <$> checkNumeral self e
        "Argument to mp_neg does not have type \"mpz\" or \"mpq\".\n"
  | .mpzToMpq => checkMpzToMpq self e
  | .ifneg | .ifzero => checkIfNumeral self e
  | .fail => checkFail self e
  | .markvar => checkMarkVar self e
  | .ifmarked => checkIfMarked self e
  | .compare => checkCompare self e
  | .ifequal => checkIfEqual self e
  | .match_ => checkMatch fuel self e
  | _ => report "Type checking an unrecognized form of code (internal error)."

/-- `check_code`. -/
def checkCode : Nat → Ref → CheckerM (Option Ref)
  | 0, _ => outOfFuel
  | fuel + 1, e => do
      match ← load e with
      | .int _ => return some statMpz
      | .rat _ => return some statMpq
      | .sym name _ =>
          match (← symbolsGet name).type with
          | some type => return some type
          | none => report "A symbol is missing a type in a piece of code."
      | .hole _ => report "Encountered a hole unexpectedly in code."
      | .cexpr op _ _ => checkCodeCExpr fuel (checkCode fuel) op e

end Lfsc
