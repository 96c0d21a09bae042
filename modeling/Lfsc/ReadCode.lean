import Lfsc.Lexer

/-!
# Reading side-condition code

`read_code` and its helpers, which resolve the identifiers of a piece of code while they read it.
A null result of `read_code` is kept as one.
-/

namespace Lfsc

/-- `operator[]` of `progs`, which creates a null entry for a name that has none. -/
def progsIndex (name : String) : CheckerM (Option Ref) := do
  let checker ← get
  match checker.progs name with
  | some entry => return entry
  | none =>
      set { checker with progs := Function.update checker.progs name (some none) }
      return none

/-- `read_ctor`: the constructor of a pattern, or null on `default`. -/
def readCtor : CheckerM (Option Ref) := do
  let id ← prefixId
  if id = "default" then return none
  let pair ← symbolsGet id
  if pair.type = none then report "Undeclared identifier parsing a pattern."
  let symbol ← deref pair.expr
  match ← load symbol with
  | .sym _ none => return some symbol
  | _ => report "The head of a pattern is not a constructor."

/-- The loop of `read_case` over the pattern variables: the pattern and the old bindings. -/
def readPatternVars : Nat → Ref → List (String × Binding) →
    CheckerM (Ref × List (String × Binding))
  | 0, _, _ => outOfFuel
  | fuel + 1, pat, prevs => do
      let token ← nextToken
      if token = .Close then return (pat, prevs)
      reinsertToken token
      let name ← prefixId
      if name = "" then
        report "Could not read identifier in a pattern of match expression."
      let var ← newSym name
      let prev ← symbolsInsert name ⟨some var, none⟩
      let extended ← makeApp pat (some var)
      readPatternVars fuel extended (prevs ++ [(name, prev)])

/-- The beginning of `read_case`: the pattern, null on `default`, and the old bindings. -/
def readPattern (fuel : Nat) : CheckerM (Option Ref × List (String × Binding)) := do
  let token ← nextToken
  match token with
  | .Open =>
      match ← readCtor with
      | none => report "Could not read constructor in a match case."
      | some ctor =>
          let (pat, prevs) ← readPatternVars fuel ctor []
          return (some pat, prevs)
  | .Eof => report "Unexpected end of file parsing a pattern."
  | _ =>
      reinsertToken token
      return (← readCtor, [])

/-- The result of `read_case`: a case of a `match`, or the bare code of a `default`. -/
def newCase (pat body : Option Ref) : StoreM (Option Ref) := do
  match pat with
  | some pat => return some (← newCExpr .case_ [some pat, body])
  | none => return body

/-- `read_case`. -/
def readCase (fuel : Nat) (readCode : CheckerM (Option Ref)) : CheckerM (Option Ref) := do
  eatToken .Open
  let (pat, prevs) ← readPattern fuel
  let body ← readCode
  let result ← newCase pat body
  restoreBindings prevs
  eatToken .Close
  return result

/-- The loop of `read_code` over the expressions of a `do`. -/
def readDo (readCode : CheckerM (Option Ref)) : Nat → Option Ref → CheckerM (Option Ref)
  | 0, _ => outOfFuel
  | fuel + 1, acc => do
      let token ← nextToken
      if token = .Close then return acc
      reinsertToken token
      let next ← readCode
      readDo readCode fuel (some (← newCExpr .do_ [acc, next]))

/-- The loop of `read_code` over the cases of a `match`. -/
def readCases (fuel : Nat) (readCode : CheckerM (Option Ref)) :
    Nat → List (Option Ref) → CheckerM (List (Option Ref))
  | 0, _ => outOfFuel
  | rounds + 1, cases => do
      let token ← nextToken
      if token = .Close then return cases
      reinsertToken token
      let case ← readCase fuel readCode
      readCases fuel readCode rounds (cases ++ [case])

/-- The loop of `read_code` over the arguments of an application. -/
def readArgs (readCode : CheckerM (Option Ref)) : Nat → Ref → CheckerM Ref
  | 0, _ => outOfFuel
  | fuel + 1, acc => do
      let token ← nextToken
      if token = .Close then return acc
      reinsertToken token
      let arg ← readCode
      readArgs readCode fuel (← makeApp acc arg)

/-- A construct of `read_code` with as many subexpressions as its operator takes. -/
def readFixed (readCode : CheckerM (Option Ref)) (op : Op) (arity : Nat) :
    CheckerM (Option Ref) := do
  let kids ← (List.replicate arity ()).mapM fun _ => readCode
  let result ← newCExpr op kids
  eatToken .Close
  return some result

/-- A numeral of `read_code` with its sign changed in place. -/
def readTilde (readCode : CheckerM (Option Ref)) : CheckerM (Option Ref) := do
  let e ← deref (← readCode)
  match ← load e with
  | .int value =>
      put e (.int (-value))
      eatToken .Close
      return some e
  | .rat value =>
      put e (.rat (-value))
      eatToken .Close
      return some e
  | _ => report "Negative sign with expr that is not an numeric literal."

/-- `read_code` on an `@`. -/
def readLet (readCode : CheckerM (Option Ref)) : CheckerM (Option Ref) := do
  let id ← prefixId
  let var ← newSym id
  let value ← readCode
  let body ← withBinding id ⟨some var, none⟩ readCode
  eatToken .Close
  return some (← newCExpr .let_ [some var, value, body])

/-- `read_code` on an `ifmarked` with the index its token carries. -/
def readIfMarked (readCode : CheckerM (Option Ref)) : CheckerM (Option Ref) := do
  let index := markIndex (← tokenStr) 8
  let kids ← [(), (), ()].mapM fun _ => readCode
  let result ←
    if 1 ≤ index ∧ index ≤ 32 then do
      let mark ← new (.int (index - 1))
      pure (some (← newCExpr .ifmarked (some mark :: kids)))
    else pure none
  eatToken .Close
  return result

/-- `read_code` on a `markvar` with the index its token carries. -/
def readMarkVar (readCode : CheckerM (Option Ref)) : CheckerM (Option Ref) := do
  let index := markIndex (← tokenStr) 7
  let result ←
    if 1 ≤ index ∧ index ≤ 32 then do
      let mark ← new (.int (index - 1))
      pure (some (← newCExpr .markvar [some mark, ← readCode]))
    else pure none
  eatToken .Close
  return result

/-- `read_code` on a `match`. -/
def readMatch (fuel : Nat) (readCode : CheckerM (Option Ref)) : CheckerM (Option Ref) := do
  let scrutinee ← readCode
  let cases ← readCases fuel readCode fuel [scrutinee]
  if cases.length = 1 then report "A match has no cases."
  return some (← newCExpr .match_ cases)

/-- `read_code` on an application, whose head is looked up among the programs first. -/
def readApp (fuel : Nat) (readCode : CheckerM (Option Ref)) : CheckerM (Option Ref) := do
  let pref ← tokenStr
  let head ←
    match ← progsIndex pref with
    | some prog => pure (some prog)
    | none => do pure (← symbolsGet pref).expr
  match head with
  | none => report "Undeclared identifier at head of an application: "
  | some head => return some (← readArgs readCode fuel head)

/-- `read_code`. -/
def readCode : Nat → CheckerM (Option Ref)
  | 0 => outOfFuel
  | fuel + 1 => do
      match ← nextToken with
      | .Open =>
          match ← nextToken with
          | .Do => readDo (readCode fuel) fuel (← readCode fuel)
          | .Fail => readFixed (readCode fuel) .fail 1
          | .At => readLet (readCode fuel)
          | .IfMarked => readIfMarked (readCode fuel)
          | .IfEqual => readFixed (readCode fuel) .ifequal 4
          | .Match => readMatch fuel (readCode fuel)
          | .MarkVar => readMarkVar (readCode fuel)
          | .MpAdd => readFixed (readCode fuel) .add 2
          | .MpMul => readFixed (readCode fuel) .mul 2
          | .MpDiv => readFixed (readCode fuel) .div 2
          | .MpNeg => readFixed (readCode fuel) .neg 1
          | .MpzToMpq => readFixed (readCode fuel) .mpzToMpq 1
          | .MpIfNeg => readFixed (readCode fuel) .ifneg 3
          | .MpIfZero => readFixed (readCode fuel) .ifzero 3
          | .Tilde => readTilde (readCode fuel)
          | .Compare => readFixed (readCode fuel) .compare 4
          | .Eof => report "Unexpected end of file."
          | _ => readApp fuel (readCode fuel)
      | .Natural =>
          match naturalValue (← tokenStr) with
          | some value => return some (← new (.int value))
          | none => report "Error reading a numeral."
      | .Rational =>
          match rationalValue (← tokenStr) with
          | some (numerator, denominator) => return some (← newRat numerator denominator)
          | none => report "Error reading a mpq numeral."
      | .Eof => report "Unexpected end of file."
      | _ => do
          let id ← tokenStr
          match (← symbolsGet id).expr with
          | some symbol => return some symbol
          | none =>
              match ← progsIndex id with
              | some prog => return some prog
              | none => report "Undeclared identifier: "

end Lfsc
