import Lfsc.Lookahead.Parentheses

/-!
# Calls of the scanner while code is read

The functions of `code.cpp` that read code, with their calls.  `read_code` starts with at most one
token waiting and leaves none.
-/

namespace Lfsc

namespace Lookahead

open Exec Traced

/-! ## The reader -/

/-- `read_ctor`: the constructor of a pattern, or null on `default`. -/
def readCtor : CallsM (Option Ref) := do
  let id ← prefixId
  if id = "default" then return none
  let pair ← symbolsGet id
  if pair.type = none then report "Undeclared identifier parsing a pattern."
  let symbol ← deref pair.expr
  match ← load symbol with
  | .sym _ none => return some symbol
  | _ => report "The head of a pattern is not a constructor."

/-- The loop of `read_case` over the pattern variables: the pattern and the old bindings. -/
def readPatternVars : Nat → Ref → List (String × Binding) →
    CallsM (Ref × List (String × Binding))
  | 0, _, _ => outOfFuel
  | fuel + 1, pat, prevs => do
      let token ← nextToken
      if token = .Close then return (pat, prevs)
      reinsertToken token
      let name ← prefixId
      if name = "" then
        report "Could not read identifier in a pattern of match expression."
      let var ← newSym name
      let prev ← symbolsInsert name ⟨some var, none⟩
      let extended ← makeApp pat (some var)
      readPatternVars fuel extended (prevs ++ [(name, prev)])

/-- The beginning of `read_case`: the pattern, null on `default`, and the old bindings. -/
def readPattern (fuel : Nat) : CallsM (Option Ref × List (String × Binding)) := do
  let token ← nextToken
  match token with
  | .Open =>
      match ← readCtor with
      | none => report "Could not read constructor in a match case."
      | some ctor =>
          let (pat, prevs) ← readPatternVars fuel ctor []
          return (some pat, prevs)
  | .Eof => report "Unexpected end of file parsing a pattern."
  | _ =>
      reinsertToken token
      return (← readCtor, [])

/-- `read_case`. -/
def readCase (fuel : Nat) (readCode : CallsM (Option Ref)) : CallsM (Option Ref) := do
  eatToken .Open
  let (pat, prevs) ← readPattern fuel
  let body ← readCode
  let result ← newCase pat body
  restoreBindings prevs
  eatToken .Close
  return result

/-- The loop of `read_code` over the expressions of a `do`. -/
def readDo (readCode : CallsM (Option Ref)) : Nat → Option Ref → CallsM (Option Ref)
  | 0, _ => outOfFuel
  | fuel + 1, acc => do
      let token ← nextToken
      if token = .Close then return acc
      reinsertToken token
      let next ← readCode
      readDo readCode fuel (some (← newCExpr .do_ [acc, next]))

/-- The loop of `read_code` over the cases of a `match`. -/
def readCases (fuel : Nat) (readCode : CallsM (Option Ref)) :
    Nat → List (Option Ref) → CallsM (List (Option Ref))
  | 0, _ => outOfFuel
  | rounds + 1, cases => do
      let token ← nextToken
      if token = .Close then return cases
      reinsertToken token
      let case ← readCase fuel readCode
      readCases fuel readCode rounds (cases ++ [case])

/-- The loop of `read_code` over the arguments of an application. -/
def readArgs (readCode : CallsM (Option Ref)) : Nat → Ref → CallsM Ref
  | 0, _ => outOfFuel
  | fuel + 1, acc => do
      let token ← nextToken
      if token = .Close then return acc
      reinsertToken token
      let arg ← readCode
      readArgs readCode fuel (← makeApp acc arg)

/-- A construct of `read_code` with as many subexpressions as its operator takes. -/
def readFixed (readCode : CallsM (Option Ref)) (op : Op) (arity : Nat) :
    CallsM (Option Ref) := do
  let kids ← (List.replicate arity ()).mapM fun _ => readCode
  let result ← newCExpr op kids
  eatToken .Close
  return some result

/-- A numeral of `read_code` with its sign changed in place. -/
def readTilde (readCode : CallsM (Option Ref)) : CallsM (Option Ref) := do
  let e ← deref (← readCode)
  match ← load e with
  | .int value =>
      put e (.int (-value))
      eatToken .Close
      return some e
  | .rat value =>
      put e (.rat (-value))
      eatToken .Close
      return some e
  | _ => report "Negative sign with expr that is not an numeric literal."

/-- `read_code` on an `@`. -/
def readLet (readCode : CallsM (Option Ref)) : CallsM (Option Ref) := do
  let id ← prefixId
  let var ← newSym id
  let value ← readCode
  let body ← withBinding id ⟨some var, none⟩ readCode
  eatToken .Close
  return some (← newCExpr .let_ [some var, value, body])

/-- `read_code` on an `ifmarked` with the index its token carries. -/
def readIfMarked (readCode : CallsM (Option Ref)) : CallsM (Option Ref) := do
  let index := markIndex (← tokenStr) 8
  let kids ← [(), (), ()].mapM fun _ => readCode
  let result ←
    if 1 ≤ index ∧ index ≤ 32 then do
      let mark ← new (.int (index - 1))
      pure (some (← newCExpr .ifmarked (some mark :: kids)))
    else pure none
  eatToken .Close
  return result

/-- `read_code` on a `markvar` with the index its token carries. -/
def readMarkVar (readCode : CallsM (Option Ref)) : CallsM (Option Ref) := do
  let index := markIndex (← tokenStr) 7
  let result ←
    if 1 ≤ index ∧ index ≤ 32 then do
      let mark ← new (.int (index - 1))
      pure (some (← newCExpr .markvar [some mark, ← readCode]))
    else pure none
  eatToken .Close
  return result

/-- `read_code` on a `match`. -/
def readMatch (fuel : Nat) (readCode : CallsM (Option Ref)) : CallsM (Option Ref) := do
  let scrutinee ← readCode
  let cases ← readCases fuel readCode fuel [scrutinee]
  if cases.length = 1 then report "A match has no cases."
  return some (← newCExpr .match_ cases)

/-- `read_code` on an application, whose head is looked up among the programs first. -/
def readApp (fuel : Nat) (readCode : CallsM (Option Ref)) : CallsM (Option Ref) := do
  let pref ← tokenStr
  let head ←
    match ← progsIndex pref with
    | some prog => pure (some prog)
    | none => do pure (← symbolsGet pref).expr
  match head with
  | none => report "Undeclared identifier at head of an application: "
  | some head => return some (← readArgs readCode fuel head)

/-- `read_code`. -/
def readCode : Nat → CallsM (Option Ref)
  | 0 => outOfFuel
  | fuel + 1 => do
      match ← nextToken with
      | .Open =>
          match ← nextToken with
          | .Do => readDo (readCode fuel) fuel (← readCode fuel)
          | .Fail => readFixed (readCode fuel) .fail 1
          | .At => readLet (readCode fuel)
          | .IfMarked => readIfMarked (readCode fuel)
          | .IfEqual => readFixed (readCode fuel) .ifequal 4
          | .Match => readMatch fuel (readCode fuel)
          | .MarkVar => readMarkVar (readCode fuel)
          | .MpAdd => readFixed (readCode fuel) .add 2
          | .MpMul => readFixed (readCode fuel) .mul 2
          | .MpDiv => readFixed (readCode fuel) .div 2
          | .MpNeg => readFixed (readCode fuel) .neg 1
          | .MpzToMpq => readFixed (readCode fuel) .mpzToMpq 1
          | .MpIfNeg => readFixed (readCode fuel) .ifneg 3
          | .MpIfZero => readFixed (readCode fuel) .ifzero 3
          | .Tilde => readTilde (readCode fuel)
          | .Compare => readFixed (readCode fuel) .compare 4
          | .Eof => report "Unexpected end of file."
          | _ => readApp fuel (readCode fuel)
      | .Natural =>
          match naturalValue (← tokenStr) with
          | some value => return some (← new (.int value))
          | none => report "Error reading a numeral."
      | .Rational =>
          match rationalValue (← tokenStr) with
          | some (numerator, denominator) => return some (← newRat numerator denominator)
          | none => report "Error reading a mpq numeral."
      | .Eof => report "Unexpected end of file."
      | _ => do
          let id ← tokenStr
          match (← symbolsGet id).expr with
          | some symbol => return some symbol
          | none =>
              match ← progsIndex id with
              | some prog => return some prog
              | none => report "Undeclared identifier: "

/-! ## Its calls -/

theorem follows_readCtor {situation : Situation} (le : situation.slots.count ≤ 1) :
    Follows situation readCtor Lfsc.readCtor fun _ => between .free := by
  rw [readCtor, Lfsc.readCtor]
  apply records_bind (follows_prefixId le)
  intro id
  apply records_ite
  · intro _
    exact follows_return _ (Nat.zero_le _)
  · intro _
    apply records_bind (follows_silent (keeps_tables_symbolsGet id))
    intro pair
    apply records_ite
    · intro _
      exact follows_report_bind _
    · intro _
      apply records_bind (follows_deref _)
      intro symbol
      apply records_bind (follows_store _)
      intro node
      cases node with
      | sym name val =>
          cases val with
          | none => exact follows_return _ (Nat.zero_le _)
          | some val => exact follows_report _
      | _ => exact follows_report _

theorem follows_readPatternVars (fuel : Nat) (pat : Ref) (prevs : List (String × Binding)) :
    Follows (between .free) (readPatternVars fuel pat prevs) (Lfsc.readPatternVars fuel pat prevs)
      fun _ => between .free := by
  induction fuel generalizing pat prevs with
  | zero => exact follows_outOfFuel
  | succ fuel hyp =>
      rw [readPatternVars, Lfsc.readPatternVars]
      apply records_bind (follows_next (Nat.zero_le _))
      intro token
      apply records_ite
      · intro _
        exact follows_return _ (Nat.zero_le _)
      · intro _
        apply records_bind follows_reinsert
        intro _
        apply records_bind (follows_prefixId (Nat.le_refl _))
        intro name
        apply records_ite
        · intro _
          exact follows_report_bind _
        · intro _
          apply records_bind (follows_store _)
          intro var
          apply records_bind (follows_insert _ _)
          intro prev
          apply records_bind (follows_store _)
          intro extended
          exact hyp _ _

theorem follows_readPattern (fuel : Nat) :
    Follows (between .free) (readPattern fuel) (Lfsc.readPattern fuel) fun _ => between .free := by
  rw [readPattern, Lfsc.readPattern]
  apply records_bind (follows_next (Nat.zero_le _))
  intro token
  cases token with
  | Open =>
      apply records_bind (follows_readCtor (Nat.zero_le _))
      intro ctor
      cases ctor with
      | none => exact follows_report _
      | some ctor =>
          apply records_bind ((follows_readPatternVars fuel ctor []).anywhere (Nat.zero_le _))
          intro read
          exact follows_return _ (Nat.zero_le _)
  | Eof => exact follows_report _
  | _ =>
      apply records_bind follows_reinsert
      intro _
      apply records_bind (follows_readCtor (Nat.le_refl _))
      intro ctor
      exact follows_return _ (Nat.zero_le _)

section ReadCode

variable {code : CallsM (Option Ref)} {plain : CheckerM (Option Ref)}
  (reads : Follows (between .single) code plain fun _ => between .free)
include reads

theorem follows_readCase (fuel : Nat) :
    Follows (between .single) (readCase fuel code) (Lfsc.readCase fuel plain)
      fun _ => between .free := by
  rw [readCase, Lfsc.readCase]
  apply records_bind (follows_eatToken .Open (Nat.le_refl _))
  intro _
  apply records_bind (follows_readPattern fuel)
  intro read
  apply records_bind (reads.anywhere (Nat.zero_le _))
  intro body
  apply records_bind (follows_store _)
  intro result
  apply records_bind (follows_silent (by simp))
  intro _
  exact follows_eat_return .Close _ (Nat.zero_le _)

theorem follows_readDo (fuel : Nat) (acc : Option Ref) :
    Follows (between .free) (readDo code fuel acc) (Lfsc.readDo plain fuel acc)
      fun _ => between .free := by
  induction fuel generalizing acc with
  | zero => exact follows_outOfFuel
  | succ fuel hyp =>
      rw [readDo, Lfsc.readDo]
      apply records_bind (follows_next (Nat.zero_le _))
      intro token
      apply records_ite
      · intro _
        exact follows_return _ (Nat.zero_le _)
      · intro _
        apply records_bind follows_reinsert
        intro _
        apply records_bind (reads.anywhere (Nat.le_refl _))
        intro next
        apply records_bind (follows_store _)
        intro extended
        exact hyp _

theorem follows_readCases (fuel rounds : Nat) (cases : List (Option Ref)) :
    Follows (between .free) (readCases fuel code rounds cases) (Lfsc.readCases fuel plain rounds cases)
      fun _ => between .free := by
  induction rounds generalizing cases with
  | zero => exact follows_outOfFuel
  | succ rounds hyp =>
      rw [readCases, Lfsc.readCases]
      apply records_bind (follows_next (Nat.zero_le _))
      intro token
      apply records_ite
      · intro _
        exact follows_return _ (Nat.zero_le _)
      · intro _
        apply records_bind follows_reinsert
        intro _
        apply records_bind ((follows_readCase reads fuel).anywhere (Nat.le_refl _))
        intro case
        exact hyp _

theorem follows_readArgs (fuel : Nat) (acc : Ref) :
    Follows (between .free) (readArgs code fuel acc) (Lfsc.readArgs plain fuel acc)
      fun _ => between .free := by
  induction fuel generalizing acc with
  | zero => exact follows_outOfFuel
  | succ fuel hyp =>
      rw [readArgs, Lfsc.readArgs]
      apply records_bind (follows_next (Nat.zero_le _))
      intro token
      apply records_ite
      · intro _
        exact follows_return _ (Nat.zero_le _)
      · intro _
        apply records_bind follows_reinsert
        intro _
        apply records_bind (reads.anywhere (Nat.le_refl _))
        intro arg
        apply records_bind (follows_store _)
        intro extended
        exact hyp _

variable {situation : Situation} (le : situation.slots.count ≤ 0)
include le

theorem follows_readFixed (op : Op) (arity : Nat) :
    Follows situation (readFixed code op arity) (Lfsc.readFixed plain op arity)
      fun _ => between .free := by
  rw [readFixed, Lfsc.readFixed]
  apply records_bind (follows_mapM (fun _ => reads) _ le)
  intro kids
  apply records_bind (follows_store _)
  intro result
  exact follows_eat_return .Close _ (Nat.zero_le _)

theorem follows_readTilde :
    Follows situation (readTilde code) (Lfsc.readTilde plain) fun _ => between .free := by
  rw [readTilde, Lfsc.readTilde]
  apply records_bind (reads.anywhere (Nat.le_succ_of_le le))
  intro read
  apply records_bind (follows_deref read)
  intro e
  apply records_bind (follows_store _)
  intro node
  cases node with
  | int value =>
      apply records_bind (follows_store _)
      intro _
      exact follows_eat_return .Close _ (Nat.zero_le _)
  | rat value =>
      apply records_bind (follows_store _)
      intro _
      exact follows_eat_return .Close _ (Nat.zero_le _)
  | _ => exact follows_report _

theorem follows_readLet :
    Follows situation (readLet code) (Lfsc.readLet plain) fun _ => between .free := by
  rw [readLet, Lfsc.readLet]
  apply records_bind (follows_prefixId (Nat.le_succ_of_le le))
  intro id
  apply records_bind (follows_store _)
  intro var
  apply records_bind (reads.anywhere (Nat.zero_le _))
  intro value
  apply records_bind (follows_withBinding (reads.anywhere (Nat.zero_le _)))
  intro body
  apply records_bind (follows_eatToken .Close (Nat.zero_le _))
  intro _
  apply records_bind (follows_store _)
  intro result
  exact follows_return _ (Nat.zero_le _)

theorem follows_readMatch (fuel : Nat) :
    Follows situation (readMatch fuel code) (Lfsc.readMatch fuel plain)
      fun _ => between .free := by
  rw [readMatch, Lfsc.readMatch]
  apply records_bind (reads.anywhere (Nat.le_succ_of_le le))
  intro scrutinee
  apply records_bind (follows_readCases reads fuel fuel [scrutinee])
  intro cases
  apply records_ite
  · intro _
    exact follows_report_bind _
  · intro _
    apply records_bind (follows_store _)
    intro result
    exact follows_return _ (Nat.zero_le _)

omit le
variable {token : Token} {held : List Token}

theorem follows_readIfMarked :
    Follows ⟨.free, token :: held, true⟩ (readIfMarked code) (Lfsc.readIfMarked plain)
      fun _ => between .free := by
  rw [readIfMarked, Lfsc.readIfMarked]
  apply records_bind follows_tokenStr
  intro text
  apply records_bind (follows_mapM (fun _ => reads) _ (Nat.le_refl _))
  intro kids
  apply records_ite
  · intro _
    apply records_bind (follows_store _)
    intro mark
    apply records_bind (follows_store _)
    intro node
    apply records_bind (follows_pure _)
    exact fun result => follows_eat_return .Close result (Nat.zero_le _)
  · intro _
    apply records_bind (follows_pure _)
    exact fun result => follows_eat_return .Close result (Nat.zero_le _)

theorem follows_readMarkVar :
    Follows ⟨.free, token :: held, true⟩ (readMarkVar code) (Lfsc.readMarkVar plain)
      fun _ => between .free := by
  rw [readMarkVar, Lfsc.readMarkVar]
  apply records_bind follows_tokenStr
  intro text
  apply records_ite
  · intro _
    apply records_bind (follows_store _)
    intro mark
    apply records_bind (reads.anywhere (Nat.zero_le _))
    intro marked
    apply records_bind (follows_store _)
    intro node
    apply records_bind (follows_pure _)
    exact fun result => follows_eat_return .Close result (Nat.zero_le _)
  · intro _
    apply records_bind (follows_pure _)
    exact fun result => follows_eat_return .Close result (Nat.zero_le _)

theorem follows_readApp (fuel : Nat) :
    Follows ⟨.free, token :: held, true⟩ (readApp fuel code) (Lfsc.readApp fuel plain)
      fun _ => between .free := by
  rw [readApp, Lfsc.readApp]
  apply records_bind follows_tokenStr
  intro pref
  apply records_bind (follows_silent (by simp))
  intro prog
  have args : ∀ head : Option Ref, Follows (between .free)
      (match head with
        | none => report "Undeclared identifier at head of an application: "
        | some head => do return some (← readArgs code fuel head))
      (match head with
        | none => Lfsc.report "Undeclared identifier at head of an application: "
        | some head => do return some (← Lfsc.readArgs plain fuel head)) fun _ => between .free := by
    intro head
    cases head with
    | none => exact follows_report _
    | some head =>
        apply records_bind (follows_readArgs reads fuel head)
        intro result
        exact follows_return _ (Nat.zero_le _)
  cases prog with
  | some prog =>
      apply records_bind (follows_pure _)
      exact fun head => (args head).anywhere (Nat.zero_le _)
  | none =>
      apply records_bind (follows_silent (keeps_tables_symbolsGet pref))
      intro pair
      apply records_bind (follows_pure _)
      exact fun head => (args head).anywhere (Nat.zero_le _)

end ReadCode

theorem follows_readCode (fuel : Nat) :
    Follows (between .single) (readCode fuel) (Lfsc.readCode fuel) fun _ => between .free := by
  induction fuel with
  | zero => exact follows_outOfFuel
  | succ fuel hyp =>
      rw [readCode, Lfsc.readCode]
      apply records_bind (follows_next (Nat.le_refl _))
      intro token
      cases token with
      | Open =>
          apply records_bind (follows_next (Nat.zero_le _))
          intro next
          cases next with
          | Do =>
              apply records_bind (hyp.anywhere (Nat.zero_le _))
              intro first
              exact follows_readDo hyp fuel first
          | Fail => exact follows_readFixed hyp (Nat.zero_le _) .fail 1
          | At => exact follows_readLet hyp (Nat.zero_le _)
          | IfMarked => exact follows_readIfMarked hyp
          | IfEqual => exact follows_readFixed hyp (Nat.zero_le _) .ifequal 4
          | Match => exact follows_readMatch hyp (Nat.zero_le _) fuel
          | MarkVar => exact follows_readMarkVar hyp
          | MpAdd => exact follows_readFixed hyp (Nat.zero_le _) .add 2
          | MpMul => exact follows_readFixed hyp (Nat.zero_le _) .mul 2
          | MpDiv => exact follows_readFixed hyp (Nat.zero_le _) .div 2
          | MpNeg => exact follows_readFixed hyp (Nat.zero_le _) .neg 1
          | MpzToMpq => exact follows_readFixed hyp (Nat.zero_le _) .mpzToMpq 1
          | MpIfNeg => exact follows_readFixed hyp (Nat.zero_le _) .ifneg 3
          | MpIfZero => exact follows_readFixed hyp (Nat.zero_le _) .ifzero 3
          | Tilde => exact follows_readTilde hyp (Nat.zero_le _)
          | Compare => exact follows_readFixed hyp (Nat.zero_le _) .compare 4
          | Eof => exact follows_report _
          | _ => exact follows_readApp hyp fuel
      | Natural =>
          apply records_bind follows_tokenStr
          intro text
          cases naturalValue text with
          | none => exact follows_report _
          | some value =>
              apply records_bind (follows_store _)
              intro result
              exact follows_return _ (Nat.zero_le _)
      | Rational =>
          apply records_bind follows_tokenStr
          intro text
          cases rationalValue text with
          | none => exact follows_report _
          | some value =>
              apply records_bind (follows_store _)
              intro result
              exact follows_return _ (Nat.zero_le _)
      | Eof => exact follows_report _
      | _ =>
          apply records_bind follows_tokenStr
          intro id
          apply records_bind (follows_silent (keeps_tables_symbolsGet id))
          intro pair
          cases pair.expr with
          | some symbol => exact follows_return _ (Nat.zero_le _)
          | none =>
              apply records_bind (follows_silent (by simp))
              intro prog
              cases prog with
              | some prog => exact follows_return _ (Nat.zero_le _)
              | none => exact follows_report _

end Lookahead

end Lfsc
