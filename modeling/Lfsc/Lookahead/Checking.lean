import Lfsc.Lookahead.Reading

/-!
# Calls of the scanner while terms are checked

The functions of `check.cpp` that read terms, with their calls.  `check` may start before two waiting
tokens, of which the first one is an opening parenthesis, and leaves none.
-/

namespace Lfsc

namespace Lookahead

open Exec Traced

/-! ## The functions -/

/-- `eat_rparen`. -/
def eatRparen : CallsM Unit := do
  eatToken .Close
  addOpenParens (-1)

/-- Close so many parentheses. -/
def eatRparens : Nat → CallsM Unit
  | 0 => return ()
  | count + 1 => do
      eatRparen
      eatRparens count

/-- `eat_excess`. -/
def eatExcess (prev : Int) : CallsM Unit := do eatRparens ((← getOpenParens) - prev).toNat

/-- The domain of a `!` or `#`, where a run expression is allowed at the top. -/
def checkDomain (check : CheckArgs → CallsM Checked) : CallsM (Option Ref) := do
  setAllowRun true
  let prevo ← getOpenParens
  let domain ← check { create := true, expected := some statType }
  eatExcess prevo
  setAllowRun false
  return domain.term

/-- The beginning of the pi case: the variable, the domain, and the result for the range. -/
def checkBangRange (check : CheckArgs → CallsM Checked) (args : CheckArgs) :
    CallsM (Ref × Option Ref × Checked) := do
  let id ← prefixId
  let sym ← newSym id
  let prevo ← getOpenParens
  let domain ← checkDomain check
  let range ← withBinding id ⟨some sym, domain⟩ do
    let range ← check { args with isHole := false, inAsc := false }
    eatExcess prevo
    eatRparen
    return range
  return (sym, domain, range)

/-- The pi case. -/
def checkBang (fuel : Nat) (check : CheckArgs → CallsM Checked) (args : CheckArgs) :
    CallsM Checked := do
  let (sym, domain, range) ← checkBangRange check args
  match args.expected with
  | some expected =>
      if ¬ (← isTypeOrKind expected) then
        report ("The expected classifier for a pi abstraction" ++
          "is neither \"type\" nor \"kind\".\n")
      if args.create then
        return { range with term := some (← newPi fuel (some sym) domain range.term) }
      else return { range with term := none }
  | none =>
      if args.create then
        return { range with term := some (← newPi fuel (some sym) domain range.term) }
      else
        if ¬ (← isTypeOrKind (← deref range.computed)) then
          let _ ← deref range.term
          report ("The classifier for the range of a pi" ++
            "abstraction is neither \"type\" nor \"kind\".\n")
        return { range with term := none }

/-- `check_decl_list_item`: an identifier, empty if there is none, and a type. -/
def checkDeclListItem (check : CheckArgs → CallsM Checked) :
    CallsM (String × Option Ref) := do
  let t ← nextToken
  if t = .Open then
    let t2 ← nextToken
    if t2 = .Colon then
      let id ← prefixId
      let type ← check { create := true, expected := some statType }
      eatToken .Close
      return (id, type.term)
    else
      reinsertToken t2
      reinsertToken t
      let type ← check { create := true, computed := true }
      let _ ← deref type.computed
      return ("", type.term)
  else
    reinsertToken t
    let type ← check { create := true, expected := some statType }
    return ("", type.term)

/-- The loop of `check_decl_list`. -/
def checkDeclItems (create : Bool) (check : CheckArgs → CallsM Checked) :
    Nat → DeclList → CallsM DeclList
  | 0, _ => outOfFuel
  | rounds + 1, acc => do
      let t ← nextToken
      if t = .Close then return acc
      reinsertToken t
      let (id, type) ← checkDeclListItem check
      let (sym, old) ← bindDecl id type
      checkDeclItems create check rounds
        { decls := if create then acc.decls ++ [(sym, type)] else acc.decls
          oldBindings := acc.oldBindings ++ old }

/-- `check_decl_list`. -/
def checkDeclList (fuel : Nat) (create : Bool) (check : CheckArgs → CallsM Checked) :
    CallsM DeclList := do
  eatToken .Open
  checkDeclItems create check fuel { decls := [], oldBindings := [] }

/-- The arrow case. -/
def checkArrow (fuel : Nat) (check : CheckArgs → CallsM Checked) (args : CheckArgs) :
    CallsM Checked := do
  let decls ← checkDeclList fuel args.create check
  let ret ← check { create := args.create, computed := true }
  restoreBindings decls.oldBindings
  eatRparen
  let (pi, kind) ← buildValidatePi fuel decls.decls ret.term (← deref ret.computed) args.create
  match args.expected with
  | some _ => return { term := pi, computed := none }
  | none => return { term := pi, computed := ← writeComputed args.computed kind }

/-- The case of an annotated lambda. -/
def checkPound (fuel : Nat) (check : CheckArgs → CallsM Checked) (args : CheckArgs) :
    CallsM Checked := do
  let id ← prefixId
  let sym ← newSym id
  let prevo ← getOpenParens
  let domain ← checkDomain check
  let (range, computed) ← withBinding id ⟨some sym, domain⟩ do
    let expected ← annotatedRange fuel domain args.expected
    let range ← check
      { create := args.create, expected, computed := true, returnPos := args.returnPos }
    eatExcess prevo
    eatRparen
    let type ← newPi fuel (some sym) domain range.computed
    if ← getFlag type then
      let _ ← deref range.term
      report "The type of an annotated lambda is dependent."
    setKid type 0 (← newSym id)
    return (range, ← writeComputed args.computed type)
  if args.create then
    let lam ← newCExpr .lam [some sym, range.term]
    setFlag lam true
    return { term := some lam, computed }
  else return { term := none, computed }

/-- The case of a big lambda. -/
def checkPercent (check : CheckArgs → CallsM Checked) (args : CheckArgs) :
    CallsM Checked := do
  if args.expected ≠ none ∨ args.create ∨ ¬ args.returnPos ∨ ¬ (← get).bigCheck then
    report ("Big lambda abstractions can only be used" ++
      "in the return position of a \"bigcheck\"\ncommand.")
  let id ← prefixId
  let sym ← newSym id
  let prevo ← getOpenParens
  let domain ← check { create := true, expected := some statType }
  eatExcess prevo
  let prev ← symbolsInsert id ⟨some sym, domain.term⟩
  saveLocal id prev
  check { args with create := false, expected := none, isHole := false }

/-- The beginning of the lambda case: the identifier, its symbol, and the domain, the range and the
variable of the expected pi abstraction. -/
def readLambda (expected : Option Ref) : CallsM (String × Ref × Ref × Ref × Ref) := do
  match expected with
  | none =>
      report ("We are computing a type for a lambda " ++
        "abstraction, but we can only check\n" ++
        "such against a type.  Try inserting an " ++
        "ascription (using ':').\n")
  | some expected =>
      let pitp ← follow expected
      if (← getop pitp) ≠ some .pi then
        report ("We are type-checking a lambda abstraction, but\n" ++
          "the expected type is not a pi abstraction.\n")
      let id ← prefixId
      let sym ← newSym id
      let domain ← kid pitp 1
      let range ← kid pitp 2
      let pivar ← kid pitp 0
      if (← getop (← follow range)) = some .type then
        report ("The expected classifier for a lambda abstraction" ++
          " a kind, not a type.\n")
      return (id, sym, domain, range, pivar)

/-- The lambda case. -/
def checkLambda (check : CheckArgs → CallsM Checked) (args : CheckArgs) :
    CallsM Checked := do
  let (id, sym, domain, range, pivar) ← readLambda args.expected
  let prev ← symbolsInsert id ⟨some sym, some domain⟩
  let prevPivarVal ← symVal pivar
  setSymVal pivar (some sym)
  if ← inTailPosition args then
    saveLocal id prev
    check { args with
      create := false, expected := some range, computed := false, isHole := false }
  else
    let prevo ← getOpenParens
    let body ← check
      { create := args.create, expected := some range, returnPos := args.returnPos }
    eatExcess prevo
    eatRparen
    let _ ← symbolsInsert id prev
    setSymVal pivar prevPivarVal
    if args.create then
      return { term := some (← newCExpr .lam [some sym, body.term]), computed := none }
    else return { term := none, computed := none }

/-- The run case. -/
def checkCaret (fuel : Nat) (check : CheckArgs → CallsM Checked) (args : CheckArgs) :
    CallsM Checked := do
  match args.expected with
  | none => report "A run expression (operator \"^\") appears in a disallowed position."
  | some expected => do
      if ¬ (← get).allowRun ∨ ¬ args.create then
        report "A run expression (operator \"^\") appears in a disallowed position."
      let code ← readCode fuel
      let progret ← checkCode fuel (← deref code)
      let prevo ← getOpenParens
      let trm ← check { create := true, expected := some (← deref progret) }
      eatExcess prevo
      eatRparen
      if (← getop expected) ≠ some .type then
        report "The expected type for a run expression is not \"type\".\n"
      return { term := some (← newCExpr .run [code, trm.term]), computed := none }

/-- The ascription case.  With an expected type and nothing created, `dec` is called on the null
pointer that was returned for the term. -/
def checkColon (fuel : Nat) (check : CheckArgs → CallsM Checked) (args : CheckArgs) :
    CallsM Checked := do
  let prevo ← getOpenParens
  let type ← check { create := true, expected := some statType, inAsc := true }
  eatExcess prevo
  let type ← deref type.term
  let trm ← check
    { create := args.create, expected := some type, returnPos := args.returnPos }
  eatExcess prevo
  eatRparen
  match args.expected with
  | some expected =>
      if ¬ (← defeq fuel expected type) then
        report ("The expected type does not match the " ++
          "ascribed type in an ascription.\n")
      if args.create then return { term := trm.term, computed := none }
      else
        let _ ← deref trm.term
        return { term := none, computed := none }
  | none =>
      let computed ← writeComputed args.computed type
      if args.create then return { term := trm.term, computed }
      else return { term := none, computed }

/-- The case of a local definition. -/
def checkAt (fuel : Nat) (check : CheckArgs → CallsM Checked) (args : CheckArgs) :
    CallsM Checked := do
  let id ← prefixId
  let sym ← newSym id
  let prevo ← getOpenParens
  let trm ← check { create := true, computed := true }
  eatExcess prevo
  let prev ← insertAndBindSymbol fuel id sym (← deref trm.term) trm.computed
  if ← inTailPosition args then
    record (.leaked id)
    check args
  else
    let prevo ← getOpenParens
    let body ← check { args with inAsc := false }
    eatExcess prevo
    eatRparen
    let _ ← symbolsInsert id prev
    return body

/-- The case of a negated numeral. -/
def checkTilde (check : CheckArgs → CallsM Checked) (args : CheckArgs) :
    CallsM Checked := do
  let prevo ← getOpenParens
  let e ← check { args with inAsc := false }
  eatExcess prevo
  eatRparen
  let type ←
    match args.expected with
    | some expected => pure expected
    | none => deref e.computed
  if type ≠ statMpz ∧ type ≠ statMpq then
    report "Negative sign where an numeric expression is expected."
  if args.create then
    let literal ← deref e.term
    match ← load literal with
    | .int value =>
        put literal (.int (-value))
        return e
    | .rat value =>
        put literal (.rat (-value))
        return e
    | _ => report "Negative sign with expr that is not an int. literal."
  else return { e with term := none }

/-- The tail call of an application into its last argument. -/
def checkTailArg (fuel : Nat) (check : CheckArgs → CallsM Checked) (args : CheckArgs)
    (domain range : Ref) (holes : List (Option Ref)) : CallsM Checked := do
  let computed ←
    match args.expected with
    | some expected => do
        if ¬ (← defeq fuel expected range) then
          report ("The type expected for an application " ++
            "does not match the computed type.\n")
        pure none
    | none => writeComputed args.computed range
  checkHolesTail fuel domain holes
  let arg ← check
    { args with create := false, expected := some domain, computed := false, isHole := false }
  return { arg with computed }

/-- An argument of an application that is no tail call: the term and the holes so far. -/
def checkArg (check : CheckArgs → CallsM Checked) (args : CheckArgs) (prevo : Int)
    (headtp domain : Ref) (headtrm : Option Ref) (holes : List (Option Ref)) :
    CallsM (Option Ref × List (Option Ref)) := do
  let var ← kid headtp 0
  let varInRange ← getFlag headtp
  let arg ← check { create := args.create || varInRange, expected := some domain, isHole := true }
  eatExcess prevo
  let headtrm ←
    if args.create then do pure (some (← makeApp (← deref headtrm) arg.term))
    else pure headtrm
  if varInRange then setSymVal var (some (← follow (← deref arg.term)))
  return (headtrm, if arg.hole then holes ++ [arg.term] else holes)

/-- The loop of `check` over the arguments of an application. -/
def checkAppArgs (fuel : Nat) (check : CheckArgs → CallsM Checked) (args : CheckArgs)
    (prevo : Int) :
    Nat → Option Ref → Ref → List (Option Ref) → CallsM Checked
  | 0, _, _, _ => outOfFuel
  | rounds + 1, headtrm, headtp, holes => do
      let c ← nextToken
      if c = .Close then checkAppEnd fuel args headtrm headtp holes
      else
        reinsertToken c
        if (← getop headtp) ≠ some .pi then
          report "The type of an applied term is not a pi-type.\n"
        let domain ← kid headtp 1
        let range ← kid headtp 2
        if (← getop domain) = some .run then
          runPremise fuel (← kid domain 0) (← kid domain 1)
          checkAppArgs fuel check args prevo rounds headtrm range holes
        else if ← isTailArg args headtp range then
          checkTailArg fuel check args domain range holes
        else
          let (headtrm, holes) ← checkArg check args prevo headtp domain headtrm holes
          checkAppArgs fuel check args prevo rounds headtrm range holes

/-- The application case.  The type of the head is used in place the first time and cloned from then
on, one flag standing both for "already used" and for a dependent range. -/
def checkApp (fuel : Nat) (check : CheckArgs → CallsM Checked) (args : CheckArgs) (c : Token) :
    CallsM Checked := do
  reinsertToken c
  let prevo ← getOpenParens
  let head ← check { create := args.create, computed := true }
  eatExcess prevo
  let headtp ← follow (← deref head.computed)
  let headtp ←
    if ← getFlag headtp then onStore (clone fuel headtp)
    else do
      setFlag headtp true
      pure headtp
  checkAppArgs fuel check args prevo fuel head.term headtp []

/-- A numeral, whose expected type must be the very object of the built-in type. -/
def checkNumeralToken (args : CheckArgs) (type : Ref) (message : String)
    (create : CallsM Ref) : CallsM Checked := do
  let computed ←
    match args.expected with
    | some expected => do
        if expected ≠ type then report message
        pure none
    | none => writeComputed args.computed type
  if args.create then return { term := some (← create), computed }
  else return { term := none, computed }

/-- A natural number. -/
def checkNatural (args : CheckArgs) : CallsM Checked :=
  checkNumeralToken args statMpz
    "We parsed an integer, but were expecting a term of a different type.\n" do
      match naturalValue (← tokenStr) with
      | some value => onStore (new (.int value))
      | none => report "Error reading a numeral."

/-- A rational number. -/
def checkRational (args : CheckArgs) : CallsM Checked :=
  checkNumeralToken args statMpq
    "We parsed a rational, but were expecting a term of a different type.\n" do
      match rationalValue (← tokenStr) with
      | some (numerator, denominator) => onStore (newRat numerator denominator)
      | none => report "Error reading a numeral."

/-- An identifier, which any other token counts as. -/
def checkIdent (fuel : Nat) (args : CheckArgs) : CallsM Checked := do
  let pair ← symbolsGet (← tokenStr)
  match pair.expr with
  | none => report "Undeclared identifier: "
  | some symbol =>
      let computed ←
        match args.expected with
        | some expected => do
            if ¬ (← defeq fuel expected (← deref pair.type)) then
              report "The type expected for a symbol does not match the symbol's type.\n"
            pure none
        | none => if args.computed then some <$> deref pair.type else pure none
      return { term := if args.create then some symbol else none, computed }

/-- A term that starts with an opening parenthesis. -/
def checkOpen (fuel : Nat) (check : CheckArgs → CallsM Checked) (args : CheckArgs) :
    CallsM Checked := do
  addOpenParens 1
  match ← nextToken with
  | .Eof => report "Unexpected end of file."
  | .Bang => checkBang fuel check args
  | .Arrow => checkArrow fuel check args
  | .Pound => checkPound fuel check args
  | .Percent => checkPercent check args
  | .ReverseSolidus => checkLambda check args
  | .Caret => checkCaret fuel check args
  | .Colon => checkColon fuel check args
  | .At => checkAt fuel check args
  | .Tilde => checkTilde check args
  | c => checkApp fuel check args c

/-- `check`. -/
def check : Nat → CheckArgs → CallsM Checked
  | 0, _ => outOfFuel
  | fuel + 1, args => do
      match ← nextToken with
      | .Open => checkOpen fuel (check fuel) args
      | .Eof => report "Unexpected end of file."
      | .Hole => checkHole args
      | .Natural => checkNatural args
      | .Rational => checkRational args
      | _ => checkIdent fuel args

/-! ## Computations without calls -/

@[simp]
theorem keeps_scanner_addOpenParens (change : Int) : Keeps SameScanner (addOpenParens change) :=
  keeps_scanner_modify fun _ => ⟨rfl, rfl, rfl⟩

@[simp]
theorem keeps_scanner_insertAndBindSymbol (fuel : Nat) (name : String) (symbol e : Ref)
    (type : Option Ref) : Keeps SameScanner (insertAndBindSymbol fuel name symbol e type) :=
  keeps_bind (keeps_scanner_onRuntime _) fun _ => keeps_tables_symbolsInsert _ _

@[simp]
theorem keeps_scanner_bindDecl (id : String) (type : Option Ref) :
    Keeps SameScanner (bindDecl id type) := by
  rw [bindDecl]
  repeat' first
    | with_reducible refine keeps_bind ?_ fun _ => ?_
    | split
    | simp

@[simp]
theorem keeps_scanner_checkAppEnd (fuel : Nat) (args : CheckArgs) (headtrm : Option Ref)
    (headtp : Ref) (holes : List (Option Ref)) :
    Keeps SameScanner (checkAppEnd fuel args headtrm headtp holes) :=
  (keeps_counted_checkAppEnd fuel args headtrm headtp holes).mono fun _ _ counted => counted.scanner

/-! ## Their calls -/

section Closing

variable {situation : Situation}

theorem follows_eatRparen (le : situation.slots.count ≤ 1) :
    Follows situation eatRparen Lfsc.eatRparen fun _ => between .free := by
  apply records_bind (follows_eatToken .Close le)
  intro _
  exact follows_silent (by simp)

theorem follows_eatRparens (count : Nat) (le : situation.slots.count ≤ 0) :
    Follows situation (eatRparens count) (Lfsc.eatRparens count) fun _ => between .free := by
  induction count generalizing situation with
  | zero => exact follows_return () le
  | succ count hyp =>
      apply records_bind (follows_eatRparen (Nat.le_succ_of_le le))
      intro _
      exact hyp (Nat.le_refl 0)

theorem follows_eatExcess (prev : Int) (le : situation.slots.count ≤ 0) :
    Follows situation (eatExcess prev) (Lfsc.eatExcess prev) fun _ => between .free := by
  apply records_bind (follows_silent (by simp))
  intro openParens
  exact follows_eatRparens _ le

end Closing

section Check

variable {code : CheckArgs → CallsM Checked} {plain : CheckArgs → CheckerM Checked}
  (checks : ∀ args, Follows (between .ahead) (code args) (plain args) fun _ => between .free)
include checks

theorem follows_checkDomain {situation : Situation} (le : situation.slots.count ≤ 0) :
    Follows situation (checkDomain code) (Lfsc.checkDomain plain) fun _ => between .free := by
  rw [checkDomain, Lfsc.checkDomain]
  apply records_bind (follows_silent (by simp))
  intro _
  apply records_bind (follows_silent (by simp))
  intro prevo
  apply records_bind ((checks _).anywhere (Nat.le_trans le (Nat.zero_le _)))
  intro domain
  apply records_bind (follows_eatExcess prevo (Nat.zero_le _))
  intro _
  apply records_bind (follows_silent (by simp))
  intro _
  exact follows_return _ (Nat.zero_le _)

theorem follows_checkBangRange {situation : Situation} (le : situation.slots.count ≤ 1)
    (args : CheckArgs) :
    Follows situation (checkBangRange code args) (Lfsc.checkBangRange plain args)
      fun _ => between .free := by
  rw [checkBangRange, Lfsc.checkBangRange]
  apply records_bind (follows_prefixId le)
  intro id
  apply records_bind (follows_store _)
  intro sym
  apply records_bind (follows_silent (by simp))
  intro prevo
  apply records_bind (follows_checkDomain checks (Nat.zero_le _))
  intro domain
  have ranges : Follows (between .free)
      (do
        let range ← code { args with isHole := false, inAsc := false }
        eatExcess prevo
        eatRparen
        return range)
      (do
        let range ← plain { args with isHole := false, inAsc := false }
        Lfsc.eatExcess prevo
        Lfsc.eatRparen
        return range) fun _ => between .free := by
    apply records_bind ((checks _).anywhere (Nat.zero_le _))
    intro range
    apply records_bind (follows_eatExcess prevo (Nat.zero_le _))
    intro _
    apply records_bind (follows_eatRparen (Nat.zero_le _))
    intro _
    exact follows_return _ (Nat.zero_le _)
  apply records_bind (follows_withBinding ranges)
  intro range
  exact follows_return _ (Nat.zero_le _)

theorem follows_checkBang (fuel : Nat) (args : CheckArgs) {situation : Situation}
    (le : situation.slots.count ≤ 1) :
    Follows situation (checkBang fuel code args) (Lfsc.checkBang fuel plain args)
      fun _ => between .free := by
  rw [checkBang, Lfsc.checkBang]
  apply records_bind (follows_checkBangRange checks le args)
  rintro ⟨sym, domain, range⟩
  have built : Follows (between .free)
      (do return { range with term := some (← newPi fuel (some sym) domain range.term) })
      (do return { range with term := some (← newPi fuel (some sym) domain range.term) })
      fun _ : Checked => between .free := by
    apply records_bind (follows_store _)
    intro pi
    exact follows_return _ (Nat.zero_le _)
  cases args.expected with
  | some expected =>
      apply records_bind (follows_store _)
      intro classifies
      apply records_ite
      · intro _
        exact follows_report_bind _
      · intro _
        apply records_ite
        · intro _
          exact built
        · intro _
          exact follows_return _ (Nat.zero_le _)
  | none =>
      apply records_ite
      · intro _
        exact built
      · intro _
        apply records_bind (follows_deref _)
        intro computed
        apply records_bind (follows_store _)
        intro classifies
        apply records_ite
        · intro _
          apply records_bind (follows_deref _)
          intro term
          exact follows_report_bind _
        · intro _
          exact follows_return _ (Nat.zero_le _)

/-- An item may start with a parenthesis that waits, and is read two tokens ahead. -/
theorem follows_checkDeclListItem :
    Follows (between .single) (checkDeclListItem code) (Lfsc.checkDeclListItem plain)
      fun _ => between .free := by
  rw [checkDeclListItem, Lfsc.checkDeclListItem]
  apply records_bind (follows_next (Nat.le_refl _))
  intro t
  apply records_ite
  · rintro rfl
    apply records_bind (follows_next (Nat.zero_le _))
    intro t2
    apply records_ite
    · intro _
      apply records_bind (follows_prefixId (Nat.zero_le _))
      intro id
      apply records_bind ((checks _).anywhere (Nat.zero_le _))
      intro type
      apply records_bind (follows_eatToken .Close (Nat.zero_le _))
      intro _
      exact follows_return _ (Nat.zero_le _)
    · intro _
      apply records_bind follows_reinsert
      intro _
      apply records_bind follows_reinsert_open
      intro _
      apply records_bind ((checks _).anywhere (Nat.le_refl _))
      intro type
      apply records_bind (follows_deref _)
      intro computed
      exact follows_return _ (Nat.zero_le _)
  · intro _
    apply records_bind follows_reinsert
    intro _
    apply records_bind ((checks _).anywhere (by simp [Slots.count]))
    intro type
    exact follows_return _ (Nat.zero_le _)

theorem follows_checkDeclItems (create : Bool) (rounds : Nat) (acc : DeclList) :
    Follows (between .free) (checkDeclItems create code rounds acc)
      (Lfsc.checkDeclItems create plain rounds acc) fun _ => between .free := by
  induction rounds generalizing acc with
  | zero => exact follows_outOfFuel
  | succ rounds hyp =>
      rw [checkDeclItems, Lfsc.checkDeclItems]
      apply records_bind (follows_next (Nat.zero_le _))
      intro t
      apply records_ite
      · intro _
        exact follows_return _ (Nat.zero_le _)
      · intro _
        apply records_bind follows_reinsert
        intro _
        apply records_bind ((follows_checkDeclListItem checks).anywhere (Nat.le_refl _))
        rintro ⟨id, type⟩
        apply records_bind (follows_silent (keeps_scanner_bindDecl id type))
        rintro ⟨sym, old⟩
        exact hyp _

theorem follows_checkDeclList (fuel : Nat) (create : Bool) {situation : Situation}
    (le : situation.slots.count ≤ 1) :
    Follows situation (checkDeclList fuel create code) (Lfsc.checkDeclList fuel create plain)
      fun _ => between .free := by
  apply records_bind (follows_eatToken .Open le)
  intro _
  exact follows_checkDeclItems checks create fuel _

theorem follows_checkArrow (fuel : Nat) (args : CheckArgs) {situation : Situation}
    (le : situation.slots.count ≤ 1) :
    Follows situation (checkArrow fuel code args) (Lfsc.checkArrow fuel plain args)
      fun _ => between .free := by
  rw [checkArrow, Lfsc.checkArrow]
  apply records_bind (follows_checkDeclList checks fuel args.create le)
  intro decls
  apply records_bind ((checks _).anywhere (Nat.zero_le _))
  intro ret
  apply records_bind (follows_silent (by simp))
  intro _
  apply records_bind (follows_eatRparen (Nat.zero_le _))
  intro _
  apply records_bind (follows_deref _)
  intro computed
  apply records_bind (follows_store _)
  rintro ⟨pi, kind⟩
  cases args.expected with
  | some expected => exact follows_return _ (Nat.zero_le _)
  | none =>
      apply records_bind (follows_silent (by simp))
      intro computed
      exact follows_return _ (Nat.zero_le _)

theorem follows_checkPound (fuel : Nat) (args : CheckArgs) {situation : Situation}
    (le : situation.slots.count ≤ 1) :
    Follows situation (checkPound fuel code args) (Lfsc.checkPound fuel plain args)
      fun _ => between .free := by
  rw [checkPound, Lfsc.checkPound]
  apply records_bind (follows_prefixId le)
  intro id
  apply records_bind (follows_store _)
  intro sym
  apply records_bind (follows_silent (by simp))
  intro prevo
  apply records_bind (follows_checkDomain checks (Nat.zero_le _))
  intro domain
  apply records_bind
  · apply follows_withBinding
    apply records_bind (follows_silent (by simp))
    intro expected
    apply records_bind ((checks _).anywhere (Nat.zero_le _))
    intro range
    apply records_bind (follows_eatExcess prevo (Nat.zero_le _))
    intro _
    apply records_bind (follows_eatRparen (Nat.zero_le _))
    intro _
    apply records_bind (follows_store _)
    intro type
    apply records_bind (follows_store _)
    intro dependent
    apply records_ite
    · intro _
      apply records_bind (follows_deref _)
      intro term
      exact follows_report_bind _
    · intro _
      apply records_bind (follows_store _)
      intro var
      apply records_bind (follows_store _)
      intro _
      apply records_bind (follows_silent (by simp))
      intro computed
      exact follows_return _ (Nat.zero_le _)
  · rintro ⟨range, computed⟩
    apply records_ite
    · intro _
      apply records_bind (follows_store _)
      intro lam
      apply records_bind (follows_store _)
      intro _
      exact follows_return _ (Nat.zero_le _)
    · intro _
      exact follows_return _ (Nat.zero_le _)

theorem follows_checkPercent (args : CheckArgs) {situation : Situation}
    (le : situation.slots.count ≤ 1) :
    Follows situation (checkPercent code args) (Lfsc.checkPercent plain args)
      fun _ => between .free := by
  rw [checkPercent, Lfsc.checkPercent]
  apply records_bind (follows_silent keeps_tables_get)
  intro checker
  apply records_ite
  · intro _
    exact follows_report_bind _
  · intro _
    apply records_bind (follows_prefixId le)
    intro id
    apply records_bind (follows_store _)
    intro sym
    apply records_bind (follows_silent (by simp))
    intro prevo
    apply records_bind ((checks _).anywhere (Nat.zero_le _))
    intro domain
    apply records_bind (follows_eatExcess prevo (Nat.zero_le _))
    intro _
    apply records_bind (follows_insert _ _)
    intro prev
    apply records_bind (follows_silent (by simp))
    intro _
    exact (checks _).anywhere (Nat.zero_le _)

omit checks in
theorem follows_readLambda (expected : Option Ref) {situation : Situation}
    (le : situation.slots.count ≤ 1) :
    Follows situation (readLambda expected) (Lfsc.readLambda expected)
      fun _ => between .free := by
  cases expected with
  | none => exact follows_report _
  | some expected =>
      rw [readLambda, Lfsc.readLambda]
      apply records_bind (follows_store _)
      intro pitp
      apply records_bind (follows_store _)
      intro op
      apply records_ite
      · intro _
        exact follows_report_bind _
      · intro _
        apply records_bind (follows_prefixId le)
        intro id
        apply records_bind (follows_store _)
        intro sym
        apply records_bind (follows_store _)
        intro domain
        apply records_bind (follows_store _)
        intro range
        apply records_bind (follows_store _)
        intro pivar
        apply records_bind (follows_store _)
        intro followed
        apply records_bind (follows_store _)
        intro rangeOp
        apply records_ite
        · intro _
          exact follows_report_bind _
        · intro _
          exact follows_return _ (Nat.zero_le _)

theorem follows_checkLambda (args : CheckArgs) {situation : Situation}
    (le : situation.slots.count ≤ 1) :
    Follows situation (checkLambda code args) (Lfsc.checkLambda plain args)
      fun _ => between .free := by
  rw [checkLambda, Lfsc.checkLambda]
  apply records_bind (follows_readLambda args.expected le)
  rintro ⟨id, sym, domain, range, pivar⟩
  apply records_bind (follows_insert _ _)
  intro prev
  apply records_bind (follows_store _)
  intro prevPivarVal
  apply records_bind (follows_store _)
  intro _
  apply records_bind (follows_silent (by simp))
  intro tail
  apply records_ite
  · intro _
    apply records_bind (follows_silent (by simp))
    intro _
    exact (checks _).anywhere (Nat.zero_le _)
  · intro _
    apply records_bind (follows_silent (by simp))
    intro prevo
    apply records_bind ((checks _).anywhere (Nat.zero_le _))
    intro body
    apply records_bind (follows_eatExcess prevo (Nat.zero_le _))
    intro _
    apply records_bind (follows_eatRparen (Nat.zero_le _))
    intro _
    apply records_bind (follows_insert _ _)
    intro _
    apply records_bind (follows_store _)
    intro _
    apply records_ite
    · intro _
      apply records_bind (follows_store _)
      intro lam
      exact follows_return _ (Nat.zero_le _)
    · intro _
      exact follows_return _ (Nat.zero_le _)

theorem follows_checkCaret (fuel : Nat) (args : CheckArgs) {situation : Situation}
    (le : situation.slots.count ≤ 1) :
    Follows situation (checkCaret fuel code args) (Lfsc.checkCaret fuel plain args)
      fun _ => between .free := by
  rw [checkCaret, Lfsc.checkCaret]
  cases args.expected with
  | none => exact follows_report _
  | some expected =>
      apply records_bind (follows_silent keeps_tables_get)
      intro checker
      apply records_ite
      · intro _
        exact follows_report_bind _
      · intro _
        apply records_bind ((follows_readCode fuel).anywhere le)
        intro read
        apply records_bind (follows_deref read)
        intro e
        apply records_bind (follows_silent (by simp))
        intro progret
        apply records_bind (follows_silent (by simp))
        intro prevo
        apply records_bind (follows_deref progret)
        intro type
        apply records_bind ((checks _).anywhere (Nat.zero_le _))
        intro trm
        apply records_bind (follows_eatExcess prevo (Nat.zero_le _))
        intro _
        apply records_bind (follows_eatRparen (Nat.zero_le _))
        intro _
        apply records_bind (follows_store _)
        intro op
        apply records_ite
        · intro _
          exact follows_report_bind _
        · intro _
          apply records_bind (follows_store _)
          intro run
          exact follows_return _ (Nat.zero_le _)

theorem follows_checkColon (fuel : Nat) (args : CheckArgs) {situation : Situation}
    (le : situation.slots.count ≤ 1) :
    Follows situation (checkColon fuel code args) (Lfsc.checkColon fuel plain args)
      fun _ => between .free := by
  rw [checkColon, Lfsc.checkColon]
  apply records_bind (follows_silent (by simp))
  intro prevo
  apply records_bind ((checks _).anywhere (Nat.le_succ_of_le le))
  intro ascribed
  apply records_bind (follows_eatExcess prevo (Nat.zero_le _))
  intro _
  apply records_bind (follows_deref _)
  intro type
  apply records_bind ((checks _).anywhere (Nat.zero_le _))
  intro trm
  apply records_bind (follows_eatExcess prevo (Nat.zero_le _))
  intro _
  apply records_bind (follows_eatRparen (Nat.zero_le _))
  intro _
  cases args.expected with
  | some expected =>
      apply records_bind (follows_silent (by simp))
      intro same
      apply records_ite
      · intro _
        exact follows_report_bind _
      · intro _
        apply records_ite
        · intro _
          exact follows_return _ (Nat.zero_le _)
        · intro _
          apply records_bind (follows_deref _)
          intro term
          exact follows_return _ (Nat.zero_le _)
  | none =>
      apply records_bind (follows_silent (by simp))
      intro computed
      apply records_ite
      · intro _
        exact follows_return _ (Nat.zero_le _)
      · intro _
        exact follows_return _ (Nat.zero_le _)

theorem follows_checkAt (fuel : Nat) (args : CheckArgs) {situation : Situation}
    (le : situation.slots.count ≤ 1) :
    Follows situation (checkAt fuel code args) (Lfsc.checkAt fuel plain args)
      fun _ => between .free := by
  rw [checkAt, Lfsc.checkAt]
  apply records_bind (follows_prefixId le)
  intro id
  apply records_bind (follows_store _)
  intro sym
  apply records_bind (follows_silent (by simp))
  intro prevo
  apply records_bind ((checks _).anywhere (Nat.zero_le _))
  intro trm
  apply records_bind (follows_eatExcess prevo (Nat.zero_le _))
  intro _
  apply records_bind (follows_deref _)
  intro term
  apply records_bind (follows_silent (by simp))
  intro prev
  apply records_bind (follows_silent (by simp))
  intro tail
  apply records_ite
  · intro _
    apply records_bind (follows_silent (by simp))
    intro _
    exact (checks _).anywhere (Nat.zero_le _)
  · intro _
    apply records_bind (follows_silent (by simp))
    intro prevo
    apply records_bind ((checks _).anywhere (Nat.zero_le _))
    intro body
    apply records_bind (follows_eatExcess prevo (Nat.zero_le _))
    intro _
    apply records_bind (follows_eatRparen (Nat.zero_le _))
    intro _
    apply records_bind (follows_insert _ _)
    intro _
    exact follows_return _ (Nat.zero_le _)

theorem follows_checkTilde (args : CheckArgs) {situation : Situation}
    (le : situation.slots.count ≤ 1) :
    Follows situation (checkTilde code args) (Lfsc.checkTilde plain args)
      fun _ => between .free := by
  rw [checkTilde, Lfsc.checkTilde]
  apply records_bind (follows_silent (by simp))
  intro prevo
  apply records_bind ((checks _).anywhere (Nat.le_succ_of_le le))
  intro e
  apply records_bind (follows_eatExcess prevo (Nat.zero_le _))
  intro _
  apply records_bind (follows_eatRparen (Nat.zero_le _))
  intro _
  cases args.expected
  case' none => apply records_bind (follows_deref _)
  case' some expected => apply records_bind (follows_pure expected)
  all_goals
    intro type
    apply records_ite
    · intro _
      exact follows_report_bind _
    · intro _
      apply records_ite
      · intro _
        apply records_bind (follows_deref _)
        intro literal
        apply records_bind (follows_store _)
        intro node
        cases node with
        | int value =>
            apply records_bind (follows_store _)
            intro _
            exact follows_return _ (Nat.zero_le _)
        | rat value =>
            apply records_bind (follows_store _)
            intro _
            exact follows_return _ (Nat.zero_le _)
        | _ => exact follows_report _
      · intro _
        exact follows_return _ (Nat.zero_le _)

theorem follows_checkTailArg (fuel : Nat) (args : CheckArgs) (domain range : Ref)
    (holes : List (Option Ref)) {situation : Situation} (le : situation.slots.count ≤ 1) :
    Follows situation (checkTailArg fuel code args domain range holes)
      (Lfsc.checkTailArg fuel plain args domain range holes) fun _ => between .free := by
  have argument : ∀ computed : Option Ref, Follows situation
      (do
        checkHolesTail fuel domain holes
        let arg ← code
          { args with
            create := false, expected := some domain, computed := false, isHole := false }
        return { arg with computed })
      (do
        checkHolesTail fuel domain holes
        let arg ← plain
          { args with
            create := false, expected := some domain, computed := false, isHole := false }
        return { arg with computed }) fun _ => between .free := by
    intro computed
    apply records_bind (follows_silent (by simp))
    intro _
    apply records_bind ((checks _).anywhere (Nat.le_succ_of_le le))
    intro arg
    exact follows_return _ (Nat.zero_le _)
  rw [checkTailArg, Lfsc.checkTailArg]
  cases args.expected with
  | none =>
      apply records_bind (follows_silent (by simp))
      exact argument
  | some expected =>
      apply records_bind (follows_silent (by simp))
      intro same
      apply records_ite
      · intro _
        exact follows_report_bind _
      · intro _
        apply records_bind (follows_pure _)
        exact argument

theorem follows_checkArg (args : CheckArgs) (prevo : Int) (headtp domain : Ref)
    (headtrm : Option Ref) (holes : List (Option Ref)) {situation : Situation}
    (le : situation.slots.count ≤ 1) :
    Follows situation (checkArg code args prevo headtp domain headtrm holes)
      (Lfsc.checkArg plain args prevo headtp domain headtrm holes) fun _ => between .free := by
  rw [checkArg, Lfsc.checkArg]
  apply records_bind (follows_store _)
  intro var
  apply records_bind (follows_store _)
  intro varInRange
  apply records_bind ((checks _).anywhere (Nat.le_succ_of_le le))
  intro arg
  apply records_bind (follows_eatExcess prevo (Nat.zero_le _))
  intro _
  apply records_ite
  all_goals
    intro _
  case' first =>
    apply records_bind (follows_deref _)
    intro head
    apply records_bind (follows_store _)
    intro applied
    apply records_bind (follows_pure _)
  case' second => apply records_bind (follows_pure _)
  all_goals
    intro extended
    apply records_ite
    · intro _
      apply records_bind (follows_deref _)
      intro term
      apply records_bind (follows_store _)
      intro followed
      apply records_bind (follows_store _)
      intro _
      exact follows_return _ (Nat.zero_le _)
    · intro _
      exact follows_return _ (Nat.zero_le _)

theorem follows_checkAppArgs (fuel : Nat) (args : CheckArgs) (prevo : Int) (rounds : Nat)
    (headtrm : Option Ref) (headtp : Ref) (holes : List (Option Ref)) :
    Follows (between .single) (checkAppArgs fuel code args prevo rounds headtrm headtp holes)
      (Lfsc.checkAppArgs fuel plain args prevo rounds headtrm headtp holes)
      fun _ => between .free := by
  induction rounds generalizing headtrm headtp holes with
  | zero => exact follows_outOfFuel
  | succ rounds hyp =>
      rw [checkAppArgs, Lfsc.checkAppArgs]
      apply records_bind (follows_next (Nat.le_refl _))
      intro c
      apply records_ite
      · intro _
        exact (follows_silent (by simp)).settle fun _ => Nat.le_refl _
      · intro _
        apply records_bind follows_reinsert
        intro _
        apply records_bind (follows_store _)
        intro op
        apply records_ite
        · intro _
          exact follows_report_bind _
        · intro _
          apply records_bind (follows_store _)
          intro domain
          apply records_bind (follows_store _)
          intro range
          apply records_bind (follows_store _)
          intro domainOp
          apply records_ite
          · intro _
            apply records_bind (follows_store _)
            intro premise
            apply records_bind (follows_store _)
            intro type
            apply records_bind (follows_silent (by simp))
            intro _
            exact (hyp _ _ _).anywhere (Nat.le_refl _)
          · intro _
            apply records_bind (follows_silent (by simp))
            intro tail
            apply records_ite
            · intro _
              exact follows_checkTailArg checks fuel args domain range holes (Nat.le_refl _)
            · intro _
              apply records_bind
                (follows_checkArg checks args prevo headtp domain headtrm holes (Nat.le_refl _))
              rintro ⟨extended, found⟩
              exact (hyp _ _ _).anywhere (Nat.zero_le _)

/-- The first token of the head is put back before the head is read. -/
theorem follows_checkApp (fuel : Nat) (args : CheckArgs) (c : Token) {held : List Token}
    {fresh : Bool} :
    Follows ⟨.free, c :: held, fresh⟩ (checkApp fuel code args c) (Lfsc.checkApp fuel plain args c)
      fun _ => between .free := by
  rw [checkApp, Lfsc.checkApp]
  apply records_bind follows_reinsert
  intro _
  apply records_bind (follows_silent (by simp))
  intro prevo
  apply records_bind ((checks _).anywhere (by simp [Slots.count]))
  intro head
  apply records_bind (follows_eatExcess prevo (Nat.zero_le _))
  intro _
  apply records_bind (follows_deref _)
  intro computed
  apply records_bind (follows_store _)
  intro headtp
  apply records_bind (follows_store _)
  intro used
  apply records_ite
  all_goals
    intro _
    apply records_bind (follows_store _)
  case' second =>
    intro _
    apply records_bind (follows_pure _)
  all_goals
    intro type
    exact (follows_checkAppArgs checks fuel args prevo fuel head.term type []).anywhere
      (Nat.zero_le _)

/-- A term that starts with a parenthesis, before which another token may wait. -/
theorem follows_checkOpen (fuel : Nat) (args : CheckArgs) {situation : Situation}
    (le : situation.slots.count ≤ 1) :
    Follows situation (checkOpen fuel code args) (Lfsc.checkOpen fuel plain args)
      fun _ => between .free := by
  rw [checkOpen, Lfsc.checkOpen]
  apply records_bind (follows_silent (by simp))
  intro _
  apply records_bind (follows_next le)
  intro c
  cases c with
  | Eof => exact follows_report _
  | Bang => exact follows_checkBang checks fuel args (Nat.zero_le _)
  | Arrow => exact follows_checkArrow checks fuel args (Nat.zero_le _)
  | Pound => exact follows_checkPound checks fuel args (Nat.zero_le _)
  | Percent => exact follows_checkPercent checks args (Nat.zero_le _)
  | ReverseSolidus => exact follows_checkLambda checks args (Nat.zero_le _)
  | Caret => exact follows_checkCaret checks fuel args (Nat.zero_le _)
  | Colon => exact follows_checkColon checks fuel args (Nat.zero_le _)
  | At => exact follows_checkAt checks fuel args (Nat.zero_le _)
  | Tilde => exact follows_checkTilde checks args (Nat.zero_le _)
  | _ => exact follows_checkApp checks fuel args _

end Check

section Atoms

variable {token : Token} {held : List Token}

theorem follows_checkNumeralToken (args : CheckArgs) (type : Ref) (message : String)
    {create : CallsM Ref} {plain : CheckerM Ref}
    (creates : Follows ⟨.free, token :: held, true⟩ create plain fun _ => between .free) :
    Follows ⟨.free, token :: held, true⟩ (checkNumeralToken args type message create)
      (Lfsc.checkNumeralToken args type message plain) fun _ => between .free := by
  have numeral : ∀ computed : Option Ref, Follows ⟨.free, token :: held, true⟩
      (do if args.create then return { term := some (← create), computed }
          else return { term := none, computed })
      (do if args.create then return { term := some (← plain), computed }
          else return { term := none, computed }) fun _ : Checked => between .free := by
    intro computed
    apply records_ite
    · intro _
      apply records_bind creates
      intro term
      exact follows_return _ (Nat.zero_le _)
    · intro _
      exact follows_return _ (Nat.zero_le _)
  rw [checkNumeralToken, Lfsc.checkNumeralToken]
  cases args.expected with
  | none =>
      apply records_bind (follows_silent (by simp))
      exact numeral
  | some expected =>
      apply records_ite
      · intro _
        exact follows_report_bind _
      · intro _
        apply records_bind (follows_pure _)
        exact numeral

theorem follows_checkNatural (args : CheckArgs) :
    Follows ⟨.free, token :: held, true⟩ (checkNatural args) (Lfsc.checkNatural args)
      fun _ => between .free := by
  apply follows_checkNumeralToken
  apply records_bind follows_tokenStr
  intro text
  cases naturalValue text with
  | none => exact follows_report _
  | some value => exact (follows_store _).settle fun _ => Nat.le_refl _

theorem follows_checkRational (args : CheckArgs) :
    Follows ⟨.free, token :: held, true⟩ (checkRational args) (Lfsc.checkRational args)
      fun _ => between .free := by
  apply follows_checkNumeralToken
  apply records_bind follows_tokenStr
  intro text
  cases rationalValue text with
  | none => exact follows_report _
  | some value => exact (follows_store _).settle fun _ => Nat.le_refl _

theorem follows_checkIdent (fuel : Nat) (args : CheckArgs) :
    Follows ⟨.free, token :: held, true⟩ (checkIdent fuel args) (Lfsc.checkIdent fuel args)
      fun _ => between .free := by
  rw [checkIdent, Lfsc.checkIdent]
  apply records_bind follows_tokenStr
  intro name
  apply records_bind (follows_silent (keeps_tables_symbolsGet name))
  intro pair
  cases pair.expr with
  | none => exact follows_report _
  | some symbol =>
      cases args.expected with
      | some expected =>
          apply records_bind (follows_deref _)
          intro type
          apply records_bind (follows_silent (by simp))
          intro same
          apply records_ite
          · intro _
            exact follows_report_bind _
          · intro _
            apply records_bind (follows_pure _)
            intro computed
            exact follows_return _ (Nat.zero_le _)
      | none =>
          apply records_ite
          · intro _
            apply records_bind (follows_map (follows_deref _))
            intro computed
            exact follows_return _ (Nat.zero_le _)
          · intro _
            apply records_bind (follows_pure _)
            intro computed
            exact follows_return _ (Nat.zero_le _)

end Atoms

/-- A term may start with a parenthesis that waits before another token. -/
theorem follows_check (fuel : Nat) (args : CheckArgs) :
    Follows (between .ahead) (check fuel args) (Lfsc.check fuel args) fun _ => between .free := by
  induction fuel generalizing args with
  | zero => exact follows_outOfFuel
  | succ fuel hyp =>
      rw [check, Lfsc.check]
      apply records_bind follows_nextToken
      intro token
      cases token with
      | Open => exact follows_checkOpen hyp fuel args (Nat.le_refl _)
      | Eof => exact follows_report _
      | Hole => exact (follows_silent (by simp)).settle fun _ => Nat.le_refl _
      | Natural => exact follows_checkNatural args
      | Rational => exact follows_checkRational args
      | _ => exact follows_checkIdent fuel args

end Lookahead

end Lfsc
