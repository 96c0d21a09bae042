import Lfsc.CheckCode

/-!
# Checking terms

`check` reads a term and either synthesises its classifier or checks it against an expected one;
with `create` it also builds the term.  The jumps to `start_check` are calls with changed arguments.
-/

namespace Lfsc

/-- The arguments of `check`.  Of the two output pointers only whether they are null is given. -/
structure CheckArgs where
  /-- Whether the term is built. -/
  create : Bool
  /-- The expected classifier. -/
  expected : Option Ref := none
  /-- Whether `computed` is a pointer. -/
  computed : Bool := false
  /-- Whether `is_hole` is a pointer. -/
  isHole : Bool := false
  /-- Whether the term is in return position. -/
  returnPos : Bool := false
  /-- Whether the term is the type of an ascription. -/
  inAsc : Bool := false
  deriving DecidableEq, Repr

/-- What `check` returns and writes. -/
structure Checked where
  /-- The expression returned, or null. -/
  term : Option Ref
  /-- What was stored through `computed`, if anything. -/
  computed : Option Ref
  /-- Whether `*is_hole` was set. -/
  hole : Bool := false
  deriving DecidableEq, Repr

/-- Store through the pointer `computed`. -/
def writeComputed (pointer : Bool) (classifier : Ref) : CheckerM (Option Ref) :=
  if pointer then return some classifier else Exec.stop .undefined

/-! ## Parentheses -/

/-- `open_parens`. -/
def getOpenParens : CheckerM Int := do return (← get).openParens

/-- Change `open_parens`. -/
def addOpenParens (change : Int) : CheckerM Unit :=
  modify fun checker => { checker with openParens := checker.openParens + change }

/-- `eat_rparen`. -/
def eatRparen : CheckerM Unit := do
  eatToken .Close
  addOpenParens (-1)

/-- Close so many parentheses. -/
def eatRparens : Nat → CheckerM Unit
  | 0 => return ()
  | count + 1 => do
      eatRparen
      eatRparens count

/-- `eat_excess`. -/
def eatExcess (prev : Int) : CheckerM Unit := do eatRparens ((← getOpenParens) - prev).toNat

/-- Assign `allow_run`. -/
def setAllowRun (allow : Bool) : CheckerM Unit :=
  modify fun checker => { checker with allowRun := allow }

/-! ## Bindings -/

/-- Define a symbol, as the weak head reduct of an application. -/
def bindSymbol (fuel : Nat) (symbol e : Ref) : StoreM Unit := do
  let value ← if (← getop e) = some .app then whr fuel e else pure e
  setSymVal symbol (some value)

/-- `insertAndBindSymbol`. -/
def insertAndBindSymbol (fuel : Nat) (name : String) (symbol e : Ref) (type : Option Ref) :
    CheckerM Binding := do
  bindSymbol fuel symbol e
  symbolsInsert name ⟨some symbol, type⟩

/-- Push a shadowed pair on `local_sym_names`. -/
def saveLocal (name : String) (old : Binding) : CheckerM Unit := do
  modify fun checker => { checker with localSymNames := checker.localSymNames ++ [(name, old)] }
  record (.saved name old)

/-- The test that a classifier, followed through definitions, is `type` or `kind`. -/
def isTypeOrKind (classifier : Ref) : StoreM Bool := do
  let op ← getop (← follow classifier)
  return op = some .type ∨ op = some .kind

/-- A pi abstraction with its dependency flag computed. -/
def newPi (fuel : Nat) (symbol domain range : Option Ref) : StoreM Ref := do
  let pi ← newCExpr .pi [symbol, domain, range]
  calcFreeIn fuel pi
  return pi

open Exec

/-- A new pi abstraction is the only object that `newPi` leaves behind. -/
theorem run_newPi_ok {fuel : Nat} {symbol domain range : Option Ref} {pi : Ref}
    {before after : Store}
    (run : (newPi fuel symbol domain range).run before = .ok (pi, after)) :
    ∃ flag, before.heap.length = pi ∧ { before with
      heap := before.heap ++ [.cexpr .pi (kidsOf [symbol, domain, range]) flag] } = after := by
  simp only [newPi, newCExpr, calcFreeIn, run_bind_ok, run_new_ok, run_kid_ok] at run
  obtain ⟨_, _, ⟨rfl, rfl⟩, _, _, ⟨_, _, ⟨-, rfl⟩, _, _, ⟨-, rfl⟩, _, flag, occurs, write⟩, done⟩ :=
    run
  obtain rfl := keeps_freeIn _ _ _ _ _ _ occurs
  obtain ⟨rfl, rfl⟩ := run_pure_ok.mp done
  have allocated : (before.heap ++ [Node.cexpr .pi (kidsOf [symbol, domain, range]) false])[
      before.heap.length]? = some (.cexpr .pi (kidsOf [symbol, domain, range]) false) := by simp
  rw [run_setFlag_cexpr allocated] at write
  cases write
  exact ⟨flag, rfl, by simp⟩

/-- The domain of a `!` or `#`, where a run expression is allowed at the top. -/
def checkDomain (check : CheckArgs → CheckerM Checked) : CheckerM (Option Ref) := do
  setAllowRun true
  let prevo ← getOpenParens
  let domain ← check { create := true, expected := some statType }
  eatExcess prevo
  setAllowRun false
  return domain.term

/-! ## The term formers of `check` -/

/-- The beginning of the pi case: the variable, the domain, and the result for the range. -/
def checkBangRange (check : CheckArgs → CheckerM Checked) (args : CheckArgs) :
    CheckerM (Ref × Option Ref × Checked) := do
  let id ← prefixId
  let sym ← newSym id
  let prevo ← getOpenParens
  let domain ← checkDomain check
  let range ← withBinding id ⟨some sym, domain⟩ do
    let range ← check { args with isHole := false, inAsc := false }
    eatExcess prevo
    eatRparen
    return range
  return (sym, domain, range)

/-- The pi case. -/
def checkBang (fuel : Nat) (check : CheckArgs → CheckerM Checked) (args : CheckArgs) :
    CheckerM Checked := do
  let (sym, domain, range) ← checkBangRange check args
  match args.expected with
  | some expected =>
      if ¬ (← isTypeOrKind expected) then
        report ("The expected classifier for a pi abstraction" ++
          "is neither \"type\" nor \"kind\".\n")
      if args.create then
        return { range with term := some (← newPi fuel (some sym) domain range.term) }
      else return { range with term := none }
  | none =>
      if args.create then
        return { range with term := some (← newPi fuel (some sym) domain range.term) }
      else
        if ¬ (← isTypeOrKind (← deref range.computed)) then
          let _ ← deref range.term
          report ("The classifier for the range of a pi" ++
            "abstraction is neither \"type\" nor \"kind\".\n")
        return { range with term := none }

/-- `check_decl_list_item`: an identifier, empty if there is none, and a type. -/
def checkDeclListItem (check : CheckArgs → CheckerM Checked) :
    CheckerM (String × Option Ref) := do
  let t ← nextToken
  if t = .Open then
    let t2 ← nextToken
    if t2 = .Colon then
      let id ← prefixId
      let type ← check { create := true, expected := some statType }
      eatToken .Close
      return (id, type.term)
    else
      reinsertToken t2
      reinsertToken t
      let type ← check { create := true, computed := true }
      let _ ← deref type.computed
      return ("", type.term)
  else
    reinsertToken t
    let type ← check { create := true, expected := some statType }
    return ("", type.term)

/-- The declarations of a list and the bindings they overwrote. -/
structure DeclList where
  /-- The symbols with their types, first to last. -/
  decls : List (Ref × Option Ref)
  /-- The old bindings, first to last. -/
  oldBindings : List (String × Binding)

/-- The symbol of a declaration, bound to its identifier if it has one: the symbol and the old
binding. -/
def bindDecl (id : String) (type : Option Ref) : CheckerM (Ref × List (String × Binding)) := do
  if id ≠ "" then
    let sym ← newSym id
    let old ← symbolsInsert id ⟨some sym, type⟩
    return (sym, [(id, old)])
  else return (← newSym "_", [])

/-- The loop of `check_decl_list`. -/
def checkDeclItems (create : Bool) (check : CheckArgs → CheckerM Checked) :
    Nat → DeclList → CheckerM DeclList
  | 0, _ => outOfFuel
  | rounds + 1, acc => do
      let t ← nextToken
      if t = .Close then return acc
      reinsertToken t
      let (id, type) ← checkDeclListItem check
      let (sym, old) ← bindDecl id type
      checkDeclItems create check rounds
        { decls := if create then acc.decls ++ [(sym, type)] else acc.decls
          oldBindings := acc.oldBindings ++ old }

/-- `check_decl_list`. -/
def checkDeclList (fuel : Nat) (create : Bool) (check : CheckArgs → CheckerM Checked) :
    CheckerM DeclList := do
  eatToken .Open
  checkDeclItems create check fuel { decls := [], oldBindings := [] }

/-- The loop of `build_validate_pi`, from the last declaration to the first. -/
def buildPis (fuel : Nat) : List (Ref × Option Ref) → Option Ref → StoreM (Option Ref)
  | [], ret => return ret
  | (sym, type) :: earlier, ret => do
      let pi ← newPi fuel (some sym) type ret
      buildPis fuel earlier (some pi)

/-- `build_validate_pi`. -/
def buildValidatePi (fuel : Nat) (decls : List (Ref × Option Ref)) (ret : Option Ref)
    (retKind : Ref) (create : Bool) : StoreM (Option Ref × Ref) := do
  let op ← getop retKind
  if op = some .type ∨ op = some .kind then
    if create then return (← buildPis fuel decls.reverse ret, retKind)
    else return (none, retKind)
  else
    let _ ← deref ret
    report "Invalid Pi-range: "

/-- The arrow case. -/
def checkArrow (fuel : Nat) (check : CheckArgs → CheckerM Checked) (args : CheckArgs) :
    CheckerM Checked := do
  let decls ← checkDeclList fuel args.create check
  let ret ← check { create := args.create, computed := true }
  restoreBindings decls.oldBindings
  eatRparen
  let (pi, kind) ← buildValidatePi fuel decls.decls ret.term (← deref ret.computed) args.create
  match args.expected with
  | some _ => return { term := pi, computed := none }
  | none => return { term := pi, computed := ← writeComputed args.computed kind }

/-- The range expected for the body of an annotated lambda. -/
def annotatedRange (fuel : Nat) (domain : Option Ref) : Option Ref → CheckerM (Option Ref)
  | none => return none
  | some expected => do
      let pi ← follow expected
      if (← getop pi) ≠ some .pi then
        report ("The expected classifier for a # (annotated lambda) abstraction" ++
          "is not a pi")
      if ¬ (← defeq fuel (← kid pi 1) (← deref domain)) then
        report "The expected domain for a # (annotated lambda) abstraction "
      return some (← kid pi 2)

/-- The case of an annotated lambda. -/
def checkPound (fuel : Nat) (check : CheckArgs → CheckerM Checked) (args : CheckArgs) :
    CheckerM Checked := do
  let id ← prefixId
  let sym ← newSym id
  let prevo ← getOpenParens
  let domain ← checkDomain check
  let (range, computed) ← withBinding id ⟨some sym, domain⟩ do
    let expected ← annotatedRange fuel domain args.expected
    let range ← check
      { create := args.create, expected, computed := true, returnPos := args.returnPos }
    eatExcess prevo
    eatRparen
    let type ← newPi fuel (some sym) domain range.computed
    if ← getFlag type then
      let _ ← deref range.term
      report "The type of an annotated lambda is dependent."
    setKid type 0 (← newSym id)
    return (range, ← writeComputed args.computed type)
  if args.create then
    let lam ← newCExpr .lam [some sym, range.term]
    setFlag lam true
    return { term := some lam, computed }
  else return { term := none, computed }

/-- The case of a big lambda. -/
def checkPercent (check : CheckArgs → CheckerM Checked) (args : CheckArgs) :
    CheckerM Checked := do
  if args.expected ≠ none ∨ args.create ∨ ¬ args.returnPos ∨ ¬ (← get).bigCheck then
    report ("Big lambda abstractions can only be used" ++
      "in the return position of a \"bigcheck\"\ncommand.")
  let id ← prefixId
  let sym ← newSym id
  let prevo ← getOpenParens
  let domain ← check { create := true, expected := some statType }
  eatExcess prevo
  let prev ← symbolsInsert id ⟨some sym, domain.term⟩
  saveLocal id prev
  check { args with create := false, expected := none, isHole := false }

/-- The beginning of the lambda case: the identifier, its symbol, and the domain, the range and the
variable of the expected pi abstraction. -/
def readLambda (expected : Option Ref) : CheckerM (String × Ref × Ref × Ref × Ref) := do
  match expected with
  | none =>
      report ("We are computing a type for a lambda " ++
        "abstraction, but we can only check\n" ++
        "such against a type.  Try inserting an " ++
        "ascription (using ':').\n")
  | some expected =>
      let pitp ← follow expected
      if (← getop pitp) ≠ some .pi then
        report ("We are type-checking a lambda abstraction, but\n" ++
          "the expected type is not a pi abstraction.\n")
      let id ← prefixId
      let sym ← newSym id
      let domain ← kid pitp 1
      let range ← kid pitp 2
      let pivar ← kid pitp 0
      if (← getop (← follow range)) = some .type then
        report ("The expected classifier for a lambda abstraction" ++
          " a kind, not a type.\n")
      return (id, sym, domain, range, pivar)

/-- Whether a case that binds an identifier ends in a tail call. -/
def inTailPosition (args : CheckArgs) : CheckerM Bool := do
  let checker ← get
  return checker.tailCalls ∧ checker.bigCheck ∧ args.returnPos ∧ ¬ args.create

/-- The lambda case. -/
def checkLambda (check : CheckArgs → CheckerM Checked) (args : CheckArgs) :
    CheckerM Checked := do
  let (id, sym, domain, range, pivar) ← readLambda args.expected
  let prev ← symbolsInsert id ⟨some sym, some domain⟩
  let prevPivarVal ← symVal pivar
  setSymVal pivar (some sym)
  if ← inTailPosition args then
    saveLocal id prev
    check { args with
      create := false, expected := some range, computed := false, isHole := false }
  else
    let prevo ← getOpenParens
    let body ← check
      { create := args.create, expected := some range, returnPos := args.returnPos }
    eatExcess prevo
    eatRparen
    let _ ← symbolsInsert id prev
    setSymVal pivar prevPivarVal
    if args.create then
      return { term := some (← newCExpr .lam [some sym, body.term]), computed := none }
    else return { term := none, computed := none }

/-- The run case. -/
def checkCaret (fuel : Nat) (check : CheckArgs → CheckerM Checked) (args : CheckArgs) :
    CheckerM Checked := do
  match args.expected with
  | none => report "A run expression (operator \"^\") appears in a disallowed position."
  | some expected => do
      if ¬ (← get).allowRun ∨ ¬ args.create then
        report "A run expression (operator \"^\") appears in a disallowed position."
      let code ← readCode fuel
      let progret ← checkCode fuel (← deref code)
      let prevo ← getOpenParens
      let trm ← check { create := true, expected := some (← deref progret) }
      eatExcess prevo
      eatRparen
      if (← getop expected) ≠ some .type then
        report "The expected type for a run expression is not \"type\".\n"
      return { term := some (← newCExpr .run [code, trm.term]), computed := none }

/-- The ascription case.  With an expected type and nothing created, `dec` is called on the null
pointer that was returned for the term. -/
def checkColon (fuel : Nat) (check : CheckArgs → CheckerM Checked) (args : CheckArgs) :
    CheckerM Checked := do
  let prevo ← getOpenParens
  let type ← check { create := true, expected := some statType, inAsc := true }
  eatExcess prevo
  let type ← deref type.term
  let trm ← check
    { create := args.create, expected := some type, returnPos := args.returnPos }
  eatExcess prevo
  eatRparen
  match args.expected with
  | some expected =>
      if ¬ (← defeq fuel expected type) then
        report ("The expected type does not match the " ++
          "ascribed type in an ascription.\n")
      if args.create then return { term := trm.term, computed := none }
      else
        let _ ← deref trm.term
        return { term := none, computed := none }
  | none =>
      let computed ← writeComputed args.computed type
      if args.create then return { term := trm.term, computed }
      else return { term := none, computed }

/-- The case of a local definition. -/
def checkAt (fuel : Nat) (check : CheckArgs → CheckerM Checked) (args : CheckArgs) :
    CheckerM Checked := do
  let id ← prefixId
  let sym ← newSym id
  let prevo ← getOpenParens
  let trm ← check { create := true, computed := true }
  eatExcess prevo
  let prev ← insertAndBindSymbol fuel id sym (← deref trm.term) trm.computed
  if ← inTailPosition args then
    record (.leaked id)
    check args
  else
    let prevo ← getOpenParens
    let body ← check { args with inAsc := false }
    eatExcess prevo
    eatRparen
    let _ ← symbolsInsert id prev
    return body

/-- The case of a negated numeral. -/
def checkTilde (check : CheckArgs → CheckerM Checked) (args : CheckArgs) :
    CheckerM Checked := do
  let prevo ← getOpenParens
  let e ← check { args with inAsc := false }
  eatExcess prevo
  eatRparen
  let type ←
    match args.expected with
    | some expected => pure expected
    | none => deref e.computed
  if type ≠ statMpz ∧ type ≠ statMpq then
    report "Negative sign where an numeric expression is expected."
  if args.create then
    let literal ← deref e.term
    match ← load literal with
    | .int value =>
        put literal (.int (-value))
        return e
    | .rat value =>
        put literal (.rat (-value))
        return e
    | _ => report "Negative sign with expr that is not an int. literal."
  else return { e with term := none }

/-! ## Applications -/

/-- Run the side condition of a run premise and compare its result with the expected one. -/
def runPremise (fuel : Nat) (code expected : Ref) : RunM Unit := do
  match ← runCode fuel code with
  | none => report "A side condition failed.\n"
  | some computed =>
      if ¬ (← defeq fuel expected computed) then
        report ("The expected result of a side condition " ++
          "does not match the computed result.\n")

/-- The test that a hole is filled, or will be because it occurs in the domain of the last
argument. -/
def checkHolesTail (fuel : Nat) (domain : Ref) : List (Option Ref) → CheckerM Unit
  | [] => return ()
  | hole :: rest => do
      let hole ← deref hole
      match ← load hole with
      | .hole none =>
          if ¬ (← freeIn fuel domain hole) then
            report "A hole was left unfilled after checking an application.\n"
          recordHole (.deferred hole)
      | _ => pure ()
      checkHolesTail fuel domain rest

/-- The test that a hole is filled at the end of an application, or belongs to an ascribed type. -/
def checkHoles (inAsc : Bool) : List (Option Ref) → CheckerM Unit
  | [] => return ()
  | hole :: rest => do
      let hole ← deref hole
      match ← load hole with
      | .hole none =>
          if inAsc then
            modify fun checker => { checker with ascHoles := checker.ascHoles ++ [hole] }
            recordHole (.ascribed hole)
          else report "A hole was left unfilled after checking an application (2).\n"
      | _ => pure ()
      checkHoles inAsc rest

/-- The tail call of an application into its last argument. -/
def checkTailArg (fuel : Nat) (check : CheckArgs → CheckerM Checked) (args : CheckArgs)
    (domain range : Ref) (holes : List (Option Ref)) : CheckerM Checked := do
  let computed ←
    match args.expected with
    | some expected => do
        if ¬ (← defeq fuel expected range) then
          report ("The type expected for an application " ++
            "does not match the computed type.\n")
        pure none
    | none => writeComputed args.computed range
  checkHolesTail fuel domain holes
  let arg ← check
    { args with create := false, expected := some domain, computed := false, isHole := false }
  return { arg with computed }

/-- The end of an application, after its closing parenthesis. -/
def checkAppEnd (fuel : Nat) (args : CheckArgs) (headtrm : Option Ref) (headtp : Ref)
    (holes : List (Option Ref)) : CheckerM Checked := do
  addOpenParens (-1)
  let headtp ←
    if (← getop headtp) = some .pi then do
      let run ← kid headtp 1
      if (← getop run) = some .run then
        let code ← follow (← kid run 0)
        runPremise fuel code (← kid run 1)
        onStore (kid headtp 2)
      else pure headtp
    else pure headtp
  let computed ←
    match args.expected with
    | some expected => do
        if ¬ (← defeq fuel expected headtp) then
          report ("The type expected for an application does not" ++
            " match the computed type.(2) \n")
        pure none
    | none => writeComputed args.computed headtp
  checkHoles args.inAsc holes
  return { term := if args.create then headtrm else none, computed }

/-- An argument of an application that is no tail call: the term and the holes so far. -/
def checkArg (check : CheckArgs → CheckerM Checked) (args : CheckArgs) (prevo : Int)
    (headtp domain : Ref) (headtrm : Option Ref) (holes : List (Option Ref)) :
    CheckerM (Option Ref × List (Option Ref)) := do
  let var ← kid headtp 0
  let varInRange ← getFlag headtp
  let arg ← check { create := args.create || varInRange, expected := some domain, isHole := true }
  eatExcess prevo
  let headtrm ←
    if args.create then do pure (some (← makeApp (← deref headtrm) arg.term))
    else pure headtrm
  if varInRange then setSymVal var (some (← follow (← deref arg.term)))
  return (headtrm, if arg.hole then holes ++ [arg.term] else holes)

/-- Whether the last argument of an application is checked by a tail call. -/
def isTailArg (args : CheckArgs) (headtp range : Ref) : CheckerM Bool := do
  let createArg := args.create || (← getFlag headtp)
  return (← get).tailCalls ∧ ¬ createArg ∧ (← getop range) ≠ some .pi

/-- The loop of `check` over the arguments of an application. -/
def checkAppArgs (fuel : Nat) (check : CheckArgs → CheckerM Checked) (args : CheckArgs)
    (prevo : Int) :
    Nat → Option Ref → Ref → List (Option Ref) → CheckerM Checked
  | 0, _, _, _ => outOfFuel
  | rounds + 1, headtrm, headtp, holes => do
      let c ← nextToken
      if c = .Close then checkAppEnd fuel args headtrm headtp holes
      else
        reinsertToken c
        if (← getop headtp) ≠ some .pi then
          report "The type of an applied term is not a pi-type.\n"
        let domain ← kid headtp 1
        let range ← kid headtp 2
        if (← getop domain) = some .run then
          runPremise fuel (← kid domain 0) (← kid domain 1)
          checkAppArgs fuel check args prevo rounds headtrm range holes
        else if ← isTailArg args headtp range then
          checkTailArg fuel check args domain range holes
        else
          let (headtrm, holes) ← checkArg check args prevo headtp domain headtrm holes
          checkAppArgs fuel check args prevo rounds headtrm range holes

/-- The application case.  The type of the head is used in place the first time and cloned from then
on, one flag standing both for "already used" and for a dependent range. -/
def checkApp (fuel : Nat) (check : CheckArgs → CheckerM Checked) (args : CheckArgs) (c : Token) :
    CheckerM Checked := do
  reinsertToken c
  let prevo ← getOpenParens
  let head ← check { create := args.create, computed := true }
  eatExcess prevo
  let headtp ← follow (← deref head.computed)
  let headtp ←
    if ← getFlag headtp then onStore (clone fuel headtp)
    else do
      setFlag headtp true
      pure headtp
  checkAppArgs fuel check args prevo fuel head.term headtp []

/-! ## Leaves -/

/-- A hole. -/
def checkHole (args : CheckArgs) : CheckerM Checked := do
  if ¬ args.isHole then report "A hole is being used in a disallowed position."
  return { term := some (← new (.hole none)), computed := none, hole := true }

/-- A numeral, whose expected type must be the very object of the built-in type. -/
def checkNumeralToken (args : CheckArgs) (type : Ref) (message : String)
    (create : CheckerM Ref) : CheckerM Checked := do
  let computed ←
    match args.expected with
    | some expected => do
        if expected ≠ type then report message
        pure none
    | none => writeComputed args.computed type
  if args.create then return { term := some (← create), computed }
  else return { term := none, computed }

/-- A natural number. -/
def checkNatural (args : CheckArgs) : CheckerM Checked :=
  checkNumeralToken args statMpz
    "We parsed an integer, but were expecting a term of a different type.\n" do
      match naturalValue (← tokenStr) with
      | some value => onStore (new (.int value))
      | none => report "Error reading a numeral."

/-- A rational number. -/
def checkRational (args : CheckArgs) : CheckerM Checked :=
  checkNumeralToken args statMpq
    "We parsed a rational, but were expecting a term of a different type.\n" do
      match rationalValue (← tokenStr) with
      | some (numerator, denominator) => onStore (newRat numerator denominator)
      | none => report "Error reading a numeral."

/-- An identifier, which any other token counts as. -/
def checkIdent (fuel : Nat) (args : CheckArgs) : CheckerM Checked := do
  let pair ← symbolsGet (← tokenStr)
  match pair.expr with
  | none => report "Undeclared identifier: "
  | some symbol =>
      let computed ←
        match args.expected with
        | some expected => do
            if ¬ (← defeq fuel expected (← deref pair.type)) then
              report "The type expected for a symbol does not match the symbol's type.\n"
            pure none
        | none => if args.computed then some <$> deref pair.type else pure none
      return { term := if args.create then some symbol else none, computed }

/-- A term that starts with an opening parenthesis. -/
def checkOpen (fuel : Nat) (check : CheckArgs → CheckerM Checked) (args : CheckArgs) :
    CheckerM Checked := do
  addOpenParens 1
  match ← nextToken with
  | .Eof => report "Unexpected end of file."
  | .Bang => checkBang fuel check args
  | .Arrow => checkArrow fuel check args
  | .Pound => checkPound fuel check args
  | .Percent => checkPercent check args
  | .ReverseSolidus => checkLambda check args
  | .Caret => checkCaret fuel check args
  | .Colon => checkColon fuel check args
  | .At => checkAt fuel check args
  | .Tilde => checkTilde check args
  | c => checkApp fuel check args c

/-- `check`. -/
def check : Nat → CheckArgs → CheckerM Checked
  | 0, _ => outOfFuel
  | fuel + 1, args => do
      match ← nextToken with
      | .Open => checkOpen fuel (check fuel) args
      | .Eof => report "Unexpected end of file."
      | .Hole => checkHole args
      | .Natural => checkNatural args
      | .Rational => checkRational args
      | _ => checkIdent fuel args

end Lfsc
