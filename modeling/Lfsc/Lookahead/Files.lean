import Lfsc.Lookahead.Checking

/-!
# Calls of the scanner while a file is checked

The functions that `check_file` consists of, with their calls.  Nothing waits between two commands,
so that every file is read from free slots on, however many were read before it.
-/

namespace Lfsc

namespace Lookahead

open Exec Traced

/-! ## The functions -/

/-- `define`. -/
def cmdDefine (fuel : Nat) : CallsM Unit := do
  let id ← prefixId
  let prevo ← getOpenParens
  let t ← check fuel { create := true, computed := true, returnPos := true }
  eatExcess prevo
  let type ← deref t.computed
  if (← getop (← follow type)) = some .kind then
    report "Kind-level definitions are not supported.\n"
  let s ← newSym id
  rejectRebind (← insertAndBindSymbol fuel id s (← deref t.term) (some type))

/-- `declare`. -/
def cmdDeclare (fuel : Nat) : CallsM Unit := do
  let id ← prefixId
  let prevo ← getOpenParens
  let t ← check fuel { create := true, computed := true, returnPos := true }
  eatExcess prevo
  if ¬ (← isTypeOrKind (← deref t.computed)) then
    report "The expression declared is neither\na type nor a kind.\n"
  let s ← newSym id
  rejectRebind (← symbolsInsert id ⟨some s, t.term⟩)

/-- `declare-rule`. -/
def cmdDeclareRule (fuel : Nat) : CallsM Unit := do
  let id ← prefixId
  let decls ← checkDeclList fuel true (check fuel)
  let ret ← check fuel { create := true, computed := true }
  restoreBindings decls.oldBindings
  let (type, _) ← buildValidatePi fuel decls.decls ret.term (← deref ret.computed) true
  let s ← newSym id
  rejectRebind (← symbolsInsert id ⟨some s, type⟩)

/-- `declare-type`. -/
def cmdDeclareType (fuel : Nat) : CallsM Unit := do
  let id ← prefixId
  let decls ← checkDeclList fuel true (check fuel)
  restoreBindings decls.oldBindings
  let (type, _) ← buildValidatePi fuel decls.decls (some statType) statKind true
  let s ← newSym id
  rejectRebind (← symbolsInsert id ⟨some s, type⟩)

/-- `define-const`. -/
def cmdDefineConst (fuel : Nat) : CallsM Unit := do
  let id ← prefixId
  let decls ← checkDeclList fuel true (check fuel)
  let ret ← check fuel { create := true, computed := true }
  let (value, type) ← buildMacro fuel decls.decls ret.term ret.computed
  restoreBindings decls.oldBindings
  let s ← newSym id
  rejectRebind (← insertAndBindSymbol fuel id s (← deref value) type)

/-- The end of `check` and `check-assuming`: local names are restored and marks cleared. -/
def cleanUp (prev : Int) : CallsM Unit := do
  restoreBindings (← get).localSymNames
  modify fun checker =>
    { checker with
      localSymNames := []
      runtime := { checker.runtime with marks := fun _ _ => false } }
  eatExcess prev

/-- `check`. -/
def cmdCheck (fuel : Nat) : CallsM Unit := do
  let prev ← getOpenParens
  modify fun checker => { checker with bigCheck := true }
  let t ← check fuel { create := false, computed := true, returnPos := true }
  modify fun checker => { checker with ascHoles := [] }
  let _ ← deref t.computed
  cleanUp prev

/-- `check-assuming`. -/
def cmdCheckAssuming (fuel : Nat) : CallsM Unit := do
  let prev ← getOpenParens
  let decls ← checkDeclList fuel false (check fuel)
  let type ← check fuel { create := true, expected := some statType }
  let _ ← check fuel { create := false, expected := some (← deref type.term) }
  restoreBindings decls.oldBindings
  cleanUp prev

/-- `opaque`. -/
def cmdOpaque (fuel : Nat) : CallsM Unit := do
  let id ← prefixId
  let prevo ← getOpenParens
  let t ← check fuel { create := false, computed := true, returnPos := true }
  eatExcess prevo
  let type ← deref t.computed
  if (← getop (← follow type)) = some .kind then
    report "Kind-level definitions are not supported.\n"
  let s ← newSym id
  rejectRebind (← symbolsInsert id ⟨some s, some type⟩)

/-- `run`. -/
def cmdRun (fuel : Nat) : CallsM Unit := do
  let code ← deref (← readCode fuel)
  let _ ← checkCode fuel code
  let _ ← runCode fuel code

/-- The loop of `program` and `function` over the parameters: names, symbols and types. -/
def readParams (fuel : Nat) : Nat → List (String × Ref × Ref) → CallsM (List (String × Ref × Ref))
  | 0, _ => outOfFuel
  | rounds + 1, acc => do
      let d ← nextToken
      if d = .Close then return acc
      reinsertToken d
      eatToken .Open
      let name ← prefixId
      if (← symbolsGet name).expr ≠ none then
        report "A program variable is already declared (as a constant).\n"
      let var ← newSym name
      let prev ← getOpenParens
      let type ← check fuel { create := true, computed := true, returnPos := true }
      let type ← deref type.term
      checkProper fuel type "A program argument's type is neither proper, nor a datatype."
      eatExcess prev
      eatToken .Close
      let _ ← symbolsInsert name ⟨some var, some type⟩
      readParams fuel rounds (acc ++ [(name, var, type)])

/-- The return type and the body of a program, which may call itself: the expression that defines
it. -/
def readProgram (fuel : Nat) (prog : Ref) (params : List (String × Ref × Ref)) : CallsM Ref := do
  let prev ← getOpenParens
  let ret ← check fuel
    { create := true, expected := some statType, computed := true, returnPos := true }
  let ret ← deref ret.term
  eatExcess prev
  checkProper fuel ret "A program's return type is neither proper, nor a datatype."
  let code ← readCode fuel
  let type ← progType fuel params.reverse ret
  setSymVal prog (some (← newCExpr .prog [some type]))
  let bodyType ← checkCode fuel (← deref code)
  if ¬ (← defeq fuel (← deref bodyType) ret) then
    report "Return type for a program does not match its body.\n"
  let vars ← newCExpr .progvars (params.map fun param => some param.2.1)
  newCExpr .prog [some type, some vars, code]

/-- `program` and `function`. -/
def cmdProgram (fuel : Nat) (isFunction : Bool) : CallsM Unit := do
  let prog ← declareProg (← prefixId) isFunction
  eatToken .Open
  let params ← readParams fuel fuel []
  if params = [] then report "A program lacks input variables."
  let body ← readProgram fuel prog params
  unbindParams params
  setSymVal prog (some body)

/-- The command that a token starts. -/
def command (fuel : Nat) : Token → CallsM Unit
  | .Define => cmdDefine fuel
  | .Declare => cmdDeclare fuel
  | .DeclareRule => cmdDeclareRule fuel
  | .DeclareType => cmdDeclareType fuel
  | .DefineConst => cmdDefineConst fuel
  | .Check => cmdCheck fuel
  | .CheckAssuming => cmdCheckAssuming fuel
  | .Opaque => cmdOpaque fuel
  | .Run => cmdRun fuel
  | .Program => cmdProgram fuel false
  | .Function => cmdProgram fuel true
  | _ => unexpectedTokenError "Acceptable top-level commands are:"

/-- The loop of `check_file`. -/
def checkFile (fuel : Nat) : Nat → CallsM Unit
  | 0 => outOfFuel
  | rounds + 1 => do
      match ← nextToken with
      | .Eof => return ()
      | .Open =>
          command fuel (← nextToken)
          checkFile fuel rounds
      | .Close => checkFile fuel rounds
      | _ => unexpectedTokenError "Top-level commands must start with parentheses"


/-! ## Computations without calls -/

@[simp]
theorem keeps_scanner_rejectRebind (prev : Binding) : Keeps SameScanner (rejectRebind prev) :=
  keeps_ite (keeps_stop _) (keeps_pure _)

@[simp]
theorem keeps_scanner_unbindParams (params : List (String × Ref × Ref)) :
    Keeps SameScanner (unbindParams params) := by
  rw [unbindParams]
  induction params with
  | nil => exact keeps_pure _
  | cons param rest hyp =>
      exact keeps_bind (keeps_bind (keeps_tables_symbolsInsert _ _) fun _ => keeps_pure _) fun _ =>
        hyp

@[simp]
theorem keeps_scanner_declareProg (progstr : String) (isFunction : Bool) :
    Keeps SameScanner (declareProg progstr isFunction) := by
  rw [declareProg]
  repeat' first
    | exact keeps_scanner_modify fun _ => ⟨rfl, rfl, rfl⟩
    | with_reducible refine keeps_bind ?_ fun _ => ?_
    | split
    | dsimp only
    | simp

/-! ## Their calls -/

section Commands

variable {situation : Situation} (le : situation.slots.count ≤ 1) (fuel : Nat)
include le

theorem follows_cmdDefine :
    Follows situation (cmdDefine fuel) (Lfsc.cmdDefine fuel) fun _ => between .free := by
  rw [cmdDefine, Lfsc.cmdDefine]
  apply records_bind (follows_prefixId le)
  intro id
  apply records_bind (follows_silent (by simp))
  intro prevo
  apply records_bind ((follows_check fuel _).anywhere (Nat.zero_le _))
  intro t
  apply records_bind (follows_eatExcess prevo (Nat.zero_le _))
  intro _
  apply records_bind (follows_deref _)
  intro type
  apply records_bind (follows_store _)
  intro followed
  apply records_bind (follows_store _)
  intro op
  apply records_ite
  · intro _
    exact follows_report_bind _
  · intro _
    apply records_bind (follows_store _)
    intro s
    apply records_bind (follows_deref _)
    intro term
    apply records_bind (follows_silent (by simp))
    intro prev
    exact follows_silent (by simp)

theorem follows_cmdDeclare :
    Follows situation (cmdDeclare fuel) (Lfsc.cmdDeclare fuel) fun _ => between .free := by
  rw [cmdDeclare, Lfsc.cmdDeclare]
  apply records_bind (follows_prefixId le)
  intro id
  apply records_bind (follows_silent (by simp))
  intro prevo
  apply records_bind ((follows_check fuel _).anywhere (Nat.zero_le _))
  intro t
  apply records_bind (follows_eatExcess prevo (Nat.zero_le _))
  intro _
  apply records_bind (follows_deref _)
  intro type
  apply records_bind (follows_store _)
  intro classifies
  apply records_ite
  · intro _
    exact follows_report_bind _
  · intro _
    apply records_bind (follows_store _)
    intro s
    apply records_bind (follows_insert _ _)
    intro prev
    exact follows_silent (by simp)

theorem follows_cmdDeclareRule :
    Follows situation (cmdDeclareRule fuel) (Lfsc.cmdDeclareRule fuel) fun _ => between .free := by
  rw [cmdDeclareRule, Lfsc.cmdDeclareRule]
  apply records_bind (follows_prefixId le)
  intro id
  apply records_bind (follows_checkDeclList (follows_check fuel) fuel true (Nat.zero_le _))
  intro decls
  apply records_bind ((follows_check fuel _).anywhere (Nat.zero_le _))
  intro ret
  apply records_bind (follows_silent (by simp))
  intro _
  apply records_bind (follows_deref _)
  intro computed
  apply records_bind (follows_store _)
  rintro ⟨type, kind⟩
  apply records_bind (follows_store _)
  intro s
  apply records_bind (follows_insert _ _)
  intro prev
  exact follows_silent (by simp)

theorem follows_cmdDeclareType :
    Follows situation (cmdDeclareType fuel) (Lfsc.cmdDeclareType fuel) fun _ => between .free := by
  rw [cmdDeclareType, Lfsc.cmdDeclareType]
  apply records_bind (follows_prefixId le)
  intro id
  apply records_bind (follows_checkDeclList (follows_check fuel) fuel true (Nat.zero_le _))
  intro decls
  apply records_bind (follows_silent (by simp))
  intro _
  apply records_bind (follows_store _)
  rintro ⟨type, kind⟩
  apply records_bind (follows_store _)
  intro s
  apply records_bind (follows_insert _ _)
  intro prev
  exact follows_silent (by simp)

theorem follows_cmdDefineConst :
    Follows situation (cmdDefineConst fuel) (Lfsc.cmdDefineConst fuel) fun _ => between .free := by
  rw [cmdDefineConst, Lfsc.cmdDefineConst]
  apply records_bind (follows_prefixId le)
  intro id
  apply records_bind (follows_checkDeclList (follows_check fuel) fuel true (Nat.zero_le _))
  intro decls
  apply records_bind ((follows_check fuel _).anywhere (Nat.zero_le _))
  intro ret
  apply records_bind (follows_store _)
  rintro ⟨value, type⟩
  apply records_bind (follows_silent (by simp))
  intro _
  apply records_bind (follows_store _)
  intro s
  apply records_bind (follows_deref _)
  intro defined
  apply records_bind (follows_silent (by simp))
  intro prev
  exact follows_silent (by simp)

omit le in
theorem follows_cleanUp (prev : Int) :
    Follows (between .free) (cleanUp prev) (Lfsc.cleanUp prev) fun _ => between .free := by
  rw [cleanUp, Lfsc.cleanUp]
  apply records_bind (follows_silent keeps_tables_get)
  intro checker
  apply records_bind (follows_silent (by simp))
  intro _
  apply records_bind (follows_modify fun _ => by constructor <;> rfl)
  intro _
  exact follows_eatExcess prev (Nat.zero_le _)

theorem follows_cmdCheck :
    Follows situation (cmdCheck fuel) (Lfsc.cmdCheck fuel) fun _ => between .free := by
  rw [cmdCheck, Lfsc.cmdCheck]
  apply records_bind (follows_silent (by simp))
  intro prev
  apply records_bind (follows_modify fun _ => by constructor <;> rfl)
  intro _
  apply records_bind ((follows_check fuel _).anywhere (Nat.le_succ_of_le le))
  intro t
  apply records_bind (follows_modify fun _ => by constructor <;> rfl)
  intro _
  apply records_bind (follows_deref _)
  intro computed
  exact follows_cleanUp prev

theorem follows_cmdCheckAssuming :
    Follows situation (cmdCheckAssuming fuel) (Lfsc.cmdCheckAssuming fuel)
      fun _ => between .free := by
  rw [cmdCheckAssuming, Lfsc.cmdCheckAssuming]
  apply records_bind (follows_silent (by simp))
  intro prev
  apply records_bind (follows_checkDeclList (follows_check fuel) fuel false le)
  intro decls
  apply records_bind ((follows_check fuel _).anywhere (Nat.zero_le _))
  intro type
  apply records_bind (follows_deref _)
  intro expected
  apply records_bind ((follows_check fuel _).anywhere (Nat.zero_le _))
  intro _
  apply records_bind (follows_silent (by simp))
  intro _
  exact follows_cleanUp prev

theorem follows_cmdOpaque :
    Follows situation (cmdOpaque fuel) (Lfsc.cmdOpaque fuel) fun _ => between .free := by
  rw [cmdOpaque, Lfsc.cmdOpaque]
  apply records_bind (follows_prefixId le)
  intro id
  apply records_bind (follows_silent (by simp))
  intro prevo
  apply records_bind ((follows_check fuel _).anywhere (Nat.zero_le _))
  intro t
  apply records_bind (follows_eatExcess prevo (Nat.zero_le _))
  intro _
  apply records_bind (follows_deref _)
  intro type
  apply records_bind (follows_store _)
  intro followed
  apply records_bind (follows_store _)
  intro op
  apply records_ite
  · intro _
    exact follows_report_bind _
  · intro _
    apply records_bind (follows_store _)
    intro s
    apply records_bind (follows_insert _ _)
    intro prev
    exact follows_silent (by simp)

theorem follows_cmdRun :
    Follows situation (cmdRun fuel) (Lfsc.cmdRun fuel) fun _ => between .free := by
  rw [cmdRun, Lfsc.cmdRun]
  apply records_bind ((follows_readCode fuel).anywhere le)
  intro read
  apply records_bind (follows_deref read)
  intro code
  apply records_bind (follows_silent (by simp))
  intro _
  apply records_bind (follows_silent (by simp))
  intro _
  exact follows_return () (Nat.zero_le _)

omit le in
theorem follows_readParams (rounds : Nat) (acc : List (String × Ref × Ref)) :
    Follows (between .free) (readParams fuel rounds acc) (Lfsc.readParams fuel rounds acc)
      fun _ => between .free := by
  induction rounds generalizing acc with
  | zero => exact follows_outOfFuel
  | succ rounds hyp =>
      rw [readParams, Lfsc.readParams]
      apply records_bind (follows_next (Nat.zero_le _))
      intro d
      apply records_ite
      · intro _
        exact follows_return _ (Nat.zero_le _)
      · intro _
        apply records_bind follows_reinsert
        intro _
        apply records_bind (follows_eatToken .Open (Nat.le_refl _))
        intro _
        apply records_bind (follows_prefixId (Nat.zero_le _))
        intro name
        apply records_bind (follows_silent (keeps_tables_symbolsGet name))
        intro pair
        apply records_ite
        · intro _
          exact follows_report_bind _
        · intro _
          apply records_bind (follows_store _)
          intro var
          apply records_bind (follows_silent (by simp))
          intro prev
          apply records_bind ((follows_check fuel _).anywhere (Nat.zero_le _))
          intro read
          apply records_bind (follows_deref _)
          intro type
          apply records_bind (follows_silent (by simp))
          intro _
          apply records_bind (follows_eatExcess prev (Nat.zero_le _))
          intro _
          apply records_bind (follows_eatToken .Close (Nat.zero_le _))
          intro _
          apply records_bind (follows_insert _ _)
          intro _
          exact hyp _

omit le in
theorem follows_readProgram (prog : Ref) (params : List (String × Ref × Ref)) :
    Follows (between .free) (readProgram fuel prog params) (Lfsc.readProgram fuel prog params)
      fun _ => between .free := by
  rw [readProgram, Lfsc.readProgram]
  apply records_bind (follows_silent (by simp))
  intro prev
  apply records_bind ((follows_check fuel _).anywhere (Nat.zero_le _))
  intro read
  apply records_bind (follows_deref _)
  intro ret
  apply records_bind (follows_eatExcess prev (Nat.zero_le _))
  intro _
  apply records_bind (follows_silent (by simp))
  intro _
  apply records_bind ((follows_readCode fuel).anywhere (Nat.zero_le _))
  intro code
  apply records_bind (follows_store _)
  intro type
  apply records_bind (follows_store _)
  intro symbol
  apply records_bind (follows_store _)
  intro _
  apply records_bind (follows_deref code)
  intro body
  apply records_bind (follows_silent (by simp))
  intro bodyType
  apply records_bind (follows_deref bodyType)
  intro computed
  apply records_bind (follows_silent (by simp))
  intro same
  apply records_ite
  · intro _
    exact follows_report_bind _
  · intro _
    apply records_bind (follows_store _)
    intro vars
    exact follows_store _

theorem follows_cmdProgram (isFunction : Bool) :
    Follows situation (cmdProgram fuel isFunction) (Lfsc.cmdProgram fuel isFunction)
      fun _ => between .free := by
  rw [cmdProgram, Lfsc.cmdProgram]
  apply records_bind (follows_prefixId le)
  intro id
  apply records_bind (follows_silent (by simp))
  intro prog
  apply records_bind (follows_eatToken .Open (Nat.zero_le _))
  intro _
  apply records_bind (follows_readParams fuel fuel [])
  intro params
  apply records_ite
  · intro _
    exact follows_report_bind _
  · intro _
    apply records_bind (follows_readProgram fuel prog params)
    intro body
    apply records_bind (follows_silent (by simp))
    intro _
    exact follows_store _

omit le in
/-- A command starts after the token that names it. -/
theorem follows_command (token : Token) {held : List Token} :
    Follows ⟨.free, token :: held, true⟩ (command fuel token) (Lfsc.command fuel token)
      fun _ => between .free := by
  cases token with
  | Define => exact follows_cmdDefine (Nat.zero_le _) fuel
  | Declare => exact follows_cmdDeclare (Nat.zero_le _) fuel
  | DeclareRule => exact follows_cmdDeclareRule (Nat.zero_le _) fuel
  | DeclareType => exact follows_cmdDeclareType (Nat.zero_le _) fuel
  | DefineConst => exact follows_cmdDefineConst (Nat.zero_le _) fuel
  | Check => exact follows_cmdCheck (Nat.zero_le _) fuel
  | CheckAssuming => exact follows_cmdCheckAssuming (Nat.zero_le _) fuel
  | Opaque => exact follows_cmdOpaque (Nat.zero_le _) fuel
  | Run => exact follows_cmdRun (Nat.zero_le _) fuel
  | Program => exact follows_cmdProgram (Nat.zero_le _) fuel false
  | Function => exact follows_cmdProgram (Nat.zero_le _) fuel true
  | _ => exact follows_unexpectedTokenError _

omit le in
theorem follows_checkFile (rounds : Nat) :
    Follows (between .free) (checkFile fuel rounds) (Lfsc.checkFile fuel rounds)
      fun _ => between .free := by
  induction rounds with
  | zero => exact follows_outOfFuel
  | succ rounds hyp =>
      rw [checkFile, Lfsc.checkFile]
      apply records_bind (follows_next (Nat.zero_le _))
      intro token
      cases token with
      | Eof => exact follows_return () (Nat.zero_le _)
      | Open =>
          apply records_bind (follows_next (Nat.zero_le _))
          intro name
          apply records_bind (follows_command fuel name)
          intro _
          exact hyp
      | Close => exact hyp.anywhere (Nat.zero_le _)
      | _ => exact follows_unexpectedTokenError _

end Commands

/-! ## Files -/

/-- Where nothing waits before a computation that leaves nothing, nothing waits after it. -/
theorem Follows.peeked {α : Type} {m : CallsM α} {plain : CheckerM α} {value : α}
    {before after : Checker} (follows : Follows (between .free) m plain fun _ => between .free)
    (empty : before.peeked = []) (run : plain.run before = .ok (value, after)) :
    after.peeked = [] := by
  obtain ⟨book, -, returns⟩ := follows.recorded .start before (stands_start empty)
  rw [← follows.same] at run
  exact (returns value after run).slots

/-- Nothing waits between two commands. -/
theorem peeked_of_reachable {state : Checker} (reached : Reachable state) : state.peeked = [] := by
  have token : Follows (between .free) nextToken Lfsc.nextToken fun _ => between .free :=
    (follows_next (Nat.zero_le _)).settle fun _ => Nat.le_refl _
  induction reached with
  | init => rfl
  | step _ step _ empty =>
      cases step with
      | openFile lexemes tailCalls eof =>
          have ended := token.peeked empty eof
          exact ended
      | skip close => exact token.peeked empty close
      | command fuel open_ name accepted =>
          have named : Follows (between .free) (nextToken >>= command fuel)
              (Lfsc.nextToken >>= Lfsc.command fuel) fun _ => between .free :=
            records_bind (follows_next (Nat.zero_le _)) fun name => follows_command fuel name
          apply named.peeked (token.peeked empty open_)
          exact run_bind_ok.mpr ⟨_, _, name, accepted⟩

/-- However a file is opened, and whether the run over it returns or stops, `check_file` calls the
scanner properly: a token is put back only into a free slot, those that wait are returned last-in
first-out before another one is scanned, and wherever the text is read it is the text of the token
that was returned last. -/
theorem proper_checkFile {ended : Checker} (reached : Reachable ended) (lexemes : List Lexeme)
    (tailCalls : Bool) (fuel rounds : Nat) :
    (checkFile fuel rounds).erase = Lfsc.checkFile fuel rounds ∧
      Proper ((checkFile fuel rounds).events { ended with input := lexemes, tailCalls }) := by
  have follows := follows_checkFile fuel rounds
  have empty := peeked_of_reachable reached
  constructor
  · exact follows.same
  · obtain ⟨book, recorded, -⟩ := follows.recorded .start
      { ended with input := lexemes, tailCalls } (stands_start empty)
    exact Option.isSome_iff_exists.mpr ⟨book, recorded⟩

/-- Two tokens are put back where the type of the first declaration of a list starts with a
parenthesis. -/
theorem proper_checkFile_ahead :
    let start : Checker :=
      { initChecker (fun _ _ => false) (fun _ => false) with
        input := [⟨.Open, "("⟩, ⟨.DeclareType, "declare-type"⟩, ⟨.Ident, "t"⟩, ⟨.Open, "("⟩,
          ⟨.Open, "("⟩, ⟨.Ident, "f"⟩]
        tailCalls := true }
    Proper ((checkFile 3 1).events start) ∧
      .reinserted .Open 1 ∈ (checkFile 3 1).events start :=
  ⟨(proper_checkFile (.init _ _) _ _ 3 1).2, by decide +kernel⟩

end Lookahead

end Lfsc
