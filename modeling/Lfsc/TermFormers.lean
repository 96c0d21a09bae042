import Lfsc.Comparison

/-!
# Term formers

The cases of `check`, each cut at the point from which on its two modes differ: what comes before
depends on neither the expected classifier nor the pointer for the computed one.
-/

namespace Lfsc

open Exec

/-! ## Term formers -/

/-- The case of `checkOpen` for the token after the parenthesis. -/
def termFormer (fuel : Nat) (check : CheckArgs → CheckerM Checked) (args : CheckArgs) :
    Token → CheckerM Checked
  | .Eof => report "Unexpected end of file."
  | .Bang => checkBang fuel check args
  | .Arrow => checkArrow fuel check args
  | .Pound => checkPound fuel check args
  | .Percent => checkPercent check args
  | .ReverseSolidus => checkLambda check args
  | .Caret => checkCaret fuel check args
  | .Colon => checkColon fuel check args
  | .At => checkAt fuel check args
  | .Tilde => checkTilde check args
  | c => checkApp fuel check args c

theorem checkOpen_eq (fuel : Nat) (check : CheckArgs → CheckerM Checked) (args : CheckArgs) :
    checkOpen fuel check args =
      addOpenParens 1 >>= fun _ => nextToken >>= termFormer fuel check args := by
  refine bind_congr fun _ => bind_congr fun token => ?_
  cases token <;> rfl

/-- The next two tokens open a term former, whose case starts in the second state. -/
def Opens (token : Token) (before start : Checker) : Prop :=
  ∃ opened, nextToken.run before = .ok (.Open, opened) ∧
    (addOpenParens 1 >>= fun _ => nextToken).run opened = .ok (token, start)

theorem check_opens {fuel : Nat} {args : CheckArgs} {token : Token} {before start : Checker}
    (opens : Opens token before start) :
    (check (fuel + 1) args).run before = (termFormer fuel (check fuel) args token).run start := by
  obtain ⟨opened, first, second⟩ := opens
  have openCase : (check (fuel + 1) args).run before =
      (checkOpen fuel (check fuel) args).run opened := by
    rw [check, StateT.run_bind, first]
    rfl
  rw [openCase, checkOpen_eq, ← bind_assoc, StateT.run_bind, second]
  rfl

/-- The tokens that stand for a term former; after any other one an application is read. -/
def Token.isFormer (token : Token) : Bool :=
  token ∈ [.Eof, .Bang, .Arrow, .Pound, .Percent, .ReverseSolidus, .Caret, .Colon, .At, .Tilde]

theorem termFormer_app {fuel : Nat} {check : CheckArgs → CheckerM Checked} {args : CheckArgs}
    {token : Token} (other : token.isFormer = false) :
    termFormer fuel check args token = checkApp fuel check args token := by
  cases token <;> first | rfl | cases other

/-! ## Applications up to their comparison -/

/-- How the argument loop of an application ends. -/
inductive AppExit
  /-- At the closing parenthesis: the term, its classifier and the holes. -/
  | ended (term : Option Ref) (classifier : Ref) (holes : List (Option Ref))
  /-- Before a last argument that is checked by a tail call: its domain, the range and the holes. -/
  | tail (domain range : Ref) (holes : List (Option Ref))

/-- The closing of an application, up to the comparison of its classifier. -/
def closeApp (fuel : Nat) (headtrm : Option Ref) (headtp : Ref) (holes : List (Option Ref)) :
    CheckerM AppExit := do
  addOpenParens (-1)
  let headtp ←
    if (← getop headtp) = some .pi then do
      let run ← kid headtp 1
      if (← getop run) = some .run then
        let code ← follow (← kid run 0)
        runPremise fuel code (← kid run 1)
        onStore (kid headtp 2)
      else pure headtp
    else pure headtp
  return .ended headtrm headtp holes

/-- The argument loop of an application up to its end. -/
def appArgsExit (fuel : Nat) (check : CheckArgs → CheckerM Checked) (create : Bool) (prevo : Int) :
    Nat → Option Ref → Ref → List (Option Ref) → CheckerM AppExit
  | 0, _, _, _ => outOfFuel
  | rounds + 1, headtrm, headtp, holes => do
      let c ← nextToken
      if c = .Close then closeApp fuel headtrm headtp holes
      else
        reinsertToken c
        if (← getop headtp) ≠ some .pi then
          report "The type of an applied term is not a pi-type.\n"
        let domain ← kid headtp 1
        let range ← kid headtp 2
        if (← getop domain) = some .run then
          runPremise fuel (← kid domain 0) (← kid domain 1)
          appArgsExit fuel check create prevo rounds headtrm range holes
        else if ← isTailArg { create } headtp range then return .tail domain range holes
        else
          let (headtrm, holes) ← checkArg check { create } prevo headtp domain headtrm holes
          appArgsExit fuel check create prevo rounds headtrm range holes

/-- An application up to the end of its argument loop. -/
def appExit (fuel : Nat) (check : CheckArgs → CheckerM Checked) (create : Bool) (c : Token) :
    CheckerM AppExit := do
  reinsertToken c
  let prevo ← getOpenParens
  let head ← check { create, computed := true }
  eatExcess prevo
  let headtp ← follow (← deref head.computed)
  let headtp ←
    if ← getFlag headtp then onStore (clone fuel headtp)
    else do
      setFlag headtp true
      pure headtp
  appArgsExit fuel check create prevo fuel head.term headtp []

/-- What is left of an application: its classifier is compared with the expected one. -/
def finishApp (fuel : Nat) (check : CheckArgs → CheckerM Checked) (args : CheckArgs) :
    AppExit → CheckerM Checked
  | .ended headtrm headtp holes => do
      let computed ←
        match args.expected with
        | some expected => do
            if ¬ (← defeq fuel expected headtp) then
              report ("The type expected for an application does not" ++
                " match the computed type.(2) \n")
            pure none
        | none => writeComputed args.computed headtp
      checkHoles args.inAsc holes
      return { term := if args.create then headtrm else none, computed }
  | .tail domain range holes => checkTailArg fuel check args domain range holes

theorem checkAppEnd_eq (fuel : Nat) (check : CheckArgs → CheckerM Checked) (args : CheckArgs)
    (headtrm : Option Ref) (headtp : Ref) (holes : List (Option Ref)) :
    checkAppEnd fuel args headtrm headtp holes =
      closeApp fuel headtrm headtp holes >>= finishApp fuel check args := by
  unfold checkAppEnd closeApp
  simp only [bind_assoc]
  refine bind_congr fun _ => bind_congr fun op => ?_
  split
  · simp only [bind_assoc]
    refine bind_congr fun run => bind_congr fun op => ?_
    split
    · simp only [bind_assoc, pure_bind]
      rfl
    · simp only [pure_bind]
      rfl
  · simp only [pure_bind]
    rfl

theorem checkAppArgs_eq (fuel : Nat) (check : CheckArgs → CheckerM Checked) (args : CheckArgs)
    (prevo : Int) (rounds : Nat) (headtrm : Option Ref) (headtp : Ref)
    (holes : List (Option Ref)) :
    checkAppArgs fuel check args prevo rounds headtrm headtp holes =
      appArgsExit fuel check args.create prevo rounds headtrm headtp holes >>=
        finishApp fuel check args := by
  induction rounds generalizing headtrm headtp holes with
  | zero => rfl
  | succ rounds hyp =>
      unfold checkAppArgs appArgsExit
      simp only [bind_assoc]
      refine bind_congr fun c => ?_
      split
      · rw [checkAppEnd_eq fuel check]
      · simp only [bind_assoc]
        refine bind_congr fun _ => bind_congr fun op => ?_
        split
        · rfl
        · simp only [bind_assoc]
          refine bind_congr fun domain => bind_congr fun range => bind_congr fun op => ?_
          split
          · simp only [bind_assoc]
            exact bind_congr fun _ => bind_congr fun _ => bind_congr fun _ => hyp _ _ _
          · simp only [bind_assoc]
            refine bind_congr fun tail => ?_
            split
            · simp only [pure_bind]
              rfl
            · simp only [bind_assoc]
              exact bind_congr fun result => hyp _ _ _

theorem checkApp_eq (fuel : Nat) (check : CheckArgs → CheckerM Checked) (args : CheckArgs)
    (c : Token) :
    checkApp fuel check args c =
      appExit fuel check args.create c >>= finishApp fuel check args := by
  unfold checkApp appExit
  simp only [bind_assoc]
  refine bind_congr fun _ => bind_congr fun _ => bind_congr fun _ => bind_congr fun _ =>
    bind_congr fun _ => bind_congr fun _ => bind_congr fun flag => ?_
  split
  · simp only [bind_assoc]
    exact bind_congr fun _ => checkAppArgs_eq _ _ _ _ _ _ _ _
  · simp only [bind_assoc]
    exact bind_congr fun _ => checkAppArgs_eq _ _ _ _ _ _ _ _

/-! ## Local definitions and ranges up to their bodies -/

/-- A local definition up to its body: whether this is a tail call, the identifier and the pair that
it had before. -/
def openLocal (fuel : Nat) (check : CheckArgs → CheckerM Checked) (create returnPos : Bool) :
    CheckerM (Bool × String × Binding) := do
  let id ← prefixId
  let sym ← newSym id
  let prevo ← getOpenParens
  let trm ← check { create := true, computed := true }
  eatExcess prevo
  let prev ← insertAndBindSymbol fuel id sym (← deref trm.term) trm.computed
  let tail ← inTailPosition { create, returnPos }
  if tail then record (.leaked id)
  return (tail, id, prev)

/-- The rest of a local definition. -/
def closeLocal (check : CheckArgs → CheckerM Checked) (args : CheckArgs) :
    Bool × String × Binding → CheckerM Checked
  | (tail, id, prev) =>
      if tail then check args
      else do
        let prevo ← getOpenParens
        let body ← check { args with inAsc := false }
        eatExcess prevo
        eatRparen
        let _ ← symbolsInsert id prev
        return body

theorem checkAt_eq (fuel : Nat) (check : CheckArgs → CheckerM Checked) (args : CheckArgs) :
    checkAt fuel check args =
      openLocal fuel check args.create args.returnPos >>= closeLocal check args := by
  unfold checkAt openLocal
  simp only [bind_assoc]
  refine bind_congr fun _ => bind_congr fun _ => bind_congr fun _ => bind_congr fun _ =>
    bind_congr fun _ => bind_congr fun _ => bind_congr fun _ => bind_congr fun tail => ?_
  cases tail <;> rfl

/-- A pi abstraction up to its range: the variable and its domain, the identifier with the pair that
it had before, and the number of open parentheses. -/
def openRange (check : CheckArgs → CheckerM Checked) :
    CheckerM (Ref × Option Ref × String × Binding × Int) := do
  let id ← prefixId
  let sym ← newSym id
  let prevo ← getOpenParens
  let domain ← checkDomain check
  let prev ← symbolsInsert id ⟨some sym, domain⟩
  return (sym, domain, id, prev, prevo)

/-- What follows the range of a pi abstraction. -/
def closeRange (id : String) (prev : Binding) (prevo : Int) : CheckerM Unit := do
  eatExcess prevo
  eatRparen
  let _ ← symbolsInsert id prev

theorem checkBangRange_eq (check : CheckArgs → CheckerM Checked) (args : CheckArgs) :
    checkBangRange check args =
      openRange check >>= fun opened => do
        let range ← check { args with isHole := false, inAsc := false }
        closeRange opened.2.2.1 opened.2.2.2.1 opened.2.2.2.2
        return (opened.1, opened.2.1, range) := by
  unfold checkBangRange openRange withBinding closeRange
  simp only [bind_assoc, pure_bind]

theorem detached_closeRange (id : String) (prev : Binding) (prevo : Int) :
    Detached (closeRange id prev prevo) :=
  detached_bind (detached_eatExcess prevo) fun _ =>
    detached_bind detached_eatRparen fun _ =>
      detached_bind (detached_symbolsInsert id prev) fun _ => detached_pure ()

/-! ## Ascriptions, arrows, negations and the ends of other cases -/

/-- An ascription up to the comparison of its type: the type and the term. -/
def ascribed (check : CheckArgs → CheckerM Checked) (create returnPos : Bool) :
    CheckerM (Ref × Option Ref) := do
  let prevo ← getOpenParens
  let type ← check { create := true, expected := some statType, inAsc := true }
  eatExcess prevo
  let type ← deref type.term
  let trm ← check { create, expected := some type, returnPos }
  eatExcess prevo
  eatRparen
  return (type, trm.term)

/-- The rest of an ascription. -/
def closeColon (fuel : Nat) (args : CheckArgs) : Ref × Option Ref → CheckerM Checked
  | (type, trm) =>
      match args.expected with
      | some expected => do
          if ¬ (← defeq fuel expected type) then
            report ("The expected type does not match the " ++
              "ascribed type in an ascription.\n")
          if args.create then return { term := trm, computed := none }
          else
            let _ ← deref trm
            return { term := none, computed := none }
      | none => do
          let computed ← writeComputed args.computed type
          if args.create then return { term := trm, computed }
          else return { term := none, computed }

theorem checkColon_eq (fuel : Nat) (check : CheckArgs → CheckerM Checked) (args : CheckArgs) :
    checkColon fuel check args =
      ascribed check args.create args.returnPos >>= closeColon fuel args := by
  unfold checkColon ascribed
  simp only [bind_assoc, pure_bind]
  rfl

/-- An arrow up to its use of the expected classifier: the abstraction and its classifier. -/
def arrowPi (fuel : Nat) (check : CheckArgs → CheckerM Checked) (create : Bool) :
    CheckerM (Option Ref × Ref) := do
  let decls ← checkDeclList fuel create check
  let ret ← check { create, computed := true }
  restoreBindings decls.oldBindings
  eatRparen
  onStore (buildValidatePi fuel decls.decls ret.term (← deref ret.computed) create)

/-- The rest of an arrow. -/
def closeArrow (args : CheckArgs) : Option Ref × Ref → CheckerM Checked
  | (pi, kind) =>
      match args.expected with
      | some _ => return { term := pi, computed := none }
      | none => do return { term := pi, computed := ← writeComputed args.computed kind }

theorem checkArrow_eq (fuel : Nat) (check : CheckArgs → CheckerM Checked) (args : CheckArgs) :
    checkArrow fuel check args = arrowPi fuel check args.create >>= closeArrow args := by
  unfold checkArrow arrowPi
  simp only [bind_assoc]
  rfl

theorem closeLocal_eq (check : CheckArgs → CheckerM Checked) (args : CheckArgs) (id : String)
    (prev : Binding) :
    closeLocal check args (false, id, prev) =
      getOpenParens >>= fun prevo => check { args with inAsc := false } >>= fun body =>
        closeRange id prev prevo >>= fun _ => pure body := by
  unfold closeLocal closeRange
  simp only [bind_assoc, pure_bind]
  rfl

/-- Negate a literal in place. -/
def negated (create : Bool) (e : Checked) : CheckerM Checked := do
  if create then
    let literal ← deref e.term
    match ← load literal with
    | .int value =>
        put literal (.int (-value))
        return e
    | .rat value =>
        put literal (.rat (-value))
        return e
    | _ => report "Negative sign with expr that is not an int. literal."
  else return { e with term := none }

/-- Negate a literal of a numeral type. -/
def negatedAs (create : Bool) (type : Ref) (e : Checked) : CheckerM Checked :=
  if type ≠ statMpz ∧ type ≠ statMpq then
    report "Negative sign where an numeric expression is expected."
  else negated create e

/-- What follows the numeral of a negation. -/
def closeTilde (args : CheckArgs) (prevo : Int) (e : Checked) : CheckerM Checked := do
  eatExcess prevo
  eatRparen
  let type ←
    match args.expected with
    | some expected => pure expected
    | none => deref e.computed
  negatedAs args.create type e

theorem checkTilde_eq (check : CheckArgs → CheckerM Checked) (args : CheckArgs) :
    checkTilde check args =
      getOpenParens >>= fun prevo => check { args with inAsc := false } >>= closeTilde args prevo :=
  rfl

/-- The rest of a pi abstraction. -/
def closeBang (fuel : Nat) (args : CheckArgs) :
    Ref × Option Ref × Checked → CheckerM Checked
  | (sym, domain, range) =>
      match args.expected with
      | some expected => do
          if ¬ (← isTypeOrKind expected) then
            report ("The expected classifier for a pi abstraction" ++
              "is neither \"type\" nor \"kind\".\n")
          if args.create then
            return { range with term := some (← newPi fuel (some sym) domain range.term) }
          else return { range with term := none }
      | none => do
          if args.create then
            return { range with term := some (← newPi fuel (some sym) domain range.term) }
          else
            if ¬ (← isTypeOrKind (← deref range.computed)) then
              let _ ← deref range.term
              report ("The classifier for the range of a pi" ++
                "abstraction is neither \"type\" nor \"kind\".\n")
            return { range with term := none }

theorem checkBang_eq (fuel : Nat) (check : CheckArgs → CheckerM Checked) (args : CheckArgs) :
    checkBang fuel check args = checkBangRange check args >>= closeBang fuel args := rfl

/-- The test of the holes and the last argument of a tail call. -/
def tailArg (fuel : Nat) (check : CheckArgs → CheckerM Checked) (returnPos : Bool) (domain : Ref)
    (holes : List (Option Ref)) : CheckerM Checked := do
  checkHolesTail fuel domain holes
  check { create := false, expected := some domain, returnPos }

/-! ## Depth -/

theorem extends_openLocal {fuel more : Nat} {create returnPos : Bool} (le : fuel ≤ more) :
    Extends (openLocal fuel (check fuel) create returnPos)
      (openLocal more (check more) create returnPos) := by
  unfold openLocal
  refine extends_bind (extends_refl _) fun _ => ?_
  refine extends_bind (extends_refl _) fun _ => ?_
  refine extends_bind (extends_refl _) fun _ => ?_
  refine extends_bind (extends_check le _) fun _ => ?_
  refine extends_bind (extends_refl _) fun _ => ?_
  refine extends_bind (extends_refl _) fun _ => ?_
  exact extends_bind (extends_insertAndBindSymbol le _ _ _ _) fun _ => extends_refl _

theorem extends_openRange {fuel more : Nat} (le : fuel ≤ more) :
    Extends (openRange (check fuel)) (openRange (check more)) := by
  unfold openRange
  refine extends_bind (extends_refl _) fun _ => ?_
  refine extends_bind (extends_refl _) fun _ => ?_
  refine extends_bind (extends_refl _) fun _ => ?_
  exact extends_bind (extends_checkDomain fun _ => extends_check le _) fun _ => extends_refl _

theorem extends_closeBang {fuel more : Nat} (le : fuel ≤ more) (args : CheckArgs)
    (front : Ref × Option Ref × Checked) :
    Extends (closeBang fuel args front) (closeBang more args front) := by
  unfold closeBang
  repeat' first
    | with_reducible exact extends_refl _
    | with_reducible exact extends_liftChecker (extends_newPi le _ _ _)
    | with_reducible refine extends_bind ?_ fun _ => ?_
    | with_reducible refine extends_ite ?_ ?_
    | split

theorem extends_liftRun {α : Type} {m m' : RunM α} (inner : Extends m m') :
    Extends (liftM m : CheckerM α) (liftM m') := extends_zoom inner

theorem extends_closeApp {fuel more : Nat} (le : fuel ≤ more) (headtrm : Option Ref) (headtp : Ref)
    (holes : List (Option Ref)) :
    Extends (closeApp fuel headtrm headtp holes) (closeApp more headtrm headtp holes) := by
  unfold closeApp
  repeat' first
    | with_reducible exact extends_refl _
    | with_reducible exact extends_liftRun (extends_runPremise le _ _)
    | with_reducible refine extends_bind ?_ fun _ => ?_
    | with_reducible refine extends_ite ?_ ?_

theorem extends_appArgsExit {fuel more : Nat} (le : fuel ≤ more) {rounds rounds' : Nat}
    (le' : rounds ≤ rounds') (create : Bool) (prevo : Int) (headtrm : Option Ref) (headtp : Ref)
    (holes : List (Option Ref)) :
    Extends (appArgsExit fuel (check fuel) create prevo rounds headtrm headtp holes)
      (appArgsExit more (check more) create prevo rounds' headtrm headtp holes) := by
  induction rounds generalizing rounds' headtrm headtp holes with
  | zero => exact extends_outOfFuel
  | succ rounds hyp =>
      obtain ⟨rounds', rfl⟩ := Nat.exists_eq_add_of_le'
        (Nat.le_trans (Nat.le_add_left 1 rounds) le')
      have later := fun headtrm headtp holes =>
        hyp (Nat.le_of_succ_le_succ le') headtrm headtp holes
      unfold appArgsExit
      repeat' first
        | with_reducible exact extends_refl _
        | with_reducible exact later _ _ _
        | with_reducible exact extends_closeApp le _ _ _
        | with_reducible exact extends_liftRun (extends_runPremise le _ _)
        | with_reducible exact extends_checkArg (fun _ => extends_check le _) _ _ _ _ _ _
        | with_reducible refine extends_bind ?_ fun _ => ?_
        | with_reducible refine extends_ite ?_ ?_

theorem extends_appExit {fuel more : Nat} (le : fuel ≤ more) (create : Bool) (c : Token) :
    Extends (appExit fuel (check fuel) create c) (appExit more (check more) create c) := by
  unfold appExit
  repeat' first
    | with_reducible exact extends_refl _
    | with_reducible exact extends_check le _
    | with_reducible exact extends_appArgsExit le le _ _ _ _ _
    | with_reducible exact extends_onStore (extends_clone le _)
    | with_reducible refine extends_bind ?_ fun _ => ?_
    | with_reducible refine extends_ite ?_ ?_

end Lfsc
