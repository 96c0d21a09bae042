import Lfsc.SymbolScope

/-!
# The symbol table across commands

`check` binds identifiers for longer than their scope only where a term in return position is
checked without being created; the command then has to undo these bindings.  It does where the pair
saved for an identifier is the one the command started with.
-/

namespace Lfsc

open Exec

/-- The calls of `check` that may leave identifiers bound. -/
def MayOutlive (args : CheckArgs) : Prop := args.create = false ∧ args.returnPos = true

section Terms

variable {outlive : Prop}

@[simp]
theorem keeps_getOpenParens : Keeps (Scoped outlive) getOpenParens :=
  keeps_bind keeps_get fun _ => keeps_pure _

@[simp]
theorem keeps_addOpenParens (change : Int) : Keeps (Scoped outlive) (addOpenParens change) :=
  keeps_modify (fun _ => rfl) (fun _ => rfl) fun _ => rfl

@[simp]
theorem keeps_setAllowRun (allow : Bool) : Keeps (Scoped outlive) (setAllowRun allow) :=
  keeps_modify (fun _ => rfl) (fun _ => rfl) fun _ => rfl

@[simp]
theorem keeps_eatRparen : Keeps (Scoped outlive) eatRparen :=
  keeps_bind (keeps_eatToken _) fun _ => keeps_addOpenParens _

@[simp]
theorem keeps_eatRparens (count : Nat) : Keeps (Scoped outlive) (eatRparens count) := by
  induction count with
  | zero => exact keeps_pure _
  | succ count hyp => exact keeps_bind keeps_eatRparen fun _ => hyp

@[simp]
theorem keeps_eatExcess (prev : Int) : Keeps (Scoped outlive) (eatExcess prev) :=
  keeps_bind keeps_getOpenParens fun _ => keeps_eatRparens _

@[simp]
theorem keeps_writeComputed (pointer : Bool) (classifier : Ref) :
    Keeps (Scoped outlive) (writeComputed pointer classifier) :=
  keeps_ite (keeps_pure _) (keeps_stop _)

/-! ## Bindings that are undone -/

variable {check : CheckArgs → CheckerM Checked}
  (kept : ∀ args, Keeps (Scoped (MayOutlive args)) (check args))

include kept

theorem keeps_sub {args : CheckArgs} (imp : MayOutlive args → outlive) :
    Keeps (Scoped outlive) (check args) := (kept args).mono fun _ _ => Scoped.imp imp

theorem keeps_checkDomain : Keeps (Scoped outlive) (checkDomain check) := by
  rw [checkDomain]
  repeat' first
    | with_reducible refine keeps_bind ?_ fun _ => ?_
    | exact keeps_sub kept (by simp [MayOutlive])
    | simp

theorem keeps_checkBang (fuel : Nat) (args : CheckArgs) :
    Keeps (Scoped (MayOutlive args)) (checkBang fuel check args) := by
  rw [checkBang, checkBangRange]
  repeat' first
    | with_reducible refine keeps_bind ?_ fun _ => ?_
    | with_reducible refine keeps_withBinding ?_
    | split
    | exact keeps_sub kept (by simp [MayOutlive])
    | exact keeps_checkDomain kept
    | simp

theorem keeps_checkDeclListItem : Keeps (Scoped outlive) (checkDeclListItem check) := by
  rw [checkDeclListItem]
  repeat' first
    | with_reducible refine keeps_bind ?_ fun _ => ?_
    | split
    | exact keeps_sub kept (by simp [MayOutlive])
    | simp

omit kept in
theorem bindDecl_undo {id : String} {type : Option Ref} {before after : Checker}
    {result : Ref × List (String × Binding)}
    (run : (bindDecl id type).run before = .ok (result, after)) :
    Scoped outlive before (undo result.2 after) := by
  rw [bindDecl] at run
  split at run
  · simp only [run_bind_ok, run_symbolsInsert_ok, run_pure_ok] at run
    obtain ⟨fresh, sym, symRun, _, _, ⟨rfl, rfl⟩, rfl, rfl⟩ := run
    rw [undo_insert]
    exact keeps_liftM _ _ _ _ symRun
  · simp only [run_bind_ok, run_pure_ok] at run
    obtain ⟨_, sym, symRun, rfl, rfl⟩ := run
    exact keeps_liftM _ _ _ _ symRun

/-- Reading a list of declarations leaves nothing behind once they are unbound. -/
theorem checkDeclItems_undo {create : Bool} {rounds : Nat} {acc result : DeclList}
    {before after : Checker}
    (run : (checkDeclItems create check rounds acc).run before = .ok (result, after)) :
    Scoped outlive (undo acc.oldBindings before) (undo result.oldBindings after) := by
  induction rounds generalizing acc before with
  | zero => exact (run_stop_ok.mp run).elim
  | succ rounds hyp =>
      simp only [checkDeclItems, run_bind_ok] at run
      obtain ⟨peeked, token, tokenRun, rest⟩ := run
      have first : Scoped outlive before peeked := keeps_nextToken _ _ _ tokenRun
      split at rest
      · obtain ⟨rfl, rfl⟩ := run_pure_ok.mp rest
        exact first.undo _
      · simp only [run_bind_ok] at rest
        obtain ⟨reinserted, _, reinsertRun, read, ⟨id, type⟩, itemRun, rest⟩ := rest
        have second : Scoped outlive peeked read :=
          (keeps_reinsertToken token _ _ _ reinsertRun).trans
            (keeps_checkDeclListItem kept _ _ _ itemRun)
        obtain ⟨bound, ⟨sym, old⟩, bindRun, loopRun⟩ := rest
        have third : Scoped outlive read (undo old bound) := bindDecl_undo bindRun
        have fourth := hyp loopRun
        rw [undo_append] at fourth
        exact (((first.trans second).trans third).undo _).trans fourth

theorem checkDeclList_undo {fuel : Nat} {create : Bool} {result : DeclList}
    {before after : Checker}
    (run : (checkDeclList fuel create check).run before = .ok (result, after)) :
    Scoped outlive before (undo result.oldBindings after) := by
  simp only [checkDeclList, run_bind_ok] at run
  obtain ⟨opened, _, openRun, loopRun⟩ := run
  exact (keeps_eatToken _ _ _ _ openRun).trans (checkDeclItems_undo kept loopRun)

theorem keeps_checkArrow (fuel : Nat) (args : CheckArgs) :
    Keeps (Scoped outlive) (checkArrow fuel check args) := by
  intro before value after run
  simp only [checkArrow, run_bind_ok, run_restoreBindings] at run
  obtain ⟨declared, decls, declsRun, checked, ret, retRun, _, _, restored, closed, _, closeRun,
    rest⟩ := run
  cases restored
  have first : Scoped outlive before (undo decls.oldBindings declared) :=
    checkDeclList_undo kept declsRun
  have second : Scoped outlive declared checked :=
    keeps_sub kept (by simp [MayOutlive]) _ _ _ retRun
  have third : Scoped outlive (undo decls.oldBindings checked) closed :=
    keeps_eatRparen _ _ _ closeRun
  obtain ⟨kinded, kind, kindRun, built, ⟨pi, classifier⟩, buildRun, rest⟩ := rest
  have fourth : Scoped outlive closed built :=
    (keeps_deref _ _ _ _ kindRun).trans (keeps_liftM _ _ _ _ buildRun)
  have prefix_ := (first.trans (second.undo _)).trans (third.trans fourth)
  split at rest
  · obtain ⟨-, rfl⟩ := run_pure_ok.mp rest
    exact prefix_
  · simp only [run_bind_ok, run_pure_ok] at rest
    obtain ⟨_, _, writeRun, -, rfl⟩ := rest
    exact prefix_.trans (keeps_writeComputed _ _ _ _ _ writeRun)

omit kept in
@[simp]
theorem keeps_annotatedRange (fuel : Nat) (domain expected : Option Ref) :
    Keeps (Scoped outlive) (annotatedRange fuel domain expected) := by
  unfold annotatedRange
  repeat' first
    | with_reducible refine keeps_bind ?_ fun _ => ?_
    | split
    | simp

theorem keeps_checkPound (fuel : Nat) (args : CheckArgs) :
    Keeps (Scoped (MayOutlive args)) (checkPound fuel check args) := by
  rw [checkPound]
  repeat' first
    | with_reducible refine keeps_bind ?_ fun _ => ?_
    | with_reducible refine keeps_withBinding ?_
    | split
    | exact keeps_sub kept (by simp [MayOutlive])
    | exact keeps_checkDomain kept
    | simp

/-! ## Bindings for the remainder of a command -/

omit kept in
/-- Pushing the old pair of an identifier on `local_sym_names`. -/
theorem scoped_save {id : String} {old : Binding} {current saved : Checker} {value : Unit}
    (run : (saveLocal id old).run current = .ok (value, saved)) :
    Scoped True (undo [(id, old)] current) saved := by
  obtain rfl : { current with
      localSymNames := current.localSymNames ++ [(id, old)]
      trace := current.trace ++ [.saved id old] } = saved := by
    change (Except.ok ((), _) : Except Stop (Unit × Checker)) = .ok (value, saved) at run
    simpa using run
  refine ⟨[.saved id old], ⟨rfl, rfl, fun name other => ?_⟩, fun not => (not trivial).elim⟩
  have name_ne : name ≠ id := fun same => other _ (List.mem_singleton_self _) same.symm
  exact (Function.update_of_ne name_ne _ _).symm

omit kept in
/-- Losing the old pair of an identifier. -/
theorem scoped_leak {id : String} {old : Binding} {current leaked : Checker} {value : Unit}
    (run : (record (.leaked id)).run current = .ok (value, leaked)) :
    Scoped True (undo [(id, old)] current) leaked := by
  obtain rfl : { current with trace := current.trace ++ [.leaked id] } = leaked := by
    change (Except.ok ((), _) : Except Stop (Unit × Checker)) = .ok (value, leaked) at run
    simpa using run
  refine ⟨[.leaked id], ⟨rfl, by simp [savedPairs, undo], fun name other => ?_⟩, fun not =>
    (not trivial).elim⟩
  have name_ne : name ≠ id := fun same => other _ (List.mem_singleton_self _) same.symm
  exact (Function.update_of_ne name_ne _ _).symm

theorem keeps_checkPercent (args : CheckArgs) :
    Keeps (Scoped (MayOutlive args)) (checkPercent check args) := by
  intro before value after run
  simp only [checkPercent, run_bind_ok] at run
  obtain ⟨_, checker, getRun, rest⟩ := run
  have zeroth : Scoped (MayOutlive args) before _ := keeps_get _ _ _ getRun
  split at rest
  · exact (run_report_bind_ok.mp rest).elim
  rename_i allowed
  have outlives : MayOutlive args := by
    simp only [not_or, not_not] at allowed
    exact ⟨Bool.not_eq_true _ ▸ allowed.2.1, allowed.2.2.1⟩
  simp only [run_bind_ok, run_symbolsInsert_ok] at rest
  obtain ⟨named, id, idRun, fresh, sym, symRun, opened, prevo, openRun, ranged, domain, domainRun,
    eaten, _, eatRun, _, _, ⟨rfl, rfl⟩, saved, _, saveRun, bodyRun⟩ := rest
  have first : Scoped (MayOutlive args) before opened :=
    (zeroth.trans (keeps_prefixId _ _ _ idRun)).trans
      ((keeps_liftM _ _ _ _ symRun).trans (keeps_getOpenParens _ _ _ openRun))
  have second : Scoped (MayOutlive args) opened eaten :=
    (keeps_sub kept (by simp [MayOutlive]) _ _ _ domainRun).trans (keeps_eatExcess _ _ _ _ eatRun)
  have third : Scoped (MayOutlive args) eaten saved := by
    have pushed := (scoped_save saveRun).imp fun _ => outlives
    rwa [undo_insert] at pushed
  have last : Scoped (MayOutlive args) saved after :=
    (kept _ _ _ _ bodyRun).imp fun _ => outlives
  exact (first.trans second).trans (third.trans last)

omit kept in
@[simp]
theorem keeps_readLambda (expected : Option Ref) :
    Keeps (Scoped outlive) (readLambda expected) := by
  unfold readLambda
  repeat' first
    | with_reducible refine keeps_bind ?_ fun _ => ?_
    | split
    | simp

omit kept in
theorem run_inTailPosition_ok {args : CheckArgs} {tail : Bool} {before after : Checker}
    (run : (inTailPosition args).run before = .ok (tail, after)) :
    before = after ∧ (tail = true → MayOutlive args) := by
  simp only [inTailPosition, run_bind_ok, run_pure_ok] at run
  obtain ⟨_, checker, getRun, rfl, rfl⟩ := run
  cases getRun
  refine ⟨rfl, fun tail => ?_⟩
  simp only [decide_eq_true_eq, Bool.not_eq_true] at tail
  exact ⟨tail.2.2.2, tail.2.2.1⟩

theorem keeps_checkLambda (args : CheckArgs) :
    Keeps (Scoped (MayOutlive args)) (checkLambda check args) := by
  intro before value after run
  simp only [checkLambda, run_bind_ok, run_symbolsInsert_ok] at run
  obtain ⟨started, ⟨id, sym, domain, range, pivar⟩, startRun, _, _, ⟨rfl, rfl⟩, read, prevVal,
    prevRun, assigned, _, setRun, placed, tail, tailRun, rest⟩ := run
  have first : Scoped (MayOutlive args) before started := keeps_readLambda _ _ _ _ startRun
  obtain ⟨rfl, outlives⟩ := run_inTailPosition_ok tailRun
  have valued : Scoped (MayOutlive args) _ assigned :=
    (keeps_liftM _ _ _ _ prevRun).trans (keeps_liftM _ _ _ _ setRun)
  have second := valued.undo [(id, started.symbols id)]
  rw [undo_insert] at second
  split at rest
  · rename_i isTail
    simp only [run_bind_ok] at rest
    obtain ⟨saved, _, saveRun, bodyRun⟩ := rest
    have third := (scoped_save saveRun).imp fun _ => outlives isTail
    exact (first.trans second).trans
      (third.trans ((kept _ _ _ _ bodyRun).imp fun _ => outlives isTail))
  · simp only [run_bind_ok, run_symbolsInsert_ok] at rest
    obtain ⟨opened, prevo, openRun, checked, body, bodyRun, eaten, _, eatRun, closed, _, closeRun,
      _, _, ⟨rfl, rfl⟩, reset, _, resetRun, rest⟩ := rest
    have third : Scoped (MayOutlive args) assigned checked :=
      (keeps_getOpenParens _ _ _ openRun).trans
        (keeps_sub kept (by simp [MayOutlive]) _ _ _ bodyRun)
    have fourth : Scoped (MayOutlive args) checked closed :=
      (keeps_eatExcess _ _ _ _ eatRun).trans (keeps_eatRparen _ _ _ closeRun)
    have fifth := (third.trans fourth).undo [(id, started.symbols id)]
    have sixth : Scoped (MayOutlive args) reset after := by
      split at rest
      · simp only [run_bind_ok, run_pure_ok] at rest
        obtain ⟨_, lam, lamRun, -, rfl⟩ := rest
        exact keeps_liftM _ _ _ _ lamRun
      · obtain ⟨-, rfl⟩ := run_pure_ok.mp rest
        exact Std.Refl.refl _
    exact ((first.trans second).trans fifth).trans ((keeps_liftM _ _ _ _ resetRun).trans sixth)

omit kept in
theorem insertAndBindSymbol_undo {fuel : Nat} {name : String} {symbol e : Ref}
    {type : Option Ref} {prev : Binding} {before after : Checker}
    (run : (insertAndBindSymbol fuel name symbol e type).run before = .ok (prev, after)) :
    before.symbols name = prev ∧ Scoped outlive before (undo [(name, prev)] after) := by
  simp only [insertAndBindSymbol, run_bind_ok, run_symbolsInsert_ok] at run
  obtain ⟨placed, _, bindRun, rfl, rfl⟩ := run
  obtain ⟨store, -, rfl⟩ := run_onStore_ok.mp bindRun
  refine ⟨rfl, ?_⟩
  rw [undo_insert]
  exact scoped_of_eq rfl rfl rfl

theorem keeps_checkAt (fuel : Nat) (args : CheckArgs) :
    Keeps (Scoped (MayOutlive args)) (checkAt fuel check args) := by
  intro before value after run
  simp only [checkAt, run_bind_ok] at run
  obtain ⟨named, id, idRun, fresh, sym, symRun, opened, prevo, openRun, checked, trm, trmRun, eaten,
    _, eatRun, valued, term, termRun, bound, prev, bindRun, placed, tail, tailRun, rest⟩ := run
  have first : Scoped (MayOutlive args) before opened :=
    (keeps_prefixId _ _ _ idRun).trans
      ((keeps_liftM _ _ _ _ symRun).trans (keeps_getOpenParens _ _ _ openRun))
  have second : Scoped (MayOutlive args) opened valued :=
    (keeps_sub kept (by simp [MayOutlive]) _ _ _ trmRun).trans
      ((keeps_eatExcess _ _ _ _ eatRun).trans (keeps_deref _ _ _ _ termRun))
  have third : Scoped (MayOutlive args) valued (undo [(id, prev)] bound) :=
    (insertAndBindSymbol_undo bindRun).2
  obtain ⟨rfl, outlives⟩ := run_inTailPosition_ok tailRun
  split at rest
  · rename_i isTail
    simp only [run_bind_ok] at rest
    obtain ⟨leaked, _, leakRun, bodyRun⟩ := rest
    have fourth : Scoped (MayOutlive args) (undo [(id, prev)] bound) leaked :=
      (scoped_leak leakRun).imp fun _ => outlives isTail
    exact ((first.trans second).trans third).trans (fourth.trans (kept _ _ _ _ bodyRun))
  · simp only [run_bind_ok, run_symbolsInsert_ok, run_pure_ok] at rest
    obtain ⟨inner, _, innerRun, finished, body, bodyRun, closing, _, closingRun, closed, _,
      closeRun,
      _, _, ⟨-, rfl⟩, -, rfl⟩ := rest
    have fourth : Scoped (MayOutlive args) bound finished :=
      (keeps_getOpenParens _ _ _ innerRun).trans
        (keeps_sub kept (by simp [MayOutlive]) _ _ _ bodyRun)
    have fifth : Scoped (MayOutlive args) finished closed :=
      (keeps_eatExcess _ _ _ _ closingRun).trans (keeps_eatRparen _ _ _ closeRun)
    exact ((first.trans second).trans third).trans ((fourth.trans fifth).undo [(id, prev)])

/-! ## Terms that bind nothing -/

theorem keeps_checkCaret (fuel : Nat) (args : CheckArgs) :
    Keeps (Scoped (MayOutlive args)) (checkCaret fuel check args) := by
  rw [checkCaret]
  repeat' first
    | with_reducible refine keeps_bind ?_ fun _ => ?_
    | split
    | exact keeps_sub kept (by simp [MayOutlive])
    | simp

theorem keeps_checkColon (fuel : Nat) (args : CheckArgs) :
    Keeps (Scoped (MayOutlive args)) (checkColon fuel check args) := by
  rw [checkColon]
  repeat' first
    | with_reducible refine keeps_bind ?_ fun _ => ?_
    | split
    | exact keeps_sub kept (by simp [MayOutlive])
    | simp

theorem keeps_checkTilde (args : CheckArgs) :
    Keeps (Scoped (MayOutlive args)) (checkTilde check args) := by
  rw [checkTilde]
  repeat' first
    | with_reducible refine keeps_bind ?_ fun _ => ?_
    | split
    | exact keeps_sub kept (by simp [MayOutlive])
    | simp

/-! ## Applications -/

omit kept in
@[simp]
theorem keeps_recordHole (event : HoleEvent) : Keeps (Scoped outlive) (recordHole event) :=
  keeps_modify (fun _ => rfl) (fun _ => rfl) fun _ => rfl

omit kept in
@[simp]
theorem keeps_checkHolesTail (fuel : Nat) (domain : Ref) (holes : List (Option Ref)) :
    Keeps (Scoped outlive) (checkHolesTail fuel domain holes) := by
  induction holes with
  | nil => exact keeps_pure _
  | cons hole rest hyp =>
      rw [checkHolesTail]
      repeat' first
        | with_reducible refine keeps_bind ?_ fun _ => ?_
        | split
        | simp [hyp]

omit kept in
@[simp]
theorem keeps_checkHoles (inAsc : Bool) (holes : List (Option Ref)) :
    Keeps (Scoped outlive) (checkHoles inAsc holes) := by
  induction holes with
  | nil => exact keeps_pure _
  | cons hole rest hyp =>
      rw [checkHoles]
      repeat' first
        | with_reducible refine keeps_bind ?_ fun _ => ?_
        | split
        | exact keeps_modify (fun _ => rfl) (fun _ => rfl) fun _ => rfl
        | simp [hyp]

theorem keeps_checkTailArg (fuel : Nat) {args : CheckArgs} (create : args.create = false)
    (domain range : Ref) (holes : List (Option Ref)) :
    Keeps (Scoped (MayOutlive args)) (checkTailArg fuel check args domain range holes) := by
  rw [checkTailArg]
  repeat' first
    | with_reducible refine keeps_bind ?_ fun _ => ?_
    | split
    | exact keeps_sub kept (by simp [MayOutlive, create])
    | simp

omit kept in
@[simp]
theorem keeps_checkAppEnd (fuel : Nat) (args : CheckArgs) (headtrm : Option Ref) (headtp : Ref)
    (holes : List (Option Ref)) :
    Keeps (Scoped outlive) (checkAppEnd fuel args headtrm headtp holes) := by
  rw [checkAppEnd]
  repeat' first
    | with_reducible refine keeps_bind ?_ fun _ => ?_
    | split
    | simp

theorem keeps_checkArg (args : CheckArgs) (prevo : Int) (headtp domain : Ref)
    (headtrm : Option Ref) (holes : List (Option Ref)) :
    Keeps (Scoped (MayOutlive args)) (checkArg check args prevo headtp domain headtrm holes) := by
  rw [checkArg]
  repeat' first
    | with_reducible refine keeps_bind ?_ fun _ => ?_
    | split
    | exact keeps_sub kept (by simp [MayOutlive])
    | simp

omit kept in
theorem run_isTailArg_ok {args : CheckArgs} {headtp range : Ref} {before after : Checker}
    (run : (isTailArg args headtp range).run before = .ok (true, after)) :
    args.create = false := by
  simp only [isTailArg, run_bind_ok, run_pure_ok] at run
  obtain ⟨_, flag, -, _, _, -, _, _, -, tail, -⟩ := run
  simp only [decide_eq_true_eq, Bool.not_eq_true, Bool.or_eq_false_iff] at tail
  exact tail.2.1.1

omit kept in
@[simp]
theorem keeps_isTailArg (args : CheckArgs) (headtp range : Ref) :
    Keeps (Scoped outlive) (isTailArg args headtp range) := by
  rw [isTailArg]
  repeat' first
    | with_reducible refine keeps_bind ?_ fun _ => ?_
    | simp

theorem keeps_checkAppArgs (fuel : Nat) (args : CheckArgs) (prevo : Int) (rounds : Nat)
    (headtrm : Option Ref) (headtp : Ref) (holes : List (Option Ref)) :
    Keeps (Scoped (MayOutlive args))
      (checkAppArgs fuel check args prevo rounds headtrm headtp holes) := by
  induction rounds generalizing headtrm headtp holes with
  | zero => exact keeps_stop _
  | succ rounds hyp =>
      have lastArg : ∀ domain range, Keeps (Scoped (MayOutlive args)) (do
          if ← isTailArg args headtp range then
            checkTailArg fuel check args domain range holes
          else
            let next ← checkArg check args prevo headtp domain headtrm holes
            checkAppArgs fuel check args prevo rounds next.1 range next.2) := by
        intro domain range before value after run
        obtain ⟨decided, tail, tailRun, rest⟩ := run_bind_ok.mp run
        have first : Scoped (MayOutlive args) before decided := keeps_isTailArg _ _ _ _ _ _ tailRun
        cases tail with
        | false =>
            obtain ⟨checked, arg, argRun, rest⟩ := run_bind_ok.mp rest
            exact (first.trans (keeps_checkArg kept _ _ _ _ _ _ _ _ _ argRun)).trans
              (hyp _ _ _ _ _ _ rest)
        | true =>
            exact first.trans
              (keeps_checkTailArg kept fuel (run_isTailArg_ok tailRun) _ _ _ _ _ _ rest)
      rw [checkAppArgs]
      repeat' first
        | exact lastArg _ _
        | exact hyp _ _ _
        | with_reducible refine keeps_bind ?_ fun _ => ?_
        | split
        | simp

theorem keeps_checkApp (fuel : Nat) (args : CheckArgs) (c : Token) :
    Keeps (Scoped (MayOutlive args)) (checkApp fuel check args c) := by
  rw [checkApp]
  repeat' first
    | exact keeps_checkAppArgs kept _ _ _ _ _ _ _
    | with_reducible refine keeps_bind ?_ fun _ => ?_
    | split
    | exact keeps_sub kept (by simp [MayOutlive])
    | simp

/-! ## Leaves -/

omit kept in
@[simp]
theorem keeps_checkHole (args : CheckArgs) : Keeps (Scoped outlive) (checkHole args) := by
  rw [checkHole]
  repeat' first
    | with_reducible refine keeps_bind ?_ fun _ => ?_
    | split
    | simp

omit kept in
theorem keeps_checkNumeralToken (args : CheckArgs) (type : Ref) (message : String)
    {create : CheckerM Ref} (kept : Keeps (Scoped outlive) create) :
    Keeps (Scoped outlive) (checkNumeralToken args type message create) := by
  rw [checkNumeralToken]
  repeat' first
    | exact kept
    | with_reducible refine keeps_bind ?_ fun _ => ?_
    | split
    | simp

omit kept in
@[simp]
theorem keeps_checkNatural (args : CheckArgs) : Keeps (Scoped outlive) (checkNatural args) := by
  refine keeps_checkNumeralToken _ _ _ (keeps_bind keeps_tokenStr fun _ => ?_)
  split <;> simp

omit kept in
@[simp]
theorem keeps_checkRational (args : CheckArgs) : Keeps (Scoped outlive) (checkRational args) := by
  refine keeps_checkNumeralToken _ _ _ (keeps_bind keeps_tokenStr fun _ => ?_)
  split <;> simp

omit kept in
@[simp]
theorem keeps_checkIdent (fuel : Nat) (args : CheckArgs) :
    Keeps (Scoped outlive) (checkIdent fuel args) := by
  rw [checkIdent]
  repeat' first
    | with_reducible refine keeps_bind ?_ fun _ => ?_
    | split
    | simp

theorem keeps_checkOpen (fuel : Nat) (args : CheckArgs) :
    Keeps (Scoped (MayOutlive args)) (checkOpen fuel check args) := by
  rw [checkOpen]
  refine keeps_bind (keeps_addOpenParens 1) fun _ => keeps_bind keeps_nextToken fun token => ?_
  split
  · exact keeps_report _
  · exact keeps_checkBang kept fuel args
  · exact keeps_checkArrow kept fuel args
  · exact keeps_checkPound kept fuel args
  · exact keeps_checkPercent kept args
  · exact keeps_checkLambda kept args
  · exact keeps_checkCaret kept fuel args
  · exact keeps_checkColon kept fuel args
  · exact keeps_checkAt kept fuel args
  · exact keeps_checkTilde kept args
  · exact keeps_checkApp kept fuel args _

end Terms

/-- A call of `check` leaves the table as it was, except for the identifiers bound for the remainder
of the command. -/
theorem keeps_check (fuel : Nat) (args : CheckArgs) :
    Keeps (Scoped (MayOutlive args)) (check fuel args) := by
  induction fuel generalizing args with
  | zero => exact keeps_stop _
  | succ fuel hyp =>
      rw [check]
      refine keeps_bind keeps_nextToken fun token => ?_
      split
      · exact keeps_checkOpen hyp fuel args
      · exact keeps_report _
      · exact keeps_checkHole args
      · exact keeps_checkNatural args
      · exact keeps_checkRational args
      · exact keeps_checkIdent fuel args

end Lfsc
