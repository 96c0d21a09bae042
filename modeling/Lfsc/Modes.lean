import Lfsc.HoleAccounts
import Lfsc.TermFormers

/-!
# Synthesis and checking

The two modes of `check`, without and with an expected classifier, on the same term.  Both read the
term in the same way up to the point where its classifier is known; they agree if checking then
compares the classifier with the expected one.
-/

namespace Lfsc

open Exec

/-! ## The two modes -/

/-- The arguments of `check` that have it compute a classifier. -/
def synthesising (create returnPos : Bool) : CheckArgs := { create, computed := true, returnPos }

/-- The arguments of `check` that have it compare with an expected classifier. -/
def checking (create returnPos : Bool) (expected : Ref) : CheckArgs :=
  { create, expected := some expected, returnPos }

/-- A term is accepted without an expected classifier, and its classifier is computed. -/
def Synthesises (create returnPos : Bool) (start : Checker) (term : Option Ref) (classifier : Ref)
    (after : Checker) : Prop :=
  ∃ fuel hole, (check fuel (synthesising create returnPos)).run start =
    .ok (⟨term, some classifier, hole⟩, after)

/-- A term is accepted with an expected classifier. -/
def Accepts (create returnPos : Bool) (expected : Ref) (start : Checker) : Prop :=
  ∃ fuel checked after,
    (check fuel (checking create returnPos expected)).run start = .ok (checked, after)

/-- The expressions after a comparison of equal classifiers, if there was any. -/
def Compared (expected classifier : Ref) (before after : Store) : Prop :=
  (Equal before expected classifier ∧ before = after) ∨
    ∃ fuel, (defeq fuel expected classifier).run before = .ok (true, after)

theorem Compared.equal {expected classifier : Ref} {before after : Store}
    (compared : Compared expected classifier before after) : Equal before expected classifier := by
  rcases compared with ⟨equal, -⟩ | ⟨fuel, run⟩
  · exact equal
  · exact ⟨fuel, after, run⟩

/-- Checking from a state agrees with synthesis: an accepted term is the one that was synthesised,
in the state reached by it but for the comparison, and it is accepted if the classifiers are
equal. -/
structure Agrees (create returnPos : Bool) (expected classifier : Ref) (start : Checker)
    (term : Option Ref) (after : Checker) : Prop where
  /-- An accepted term is the synthesised one. -/
  same : ∀ fuel checked after',
    (check fuel (checking create returnPos expected)).run start = .ok (checked, after') →
      checked.term = term ∧ ∃ store, Compared expected classifier after.store store ∧
        after' = after.withStore store
  /-- A term of an equal classifier is accepted. -/
  accepts : Equal after.store expected classifier → Accepts create returnPos expected start

theorem Agrees.accepts_iff {create returnPos : Bool} {expected classifier : Ref} {start : Checker}
    {term : Option Ref} {after : Checker}
    (agrees : Agrees create returnPos expected classifier start term after) :
    Accepts create returnPos expected start ↔ Equal after.store expected classifier := by
  constructor
  · rintro ⟨fuel, checked, after', run⟩
    obtain ⟨-, store, compared, -⟩ := agrees.same _ _ _ run
    exact compared.equal
  · exact agrees.accepts

/-! ## One term former after the other -/

theorem run_compare_ok {α β : Type} {fuel : Nat} {expected classifier : Ref} {message : String}
    {dead : β → CheckerM α} {rest : CheckerM α} {before after : Checker} {value : α} :
    (onStore (defeq fuel expected classifier) >>= fun equal =>
      if ¬ equal = true then report message >>= dead else rest).run before = .ok (value, after) ↔
      ∃ store, (defeq fuel expected classifier).run before.store = .ok (true, store) ∧
        rest.run (before.withStore store) = .ok (value, after) := by
  rw [run_bind_ok]
  simp only [run_onStore_withStore]
  constructor
  · rintro ⟨_, equal, ⟨store, compared, rfl⟩, run⟩
    cases equal with
    | false =>
        rw [if_pos (by simp), run_report_bind_ok] at run
        exact run.elim
    | true =>
        rw [if_neg (by simp)] at run
        exact ⟨store, compared, run⟩
  · rintro ⟨store, compared, run⟩
    exact ⟨_, true, ⟨store, compared, rfl⟩, by rwa [if_neg (by simp)]⟩

section Agrees

variable {create returnPos : Bool} {expected classifier : Ref} {start opened after : Checker}
  {term : Option Ref}

/-- Both modes at one depth, which is as large as needed. -/
theorem agrees_intro (synthesises : Synthesises create returnPos start term classifier after)
    (same : ∀ fuel checked after' hole,
      (check (fuel + 1) (synthesising create returnPos)).run start =
        .ok (⟨term, some classifier, hole⟩, after) →
      (check (fuel + 1) (checking create returnPos expected)).run start = .ok (checked, after') →
        checked.term = term ∧ ∃ store, Compared expected classifier after.store store ∧
          after' = after.withStore store)
    (accepts : Equal after.store expected classifier → ∃ enough, ∀ fuel hole, enough ≤ fuel →
      (check (fuel + 1) (synthesising create returnPos)).run start =
        .ok (⟨term, some classifier, hole⟩, after) →
      ∃ checked after',
        (check (fuel + 1) (checking create returnPos expected)).run start = .ok (checked, after')) :
    Agrees create returnPos expected classifier start term after := by
  obtain ⟨depth, hole, synth⟩ := synthesises
  constructor
  · intro fuel checked after' run
    have synth' := extends_check (show depth ≤ max depth fuel + 1 by omega) _ _ _ _ synth
    have run' := extends_check (show fuel ≤ max depth fuel + 1 by omega) _ _ _ _ run
    exact same _ _ _ _ synth' run'
  · intro equal
    obtain ⟨enough, accepted⟩ := accepts equal
    have synth' := extends_check (show depth ≤ max depth enough + 1 by omega) _ _ _ _ synth
    obtain ⟨checked, after', run⟩ := accepted (max depth enough) hole (by omega) synth'
    exact ⟨_, checked, after', run⟩

/-! ### Leaves -/

theorem check_ident {fuel : Nat} {args : CheckArgs} {token : Token}
    (read : nextToken.run start = .ok (token, opened))
    (other : token ∉ [.Open, .Eof, .Hole, .Natural, .Rational]) :
    (check (fuel + 1) args).run start = (checkIdent fuel args).run opened := by
  rw [check, StateT.run_bind, read]
  cases token <;> first | rfl | simp at other

theorem run_checkIdent_computes {fuel : Nat} {hole : Bool}
    (run : (checkIdent fuel (synthesising create returnPos)).run opened =
      .ok (⟨term, some classifier, hole⟩, after)) :
    opened = after ∧ ∃ symbol, opened.symbols opened.text = ⟨some symbol, some classifier⟩ ∧
      (if create then some symbol else none) = term := by
  have found : (tokenStr >>= fun name => symbolsGet name).run opened =
    .ok (opened.symbols opened.text, opened) := rfl
  unfold checkIdent at run
  rw [← bind_assoc, StateT.run_bind, found] at run
  cases bound : opened.symbols opened.text with
  | mk expr type =>
      cases expr with
      | none =>
          rw [bound] at run
          cases run
      | some symbol =>
          cases type with
          | none =>
              rw [bound] at run
              cases run
          | some type =>
              rw [bound] at run
              cases run
              exact ⟨rfl, symbol, rfl, rfl⟩

theorem run_checkIdent_compares {fuel : Nat} {symbol : Ref} {checked : Checked}
    (bound : opened.symbols opened.text = ⟨some symbol, some classifier⟩) :
    (checkIdent fuel (checking create returnPos expected)).run opened = .ok (checked, after) ↔
      ∃ store, (defeq fuel expected classifier).run opened.store = .ok (true, store) ∧
        checked = ⟨if create then some symbol else none, none, false⟩ ∧
          opened.withStore store = after := by
  have found : (tokenStr >>= fun name => symbolsGet name).run opened =
    .ok (⟨some symbol, some classifier⟩, opened) := by
    rw [← bound]
    rfl
  unfold checkIdent
  rw [← bind_assoc, StateT.run_bind, found]
  refine run_compare_ok.trans (exists_congr fun store => and_congr_right fun _ => ?_)
  exact run_pure_ok.trans (and_congr_left fun _ => eq_comm)

theorem agrees_ident {token : Token} (read : nextToken.run start = .ok (token, opened))
    (other : token ∉ [.Open, .Eof, .Hole, .Natural, .Rational])
    (synthesises : Synthesises create returnPos start term classifier after) :
    Agrees create returnPos expected classifier start term after := by
  refine agrees_intro synthesises ?_ ?_
  · intro fuel checked after' hole synth run
    rw [check_ident read other] at synth run
    obtain ⟨rfl, symbol, bound, rfl⟩ := run_checkIdent_computes synth
    obtain ⟨store, compared, rfl, rfl⟩ := (run_checkIdent_compares bound).mp run
    exact ⟨rfl, store, .inr ⟨fuel, compared⟩, rfl⟩
  · rintro ⟨enough, store, compared⟩
    refine ⟨enough, fun fuel hole le synth => ?_⟩
    rw [check_ident read other] at synth ⊢
    obtain ⟨rfl, symbol, bound, rfl⟩ := run_checkIdent_computes synth
    exact ⟨_, _, (run_checkIdent_compares bound).mpr
      ⟨store, extends_defeq le _ _ _ _ _ compared, rfl, rfl⟩⟩

theorem run_checkNumeral_computes {type : Ref} {message : String} {build : CheckerM Ref}
    {hole : Bool}
    (run : (checkNumeralToken (synthesising create returnPos) type message build).run opened =
      .ok (⟨term, some classifier, hole⟩, after)) :
    type = classifier ∧
      (if create then some <$> build else pure none).run opened = .ok (term, after) := by
  cases create with
  | false =>
      cases run
      exact ⟨rfl, rfl⟩
  | true =>
      obtain ⟨_, _, computed, rest⟩ := run_bind_ok.mp run
      cases computed
      obtain ⟨_, literal, built, rest⟩ := run_bind_ok.mp rest
      cases rest
      refine ⟨rfl, ?_⟩
      rw [if_pos rfl, map_eq_pure_bind]
      exact run_bind_ok.mpr ⟨_, literal, built, rfl⟩

theorem run_checkNumeral_compares {type : Ref} {message : String} {build : CheckerM Ref}
    {checked : Checked} :
    (checkNumeralToken (checking create returnPos expected) type message build).run opened =
      .ok (checked, after) ↔
      expected = type ∧ ∃ term, checked = ⟨term, none, false⟩ ∧
        (if create then some <$> build else pure none).run opened = .ok (term, after) := by
  unfold checkNumeralToken
  simp only [checking]
  by_cases same : expected = type
  · rw [if_neg (not_not_intro same)]
    cases create with
    | false =>
        constructor
        · intro run
          cases run
          exact ⟨same, none, rfl, rfl⟩
        · rintro ⟨-, _, rfl, run⟩
          cases run
          rfl
    | true =>
        simp only [if_true, map_eq_pure_bind, run_bind_ok, run_pure_ok, pure_bind]
        constructor
        · rintro ⟨_, literal, built, rfl, rfl⟩
          exact ⟨same, some literal, rfl, _, literal, built, rfl, rfl⟩
        · rintro ⟨-, _, rfl, _, literal, built, rfl, rfl⟩
          exact ⟨_, literal, built, rfl, rfl⟩
  · rw [if_pos same]
    constructor
    · intro run
      exact (run_report_bind_ok.mp run).elim
    · intro ok
      exact (same ok.1).elim

theorem check_natural {fuel : Nat} {args : CheckArgs}
    (read : nextToken.run start = .ok (.Natural, opened)) :
    (check (fuel + 1) args).run start = (checkNatural args).run opened := by
  rw [check, StateT.run_bind, read]
  rfl

theorem check_rational {fuel : Nat} {args : CheckArgs}
    (read : nextToken.run start = .ok (.Rational, opened)) :
    (check (fuel + 1) args).run start = (checkRational args).run opened := by
  rw [check, StateT.run_bind, read]
  rfl

theorem agrees_numeral {type : Ref} {message : String} {build : CheckerM Ref}
    (check_eq : ∀ fuel args,
      (check (fuel + 1) args).run start = (checkNumeralToken args type message build).run opened)
    (identical : Equal after.store expected classifier → expected = classifier)
    (synthesises : Synthesises create returnPos start term classifier after) :
    Agrees create returnPos expected classifier start term after := by
  refine agrees_intro synthesises ?_ ?_
  · intro fuel checked after' hole synth run
    rw [check_eq] at synth run
    obtain ⟨rfl, built⟩ := run_checkNumeral_computes synth
    obtain ⟨rfl, _, rfl, built'⟩ := run_checkNumeral_compares.mp run
    rw [built] at built'
    cases built'
    exact ⟨rfl, _, .inl ⟨Equal.refl _ _, rfl⟩, rfl⟩
  · intro equal
    refine ⟨0, fun fuel hole _ synth => ?_⟩
    rw [check_eq] at synth ⊢
    obtain ⟨rfl, built⟩ := run_checkNumeral_computes synth
    exact ⟨_, _, run_checkNumeral_compares.mpr ⟨identical equal, _, rfl, built⟩⟩

/-! ### Applications -/

/-- Holes that are all filled stay so. -/
theorem run_checkHoles_withStore {holes : List (Option Ref)} {before : Checker} {store : Store}
    {value : Unit} (run : (checkHoles false holes).run before = .ok (value, after))
    (writes : Writes before.store store) :
    before = after ∧
      (checkHoles false holes).run (before.withStore store) =
        .ok ((), before.withStore store) := by
  induction holes with
  | nil =>
      obtain ⟨-, rfl⟩ := run_pure_ok.mp run
      exact ⟨rfl, rfl⟩
  | cons hole rest hyp =>
      rw [checkHoles] at run ⊢
      obtain ⟨_, r, read, run⟩ := run_bind_ok.mp run
      obtain ⟨rfl, rfl⟩ := run_deref_ok.mp read
      obtain ⟨node, found, run⟩ := run_load_bind_ok.mp run
      have filled : node ≠ .hole none := by
        rintro rfl
        exact (run_report_bind_ok.mp run).elim
      have run' : (checkHoles false rest).run before = .ok (value, after) := by
        split at run
        · exact (filled rfl).elim
        · exact run
      obtain ⟨same, kept⟩ := hyp run'
      have allocated : r < store.heap.length :=
        Nat.lt_of_lt_of_le (List.getElem?_eq_some_iff.mp found).1 writes.grows
      refine ⟨same, run_bind_ok.mpr ⟨_, r, rfl, run_load_bind_ok.mpr
        ⟨_, List.getElem?_eq_getElem allocated, ?_⟩⟩⟩
      split
      · next unfilled =>
          have loaded : store.heap[r]? = some (.hole none) := by
            rw [List.getElem?_eq_getElem allocated, unfilled]
          rw [writes.unfilled loaded] at found
          exact (filled (Option.some.inj found).symm).elim
      · exact kept

theorem run_finishApp_computes {fuel : Nat} {check : CheckArgs → CheckerM Checked}
    {headtrm : Option Ref} {headtp : Ref} {holes : List (Option Ref)} {hole : Bool}
    {before : Checker}
    (run : (finishApp fuel check (synthesising create returnPos)
      (.ended headtrm headtp holes)).run before = .ok (⟨term, some classifier, hole⟩, after)) :
    headtp = classifier ∧ (if create then headtrm else none) = term ∧
      (checkHoles false holes).run before = .ok ((), after) := by
  obtain ⟨_, computed, wrote, rest⟩ := run_bind_ok.mp run
  cases wrote
  obtain ⟨_, _, tested, rest⟩ := run_bind_ok.mp rest
  cases rest
  exact ⟨rfl, rfl, tested⟩

theorem run_finishApp_compares {fuel : Nat} {check : CheckArgs → CheckerM Checked}
    {headtrm : Option Ref} {holes : List (Option Ref)} {checked : Checked} {before : Checker}
    (tested : (checkHoles false holes).run before = .ok ((), before)) :
    (finishApp fuel check (checking create returnPos expected)
      (.ended headtrm classifier holes)).run before = .ok (checked, after) ↔
      ∃ store, (defeq fuel expected classifier).run before.store = .ok (true, store) ∧
        checked = ⟨if create then headtrm else none, none, false⟩ ∧
          before.withStore store = after := by
  refine run_compare_ok.trans (exists_congr fun store => and_congr_right fun compared => ?_)
  have kept := run_checkHoles_withStore tested (keeps_writes_defeq _ _ _ _ _ _ compared)
  simp only [pure_bind, checking]
  rw [run_bind_of_ok kept.2]
  exact run_pure_ok.trans (and_congr_left fun _ => eq_comm)

/-! ### Ascriptions -/

theorem agrees_colon (opens : Opens .Colon start opened)
    (creates : Equal after.store expected classifier → create = true)
    (synthesises : Synthesises create returnPos start term classifier after) :
    Agrees create returnPos expected classifier start term after := by
  have case_eq : ∀ fuel args, args.create = create → args.returnPos = returnPos →
      (check (fuel + 1) args).run start =
        (ascribed (check fuel) create returnPos >>= closeColon fuel args).run opened := by
    rintro fuel args rfl rfl
    rw [check_opens opens, termFormer, checkColon_eq]
  have synthesised : ∀ fuel hole,
      (check (fuel + 1) (synthesising create returnPos)).run start =
        .ok (⟨term, some classifier, hole⟩, after) →
      ∃ trm, (ascribed (check fuel) create returnPos).run opened = .ok ((classifier, trm), after) ∧
        (if create then trm else none) = term := by
    intro fuel hole synth
    rw [case_eq _ _ rfl rfl] at synth
    obtain ⟨closed, ⟨type, trm⟩, front, finish⟩ := run_bind_ok.mp synth
    cases create with
    | false =>
        cases finish
        exact ⟨_, front, rfl⟩
    | true =>
        cases finish
        exact ⟨_, front, rfl⟩
  refine agrees_intro synthesises ?_ ?_
  · intro fuel checked after' hole synth run
    obtain ⟨trm, front, rfl⟩ := synthesised _ _ synth
    rw [case_eq _ _ rfl rfl, run_bind_of_ok front] at run
    obtain ⟨store, compared, rest⟩ := run_compare_ok.mp run
    obtain rfl := creates ⟨_, _, compared⟩
    cases rest
    exact ⟨rfl, store, .inr ⟨fuel, compared⟩, rfl⟩
  · rintro ⟨enough, store, compared⟩
    obtain rfl := creates ⟨_, _, compared⟩
    refine ⟨enough, fun fuel hole le synth => ?_⟩
    obtain ⟨trm, front, rfl⟩ := synthesised _ _ synth
    have compared' := extends_defeq le _ _ _ _ _ compared
    rw [case_eq _ _ rfl rfl, run_bind_of_ok front]
    exact ⟨_, _, run_compare_ok.mpr ⟨store, compared', rfl⟩⟩

/-! ### Arrows -/

/-- The expected classifier of an arrow is ignored. -/
theorem agrees_arrow (opens : Opens .Arrow start opened)
    (equal : Equal after.store expected classifier)
    (synthesises : Synthesises create returnPos start term classifier after) :
    Agrees create returnPos expected classifier start term after := by
  have case_eq : ∀ fuel args, args.create = create → (check (fuel + 1) args).run start =
      (arrowPi fuel (check fuel) create >>= closeArrow args).run opened := by
    rintro fuel args rfl
    rw [check_opens opens, termFormer, checkArrow_eq]
  have synthesised : ∀ fuel hole,
      (check (fuel + 1) (synthesising create returnPos)).run start =
        .ok (⟨term, some classifier, hole⟩, after) →
      (arrowPi fuel (check fuel) create).run opened = .ok ((term, classifier), after) := by
    intro fuel hole synth
    rw [case_eq _ _ rfl] at synth
    obtain ⟨closed, ⟨pi, kind⟩, front, finish⟩ := run_bind_ok.mp synth
    cases finish
    exact front
  refine agrees_intro synthesises ?_ ?_
  · intro fuel checked after' hole synth run
    rw [case_eq _ _ rfl, run_bind_of_ok (synthesised _ _ synth)] at run
    cases run
    exact ⟨rfl, _, .inl ⟨equal, rfl⟩, rfl⟩
  · intro _
    refine ⟨0, fun fuel hole _ synth => ?_⟩
    rw [case_eq _ _ rfl, run_bind_of_ok (synthesised _ _ synth)]
    exact ⟨_, _, rfl⟩

/-! ### Local definitions -/

/-- A run that starts with a term former goes on from a later state. -/
theorem agrees_from {depth : Nat} {bound : Checker} {rest : Nat → CheckerM Checked}
    (goes_on : ∀ fuel, depth ≤ fuel →
      (check (fuel + 1) (checking create returnPos expected)).run start = (rest fuel).run bound)
    (same : ∀ fuel checked after', depth ≤ fuel → (rest fuel).run bound = .ok (checked, after') →
      checked.term = term ∧ ∃ store, Compared expected classifier after.store store ∧
        after' = after.withStore store)
    (accepts : Equal after.store expected classifier → ∃ fuel checked after', depth ≤ fuel ∧
      (rest fuel).run bound = .ok (checked, after')) :
    Agrees create returnPos expected classifier start term after := by
  constructor
  · intro fuel checked after' run
    have run' := extends_check (show fuel ≤ max depth fuel + 1 by omega) _ _ _ _ run
    rw [goes_on _ (by omega)] at run'
    exact same _ _ _ (by omega) run'
  · intro equal
    obtain ⟨fuel, checked, after', deep, run⟩ := accepts equal
    exact ⟨fuel + 1, checked, after', by rw [goes_on fuel deep, run]⟩

theorem agrees_local (opens : Opens .At start opened)
    (body : ∀ fuel tail id prev bound,
      (openLocal fuel (check fuel) create returnPos).run opened = .ok ((tail, id, prev), bound) →
        ∀ final, Synthesises create returnPos bound term classifier final →
          Agrees create returnPos expected classifier bound term final)
    (synthesises : Synthesises create returnPos start term classifier after) :
    Agrees create returnPos expected classifier start term after := by
  have case_eq : ∀ fuel args, args.create = create → args.returnPos = returnPos →
      (check (fuel + 1) args).run start =
        (openLocal fuel (check fuel) create returnPos >>= closeLocal (check fuel) args).run
          opened := by
    rintro fuel args rfl rfl
    rw [check_opens opens, termFormer, checkAt_eq]
  obtain ⟨depth, hole, synth⟩ := synthesises
  replace synth := extends_check (Nat.le_succ depth) _ _ _ _ synth
  rw [case_eq _ _ rfl rfl] at synth
  obtain ⟨bound, ⟨tail, id, prev⟩, front, rest⟩ := run_bind_ok.mp synth
  have goes_on : ∀ fuel, depth ≤ fuel →
      (check (fuel + 1) (checking create returnPos expected)).run start =
        (closeLocal (check fuel) (checking create returnPos expected) (tail, id, prev)).run
          bound := by
    intro fuel le
    rw [case_eq _ _ rfl rfl, run_bind_of_ok (extends_openLocal le _ _ _ front)]
  cases tail with
  | true =>
      have agrees := body _ _ _ _ _ front after ⟨depth, hole, rest⟩
      refine agrees_from goes_on (fun fuel checked after' _ run => agrees.same _ _ _ run) ?_
      intro equal
      obtain ⟨fuel, checked, after', run⟩ := agrees.accepts equal
      exact ⟨max depth fuel, checked, after', by omega, extends_check (by omega) _ _ _ _ run⟩
  | false =>
      rw [closeLocal_eq] at rest
      obtain ⟨_, _, parens, rest⟩ := run_bind_ok.mp rest
      cases parens
      obtain ⟨final, _, synth, rest⟩ := run_bind_ok.mp rest
      obtain ⟨_, _, close, rest⟩ := run_bind_ok.mp rest
      cases rest
      obtain ⟨unchanged, any⟩ := detached_closeRange _ _ _ _ _ _ close
      have agrees := body _ _ _ _ _ front final ⟨depth, hole, synth⟩
      refine agrees_from goes_on ?_ ?_
      · intro fuel checked after' _ run
        rw [closeLocal_eq] at run
        obtain ⟨_, _, parens, run⟩ := run_bind_ok.mp run
        cases parens
        obtain ⟨_, _, run, rest⟩ := run_bind_ok.mp run
        obtain ⟨same, store, compared, rfl⟩ := agrees.same _ _ _ run
        rw [run_bind_of_ok (any store)] at rest
        cases rest
        exact ⟨same, store, unchanged ▸ compared, rfl⟩
      · intro equal
        rw [unchanged] at equal
        obtain ⟨fuel, checked, after', run⟩ := agrees.accepts equal
        obtain ⟨same, store, compared, rfl⟩ := agrees.same _ _ _ run
        refine ⟨max depth fuel, checked, after.withStore store, by omega, ?_⟩
        have run' := extends_check (Nat.le_max_right depth fuel) _ _ _ _ run
        have parens : getOpenParens.run bound = .ok (bound.openParens, bound) := rfl
        rw [closeLocal_eq, run_bind_of_ok parens]
        refine (run_bind_of_ok run').trans ?_
        rw [run_bind_of_ok (any store)]
        rfl

/-! ### Negations -/

/-- Only the term of the numeral matters. -/
theorem run_negated_ok {e e' result : Checked} {before : Checker} (same : e'.term = e.term)
    (run : (negated create e).run before = .ok (result, after)) :
    ∃ term, result = { e with term } ∧
      (negated create e').run before = .ok ({ e' with term }, after) := by
  unfold negated at run ⊢
  cases create with
  | false =>
      cases run
      exact ⟨none, rfl, rfl⟩
  | true =>
      simp only [if_true] at run ⊢
      rw [same]
      obtain ⟨_, literal, read, run⟩ := run_bind_ok.mp run
      obtain ⟨-, rfl⟩ := run_deref_ok.mp read
      obtain ⟨node, found, run⟩ := run_load_bind_ok.mp run
      rw [run_bind_of_ok read]
      refine ⟨e.term, ?_, run_load_bind_ok.mpr ⟨node, found, ?_⟩⟩
      · split at run
        · obtain ⟨_, _, -, run⟩ := run_bind_ok.mp run
          exact (run_pure_ok.mp run).1.symm
        · obtain ⟨_, _, -, run⟩ := run_bind_ok.mp run
          exact (run_pure_ok.mp run).1.symm
        · exact (run_stop_ok.mp run).elim
      · split at run
        · obtain ⟨_, _, written, run⟩ := run_bind_ok.mp run
          obtain ⟨rfl, rfl⟩ := run_pure_ok.mp run
          rw [run_bind_of_ok written, ← same]
          rfl
        · obtain ⟨_, _, written, run⟩ := run_bind_ok.mp run
          obtain ⟨rfl, rfl⟩ := run_pure_ok.mp run
          rw [run_bind_of_ok written, ← same]
          rfl
        · exact (run_stop_ok.mp run).elim

theorem Compared.unchanged {store store' : Store} {type : Ref}
    (compared : Compared type type store store') : store' = store := by
  rcases compared with ⟨-, rfl⟩ | ⟨fuel, run⟩
  · rfl
  · have itself : (defeq 1 type type).run store = .ok (true, store) := by
      unfold defeq
      rw [if_pos rfl]
      rfl
    exact (Equal.unique run itself).2

/-- With the computed classifier as the expected one a numeral is negated in the same way. -/
theorem run_closeTilde_computes {prevo : Int} {e : Checked} {hole : Bool} {before : Checker}
    (run : (closeTilde (synthesising create returnPos) prevo e).run before =
      .ok (⟨term, some classifier, hole⟩, after)) :
    e.computed = some classifier ∧ ∀ e' : Checked, e'.term = e.term →
      (closeTilde (checking create returnPos classifier) prevo e').run before =
        .ok ({ e' with term }, after) := by
  obtain ⟨closed, _, close, rest⟩ := run_bind_ok.mp run
  obtain ⟨closed', _, close', rest⟩ := run_bind_ok.mp rest
  obtain ⟨_, type, read, rest⟩ := run_bind_ok.mp rest
  obtain ⟨type_eq, rfl⟩ := run_deref_ok.mp read
  change (negatedAs create type e).run closed' = _ at rest
  unfold negatedAs at rest
  by_cases numeric : type ≠ statMpz ∧ type ≠ statMpq
  · rw [if_pos numeric] at rest
    exact (run_stop_ok.mp rest).elim
  · rw [if_neg numeric] at rest
    obtain ⟨_, result, -⟩ := run_negated_ok rfl rest
    obtain rfl : type = classifier := by
      rw [type_eq] at result
      cases result
      rfl
    refine ⟨type_eq, fun e' same => ?_⟩
    obtain ⟨_, result, rest'⟩ := run_negated_ok same rest
    obtain ⟨rfl, -⟩ := Checked.mk.inj result
    refine (run_bind_of_ok close).trans ((run_bind_of_ok close').trans ?_)
    change (negatedAs create type e').run closed' = _
    rw [negatedAs, if_neg numeric]
    exact rest'

theorem agrees_tilde (opens : Opens .Tilde start opened)
    (body : ∀ literal final, Synthesises create returnPos opened literal classifier final →
      Agrees create returnPos expected classifier opened literal final)
    (identical : ∀ literal final, Synthesises create returnPos opened literal classifier final →
      ∀ store, store = final.store ∨ store = after.store →
        Equal store expected classifier → expected = classifier)
    (synthesises : Synthesises create returnPos start term classifier after) :
    Agrees create returnPos expected classifier start term after := by
  have case_eq : ∀ fuel args, args.inAsc = false → (check (fuel + 1) args).run start =
      (check fuel args >>= closeTilde args opened.openParens).run opened := by
    intro fuel args inAsc
    rw [check_opens opens, termFormer, checkTilde_eq]
    have parens : getOpenParens.run opened = .ok (opened.openParens, opened) := rfl
    rw [run_bind_of_ok parens, ← inAsc]
  obtain ⟨depth, hole, synth⟩ := synthesises
  replace synth := extends_check (Nat.le_succ depth) _ _ _ _ synth
  rw [case_eq _ _ rfl] at synth
  obtain ⟨final, ⟨literal, computed, hole⟩, synth, rest⟩ := run_bind_ok.mp synth
  obtain ⟨computed_eq, closes⟩ := run_closeTilde_computes rest
  obtain rfl : computed = some classifier := computed_eq
  have literal_synth : Synthesises create returnPos opened literal classifier final :=
    ⟨depth, hole, synth⟩
  have agrees := body _ _ literal_synth
  have same_store : ∀ store, Compared expected classifier final.store store →
      expected = classifier ∧ final.withStore store = final := by
    intro store compared
    obtain rfl := identical _ _ literal_synth _ (.inl rfl) compared.equal
    exact ⟨rfl, by rw [compared.unchanged, withStore_self]⟩
  refine agrees_from (fun fuel (_ : 0 ≤ fuel) => case_eq fuel _ rfl) ?_ ?_
  · intro fuel checked after' _ run
    obtain ⟨_, e, run, close⟩ := run_bind_ok.mp run
    obtain ⟨same, store, compared, rfl⟩ := agrees.same _ _ _ run
    obtain ⟨rfl, unchanged⟩ := same_store store compared
    rw [unchanged, closes e same] at close
    cases close
    exact ⟨rfl, _, .inl ⟨Equal.refl _ _, rfl⟩, rfl⟩
  · intro equal
    obtain rfl := identical _ _ literal_synth _ (.inr rfl) equal
    obtain ⟨fuel, e, after', run⟩ := agrees.accepts (Equal.refl _ _)
    obtain ⟨same, store, compared, rfl⟩ := agrees.same _ _ _ run
    rw [(same_store store compared).2] at run
    exact ⟨fuel, _, _, Nat.zero_le _, run_bind_ok.mpr ⟨_, _, run, closes e same⟩⟩

/-! ### Pi abstractions -/

/-- What synthesis adds to the range, checking adds too, if the expected classifier is a sort. -/
theorem run_closeBang_computes (expected : Ref) {fuel : Nat} {sym : Ref} {domain : Option Ref}
    {range : Checked}
    {hole : Bool} {before : Checker}
    (run : (closeBang fuel (synthesising create returnPos) (sym, domain, range)).run before =
      .ok (⟨term, some classifier, hole⟩, after)) :
    range.computed = some classifier ∧
      GrownByPi before.store after.store ∧
      ∀ range' : Checked, range.term = range'.term → DenotesSort before.store.heap expected →
        (closeBang fuel (checking create returnPos expected) (sym, domain, range')).run before =
          .ok ({ range' with term }, after) := by
  cases create with
  | true =>
      obtain ⟨_, pi, built, rest⟩ := run_bind_ok.mp run
      obtain ⟨result, rfl⟩ := run_pure_ok.mp rest
      obtain ⟨rfl, computed, rfl⟩ := Checked.mk.inj result
      obtain ⟨store, inner, rfl⟩ := run_onStore_withStore.mp built
      obtain ⟨flag, -, rfl⟩ := run_newPi_ok inner
      refine ⟨computed, .inr ⟨_, flag, rfl⟩, fun range' same sort => ?_⟩
      refine (run_bind_of_ok (run_onStore_withStore.mpr
        ⟨_, run_isTypeOrKind_sort sort, rfl⟩)).trans ?_
      rw [same] at built ⊢
      exact (run_bind_of_ok built).trans rfl
  | false =>
      obtain ⟨_, read, computed, rest⟩ := run_bind_ok.mp run
      obtain ⟨computed_eq, rfl⟩ := run_deref_ok.mp computed
      obtain ⟨_, verdict, tested, rest⟩ := run_bind_ok.mp rest
      obtain ⟨_, inner, rfl⟩ := run_onStore_withStore.mp tested
      obtain ⟨rfl, -⟩ := run_isTypeOrKind_ok inner
      cases verdict with
      | false =>
          obtain ⟨_, _, -, rest⟩ := run_bind_ok.mp rest
          exact (run_report_bind_ok.mp rest).elim
      | true =>
          obtain ⟨result, rfl⟩ := run_pure_ok.mp rest
          obtain ⟨rfl, computed, rfl⟩ := Checked.mk.inj result
          refine ⟨computed, .inl rfl, fun range' same sort => ?_⟩
          exact (run_bind_of_ok (run_onStore_withStore.mpr
            ⟨_, run_isTypeOrKind_sort sort, rfl⟩)).trans rfl

theorem agrees_bang (opens : Opens .Bang start opened)
    (range : ∀ fuel front bound, (openRange (check fuel)).run opened = .ok (front, bound) →
      ∀ trm final, Synthesises create returnPos bound trm classifier final →
        Agrees create returnPos expected classifier bound trm final)
    (sort : ∀ fuel front bound, (openRange (check fuel)).run opened = .ok (front, bound) →
      ∀ trm final, Synthesises create returnPos bound trm classifier final →
        DenotesSort final.store.heap classifier)
    (sorts : ∀ fuel front bound, (openRange (check fuel)).run opened = .ok (front, bound) →
      ∀ trm final, Synthesises create returnPos bound trm classifier final →
        ∀ store, store = final.store ∨ store = after.store →
          Equal store expected classifier → DenotesSort store.heap expected)
    (synthesises : Synthesises create returnPos start term classifier after) :
    Agrees create returnPos expected classifier start term after := by
  have case_eq : ∀ fuel args, (check (fuel + 1) args).run start =
      (checkBangRange (check fuel) args >>= closeBang fuel args).run opened := by
    intro fuel args
    rw [check_opens opens, termFormer, checkBang_eq]
  obtain ⟨depth, hole, synth⟩ := synthesises
  replace synth := extends_check (Nat.le_succ depth) _ _ _ _ synth
  rw [case_eq, checkBangRange_eq] at synth
  obtain ⟨_, _, ranged, finish⟩ := run_bind_ok.mp synth
  obtain ⟨bound, ⟨sym, domain, id, prev, prevo⟩, front, ranged⟩ := run_bind_ok.mp ranged
  obtain ⟨final, ⟨trm, computed, hole⟩, synth, ranged⟩ := run_bind_ok.mp ranged
  obtain ⟨closed, _, close, ranged⟩ := run_bind_ok.mp ranged
  obtain ⟨rfl, rfl⟩ := run_pure_ok.mp ranged
  obtain ⟨unchanged, any⟩ := detached_closeRange _ _ _ _ _ _ close
  have ranged_synth : Synthesises create returnPos bound trm classifier final := by
    obtain ⟨rfl, -⟩ := run_closeBang_computes expected finish
    exact ⟨depth, hole, synth⟩
  have agrees := range _ _ _ front _ _ ranged_synth
  have sorted := sort _ _ _ front _ _ ranged_synth
  have sorted' := sorts _ _ _ front _ _ ranged_synth
  have case_eq' : ∀ fuel, depth ≤ fuel →
      (check (fuel + 1) (checking create returnPos expected)).run start =
        (check fuel (checking create returnPos expected) >>= fun ranged =>
          closeRange id prev prevo >>= fun _ =>
            closeBang fuel (checking create returnPos expected) (sym, domain, ranged)).run
          bound := by
    intro fuel le
    rw [case_eq, checkBangRange_eq]
    simp only [bind_assoc, pure_bind]
    rw [run_bind_of_ok (extends_openRange le _ _ _ front)]
    rfl
  have same_store : ∀ store, Compared expected classifier final.store store →
      DenotesSort closed.store.heap expected ∧ final.withStore store = final := by
    intro store compared
    have expected_sort := sorted' _ (.inl rfl) compared.equal
    refine ⟨unchanged ▸ expected_sort, ?_⟩
    rcases compared with ⟨-, rfl⟩ | ⟨fuel, run⟩
    · exact withStore_self final
    · rw [expected_sort.unchanged sorted run, withStore_self]
  refine agrees_from case_eq' ?_ ?_
  · intro fuel checked after' le run
    obtain ⟨_, ranged, run, rest⟩ := run_bind_ok.mp run
    obtain ⟨same, store, compared, rfl⟩ := agrees.same _ _ _ run
    obtain ⟨expected_sort, same_final⟩ := same_store store compared
    obtain ⟨-, grown, ends⟩ :=
      run_closeBang_computes expected (extends_closeBang le _ _ _ _ _ finish)
    rw [same_final, run_bind_of_ok close, ends ranged same.symm expected_sort] at rest
    obtain ⟨rfl, rfl⟩ := Prod.mk.inj (Except.ok.inj rest)
    have equal : Equal closed.store expected classifier := unchanged ▸ compared.equal
    exact ⟨rfl, _, .inl ⟨grown.equal expected_sort (unchanged ▸ sorted) equal, rfl⟩, rfl⟩
  · intro equal
    obtain ⟨-, grown, -⟩ := run_closeBang_computes expected finish
    have closed_equal := grown.of_equal (sorted' _ (.inr rfl) equal) (unchanged ▸ sorted) equal
    obtain ⟨fuel, ranged, after', run⟩ := agrees.accepts (unchanged ▸ closed_equal)
    obtain ⟨same, store, compared, rfl⟩ := agrees.same _ _ _ run
    obtain ⟨expected_sort, same_final⟩ := same_store store compared
    rw [same_final] at run
    obtain ⟨-, -, ends⟩ := run_closeBang_computes expected
      (extends_closeBang (Nat.le_max_left depth fuel) _ _ _ _ _ finish)
    have run' := extends_check (Nat.le_max_right depth fuel) _ _ _ _ run
    refine ⟨max depth fuel, { ranged with term }, after, by omega, ?_⟩
    rw [run_bind_of_ok run', run_bind_of_ok close, ends ranged same.symm expected_sort]

end Agrees

/-! ### Annotated lambdas -/

/-- The frame condition that says nothing. -/
def Unframed (_ _ : Checker) : Prop := True

instance : Std.Refl Unframed := ⟨fun _ => trivial⟩

instance : IsTrans Checker Unframed := ⟨fun _ _ _ _ _ => trivial⟩

theorem keeps_unframed {α : Type} (m : CheckerM α) : Keeps Unframed m :=
  fun _ _ _ _ => trivial

/-- No classifier is computed. -/
abbrev Silent (m : CheckerM Checked) : Prop :=
  Ensures Unframed (fun checked => checked.computed = none) m

/-- A computation whose result has the classifier of a silent one. -/
theorem silent_then {m : CheckerM Checked} {k : Checked → CheckerM Checked} (first : Silent m)
    (rest : ∀ checked, checked.computed = none → Silent (k checked)) : Silent (m >>= k) :=
  ensures_bind first rest

theorem silent_step {α : Type} {m : CheckerM α} {k : α → CheckerM Checked}
    (rest : ∀ value, Silent (k value)) : Silent (m >>= k) :=
  ensures_step (keeps_unframed m) rest

theorem silent_report_then {α : Type} {message : String} {k : α → CheckerM Checked} :
    Silent (report message >>= k) :=
  fun _ _ _ run => (run_report_bind_ok.mp run).elim

/-- A pi abstraction needs a range. -/
theorem run_newPi_none {fuel : Nat} {symbol domain : Option Ref} {pi : Ref} {before after : Store}
    (run : (newPi fuel symbol domain none).run before = .ok (pi, after)) : False := by
  obtain ⟨_, r, allocated, run⟩ := run_bind_ok.mp run
  obtain ⟨rfl, rfl⟩ := run_new_ok.mp allocated
  obtain ⟨_, _, flagged, -⟩ := run_bind_ok.mp run
  obtain ⟨_, _, range, -⟩ := run_bind_ok.mp flagged
  obtain ⟨⟨op, kids, flag, loaded, third⟩, -⟩ := run_kid_ok.mp range
  obtain ⟨-, rfl, -⟩ : Op.pi = op ∧ kidsOf [symbol, domain, none] = kids ∧ false = flag := by
    simpa using loaded
  cases symbol <;> cases domain <;> simp [kidsOf] at third

theorem ensures_annotatedRange (fuel : Nat) (domain : Option Ref) (expected : Ref) :
    Ensures Unframed (fun range => range.isSome) (annotatedRange fuel domain (some expected)) := by
  unfold annotatedRange
  repeat' first
    | with_reducible exact ensures_pure rfl
    | with_reducible refine ensures_step (keeps_unframed _) fun _ => ?_
    | with_reducible refine ensures_ite ?_ ?_

section Silent

variable {check : CheckArgs → CheckerM Checked}
  (silent : ∀ create computed isHole returnPos inAsc expected,
    Silent (check ⟨create, some expected, computed, isHole, returnPos, inAsc⟩))

include silent

theorem silent_checkBang (fuel : Nat) (create computed isHole returnPos inAsc : Bool)
    (expected : Ref) :
    Silent (checkBang fuel check ⟨create, some expected, computed, isHole, returnPos, inAsc⟩) := by
  rw [checkBang_eq, checkBangRange_eq]
  simp only [bind_assoc, pure_bind]
  refine silent_step fun front => ?_
  refine silent_then (silent _ _ _ _ _ _) fun range computed_eq => ?_
  refine silent_step fun _ => silent_step fun sort => ?_
  refine ensures_ite (silent_step fun _ => ensures_ite ?_ ?_) (ensures_ite ?_ ?_)
  · exact silent_step fun _ => ensures_pure computed_eq
  · exact ensures_pure computed_eq
  · exact silent_step fun _ => ensures_pure computed_eq
  · exact ensures_pure computed_eq

theorem silent_checkLambda (create computed isHole returnPos inAsc : Bool) (expected : Ref) :
    Silent (checkLambda check ⟨create, some expected, computed, isHole, returnPos, inAsc⟩) := by
  unfold checkLambda
  repeat' first
    | with_reducible exact silent _ _ _ _ _ _
    | with_reducible exact ensures_pure rfl
    | with_reducible refine silent_step fun _ => ?_
    | with_reducible refine ensures_ite ?_ ?_

theorem silent_checkAt (fuel : Nat) (create computed isHole returnPos inAsc : Bool)
    (expected : Ref) :
    Silent (checkAt fuel check ⟨create, some expected, computed, isHole, returnPos, inAsc⟩) := by
  rw [checkAt_eq]
  refine silent_step fun ⟨tail, id, prev⟩ => ?_
  unfold closeLocal
  refine ensures_ite (silent _ _ _ _ _ _) (silent_step fun prevo => ?_)
  refine silent_then (silent _ _ _ _ _ _) fun body computed_eq => ?_
  exact silent_step fun _ => silent_step fun _ => silent_step fun _ => ensures_pure computed_eq

theorem silent_checkTilde (create computed isHole returnPos inAsc : Bool) (expected : Ref) :
    Silent (checkTilde check ⟨create, some expected, computed, isHole, returnPos, inAsc⟩) := by
  rw [checkTilde_eq]
  refine silent_step fun prevo => silent_then (silent _ _ _ _ _ _) fun e computed_eq => ?_
  refine silent_step fun _ => silent_step fun _ => silent_step fun type => ?_
  intro before checked after run
  refine ⟨trivial, ?_⟩
  change (negatedAs create type e).run before = _ at run
  unfold negatedAs at run
  split at run
  · exact (run_stop_ok.mp run).elim
  · obtain ⟨_, rfl, -⟩ := run_negated_ok rfl run
    exact computed_eq

/-- The type of an annotated lambda lacks its range, so that none is accepted. -/
theorem never_checkPound (fuel : Nat) (create computed isHole returnPos inAsc : Bool)
    (expected : Ref) :
    Ensures Unframed (fun _ => False)
      (checkPound fuel check ⟨create, some expected, computed, isHole, returnPos, inAsc⟩) := by
  have never : ∀ {α β : Type} {m : CheckerM α} {k : α → CheckerM β},
      Ensures Unframed (fun _ => False) m → Ensures Unframed (fun _ => False) (m >>= k) :=
    fun stops => ensures_bind stops fun _ => False.elim
  unfold checkPound
  refine ensures_step (keeps_unframed _) fun id => ensures_step (keeps_unframed _) fun sym =>
    ensures_step (keeps_unframed _) fun prevo => ensures_step (keeps_unframed _) fun domain =>
      never ?_
  refine ensures_step (keeps_unframed _) fun prev => never ?_
  refine ensures_bind (ensures_annotatedRange fuel domain expected) fun range found => ?_
  obtain ⟨range, rfl⟩ := Option.isSome_iff_exists.mp found
  refine ensures_bind (silent _ _ _ _ _ _) fun body computed_eq => ?_
  refine ensures_step (keeps_unframed _) fun _ => ensures_step (keeps_unframed _) fun _ => never ?_
  intro before pi after run
  rw [computed_eq] at run
  obtain ⟨_, built, -⟩ := run_onStore_withStore.mp run
  exact (run_newPi_none built).elim

omit silent

theorem silent_checkPercent (create computed isHole returnPos inAsc : Bool) (expected : Ref) :
    Silent (checkPercent check ⟨create, some expected, computed, isHole, returnPos, inAsc⟩) := by
  unfold checkPercent
  refine silent_step fun checker => ?_
  rw [if_pos (by simp)]
  exact silent_report_then

theorem silent_checkArrow (fuel : Nat) (create computed isHole returnPos inAsc : Bool)
    (expected : Ref) :
    Silent (checkArrow fuel check ⟨create, some expected, computed, isHole, returnPos, inAsc⟩) := by
  rw [checkArrow_eq]
  exact silent_step fun _ => ensures_pure rfl

theorem silent_checkCaret (fuel : Nat) (create computed isHole returnPos inAsc : Bool)
    (expected : Ref) :
    Silent (checkCaret fuel check ⟨create, some expected, computed, isHole, returnPos, inAsc⟩) := by
  unfold checkCaret
  repeat' first
    | with_reducible exact ensures_pure rfl
    | with_reducible refine silent_step fun _ => ?_
    | with_reducible refine ensures_ite ?_ ?_

theorem silent_checkColon (fuel : Nat) (create computed isHole returnPos inAsc : Bool)
    (expected : Ref) :
    Silent (checkColon fuel check ⟨create, some expected, computed, isHole, returnPos, inAsc⟩) := by
  unfold checkColon
  repeat' first
    | with_reducible exact ensures_pure rfl
    | with_reducible refine silent_step fun _ => ?_
    | with_reducible refine ensures_ite ?_ ?_

theorem silent_checkApp (fuel : Nat) (create computed isHole returnPos inAsc : Bool)
    (expected : Ref) (c : Token) :
    Silent (checkApp fuel check ⟨create, some expected, computed, isHole, returnPos, inAsc⟩ c) := by
  rw [checkApp_eq]
  refine silent_step fun exit => ?_
  cases exit with
  | ended headtrm headtp holes =>
      simp only [finishApp, pure_bind]
      repeat' first
        | with_reducible exact silent_report_then
        | with_reducible exact ensures_pure rfl
        | with_reducible refine silent_step fun _ => ?_
        | with_reducible refine ensures_ite ?_ ?_
  | tail domain range holes =>
      simp only [finishApp, checkTailArg, pure_bind]
      repeat' first
        | with_reducible exact silent_report_then
        | with_reducible exact ensures_pure rfl
        | with_reducible refine silent_step fun _ => ?_
        | with_reducible refine ensures_ite ?_ ?_

theorem silent_numeral (type : Ref) (message : String) (build : CheckerM Ref)
    (create computed isHole returnPos inAsc : Bool) (expected : Ref) :
    Silent (checkNumeralToken ⟨create, some expected, computed, isHole, returnPos, inAsc⟩ type
      message build) := by
  simp only [checkNumeralToken, pure_bind]
  repeat' first
    | with_reducible exact silent_report_then
    | with_reducible exact ensures_pure rfl
    | with_reducible refine silent_step fun _ => ?_
    | with_reducible refine ensures_ite ?_ ?_

theorem silent_checkIdent (fuel : Nat) (create computed isHole returnPos inAsc : Bool)
    (expected : Ref) :
    Silent (checkIdent fuel ⟨create, some expected, computed, isHole, returnPos, inAsc⟩) := by
  simp only [checkIdent, pure_bind]
  refine silent_step fun _ => silent_step fun pair => ?_
  split
  · exact ensures_stop
  · repeat' first
      | with_reducible exact silent_report_then
      | with_reducible exact ensures_pure rfl
      | with_reducible refine silent_step fun _ => ?_
      | with_reducible refine ensures_ite ?_ ?_

end Silent

/-- Checking against an expected classifier computes none. -/
theorem silent_check (fuel : Nat) (create computed isHole returnPos inAsc : Bool) (expected : Ref) :
    Silent (check fuel ⟨create, some expected, computed, isHole, returnPos, inAsc⟩) := by
  induction fuel generalizing create computed isHole returnPos inAsc expected with
  | zero => exact ensures_stop
  | succ fuel hyp =>
      unfold check
      refine silent_step fun token => ?_
      split
      · rw [checkOpen_eq]
        refine silent_step fun _ => silent_step fun token => ?_
        unfold termFormer
        split
        · exact ensures_stop
        · exact silent_checkBang hyp _ _ _ _ _ _ _
        · exact silent_checkArrow _ _ _ _ _ _ _
        · exact fun before checked after run =>
            (never_checkPound hyp _ _ _ _ _ _ _ before checked after run).2.elim
        · exact silent_checkPercent _ _ _ _ _ _
        · exact silent_checkLambda hyp _ _ _ _ _ _
        · exact silent_checkCaret _ _ _ _ _ _ _
        · exact silent_checkColon _ _ _ _ _ _ _
        · exact silent_checkAt hyp _ _ _ _ _ _ _
        · exact silent_checkTilde hyp _ _ _ _ _ _
        · exact silent_checkApp _ _ _ _ _ _ _ _
      · exact ensures_stop
      · refine ensures_ite silent_report_then ?_
        exact silent_step fun _ => ensures_pure rfl
      · exact silent_numeral _ _ _ _ _ _ _ _ _
      · exact silent_numeral _ _ _ _ _ _ _ _ _
      · exact silent_checkIdent _ _ _ _ _ _ _

/-- With an expected classifier an annotated lambda is never accepted. -/
theorem agrees_pound {create returnPos : Bool} {expected classifier : Ref}
    {start opened after : Checker} {term : Option Ref} (opens : Opens .Pound start opened)
    (different : ¬ Equal after.store expected classifier) :
    Agrees create returnPos expected classifier start term after := by
  constructor
  · intro fuel checked after' run
    have run' := extends_check (Nat.le_succ fuel) _ _ _ _ run
    rw [check_opens opens, termFormer] at run'
    exact (never_checkPound (silent_check fuel) _ _ _ _ _ _ _ _ _ _ run').2.elim
  · exact fun equal => (different equal).elim

/-! ### Tail calls -/

/-- A comparison changes nothing. -/
def Inert (store : Store) (this e : Ref) : Prop :=
  ∀ fuel equal after, (defeq fuel this e).run store = .ok (equal, after) → after = store

theorem run_checkTailArg_computes {fuel : Nat} {check : CheckArgs → CheckerM Checked}
    {create returnPos hole : Bool} {classifier domain range : Ref} {holes : List (Option Ref)}
    {term : Option Ref} {before after : Checker}
    (run : (checkTailArg fuel check (synthesising create returnPos) domain range holes).run before =
      .ok (⟨term, some classifier, hole⟩, after)) :
    range = classifier ∧ ∃ computed,
      (tailArg fuel check returnPos domain holes).run before =
        .ok (⟨term, computed, hole⟩, after) := by
  obtain ⟨_, computed, wrote, rest⟩ := run_bind_ok.mp run
  cases wrote
  obtain ⟨_, _, tested, rest⟩ := run_bind_ok.mp rest
  obtain ⟨_, ⟨term, computed, hole⟩, arg, rest⟩ := run_bind_ok.mp rest
  cases rest
  exact ⟨rfl, computed, run_bind_ok.mpr ⟨_, _, tested, arg⟩⟩

/-- A comparison that changes nothing and succeeds leaves the tail call as it is. -/
theorem run_checkTailArg_compares {fuel : Nat} {check : CheckArgs → CheckerM Checked}
    {create returnPos hole : Bool} {expected domain range : Ref} {holes : List (Option Ref)}
    {term computed : Option Ref} {before after after' : Checker} {checked : Checked}
    (inert : Inert before.store expected range)
    (arg : (tailArg fuel check returnPos domain holes).run before =
      .ok (⟨term, computed, hole⟩, after)) :
    (checkTailArg fuel check (checking create returnPos expected) domain range holes).run before =
        .ok (checked, after') ↔
      (defeq fuel expected range).run before.store = .ok (true, before.store) ∧
        checked = ⟨term, none, hole⟩ ∧ after = after' := by
  obtain ⟨_, _, tested, arg⟩ := run_bind_ok.mp arg
  refine run_compare_ok.trans ?_
  have rest : ∀ checked after', (do
      let computed ← pure none
      checkHolesTail fuel domain holes
      let arg ← check { create := false, expected := some domain, returnPos }
      return { arg with computed } : CheckerM Checked).run before = .ok (checked, after') ↔
        checked = ⟨term, none, hole⟩ ∧ after = after' := by
    intro checked after'
    rw [pure_bind, run_bind_of_ok tested, run_bind_of_ok arg]
    exact run_pure_ok.trans (and_congr_left fun _ => eq_comm)
  constructor
  · rintro ⟨store, compared, run⟩
    obtain rfl := inert _ _ _ compared
    exact ⟨compared, (rest _ _).mp run⟩
  · rintro ⟨compared, result⟩
    exact ⟨_, compared, (rest _ _).mpr result⟩

/-- Where the argument loop of an application ends, its classifier can be compared at once, or as
well as after the last argument. -/
def Comparable (expected : Ref) (after : Store) (closed : Checker) : AppExit → Prop
  | .ended _ _ _ => True
  | .tail _ range _ =>
      Inert closed.store expected range ∧
        (Equal closed.store expected range ↔ Equal after expected range)

section Agrees

variable {create returnPos : Bool} {expected classifier : Ref} {start opened after : Checker}
  {term : Option Ref}

theorem agrees_app {token : Token} (opens : Opens token start opened)
    (other : token.isFormer = false)
    (ends : ∀ fuel exit closed,
      (appExit fuel (check fuel) create token).run opened = .ok (exit, closed) →
        Comparable expected after.store closed exit)
    (synthesises : Synthesises create returnPos start term classifier after) :
    Agrees create returnPos expected classifier start term after := by
  have case_eq : ∀ fuel args, args.create = create → (check (fuel + 1) args).run start =
      (appExit fuel (check fuel) create token >>= finishApp fuel (check fuel) args).run opened := by
    rintro fuel args rfl
    rw [check_opens opens, termFormer_app other, checkApp_eq]
  obtain ⟨depth, hole, synth⟩ := synthesises
  replace synth := extends_check (Nat.le_succ depth) _ _ _ _ synth
  rw [case_eq _ _ rfl] at synth
  obtain ⟨closed, exit, front, finish⟩ := run_bind_ok.mp synth
  have goes_on : ∀ fuel, depth ≤ fuel →
      (check (fuel + 1) (checking create returnPos expected)).run start =
        (finishApp fuel (check fuel) (checking create returnPos expected) exit).run closed := by
    intro fuel le
    rw [case_eq _ _ rfl, run_bind_of_ok (extends_appExit le _ _ _ _ _ front)]
  cases exit with
  | ended headtrm headtp holes =>
      obtain ⟨rfl, rfl, tested⟩ := run_finishApp_computes finish
      obtain ⟨rfl, -⟩ := run_checkHoles_withStore tested .refl
      refine agrees_from goes_on ?_ ?_
      · intro fuel checked after' _ run
        obtain ⟨store, compared, rfl, rfl⟩ := (run_finishApp_compares tested).mp run
        exact ⟨rfl, store, .inr ⟨fuel, compared⟩, rfl⟩
      · rintro ⟨enough, store, compared⟩
        have compared' := extends_defeq (Nat.le_max_right depth enough) _ _ _ _ _ compared
        exact ⟨max depth enough, _, _, by omega,
          (run_finishApp_compares tested).mpr ⟨store, compared', rfl, rfl⟩⟩
  | tail domain range holes =>
      obtain ⟨inert, same⟩ := ends _ _ _ front
      obtain ⟨rfl, computed, arg⟩ := run_checkTailArg_computes finish
      have arg' : ∀ fuel, depth ≤ fuel →
          (tailArg fuel (check fuel) returnPos domain holes).run closed =
            .ok (⟨term, computed, hole⟩, after) := fun fuel le =>
        extends_bind (extends_checkHolesTail le domain holes)
          (fun _ => extends_check le _) _ _ _ arg
      refine agrees_from goes_on ?_ ?_
      · intro fuel checked after' le run
        obtain ⟨compared, rfl, rfl⟩ := (run_checkTailArg_compares inert (arg' fuel le)).mp run
        exact ⟨rfl, _, .inl ⟨same.mp ⟨_, _, compared⟩, rfl⟩, rfl⟩
      · intro equal
        obtain ⟨enough, store, compared⟩ := same.mpr equal
        obtain rfl := inert _ _ _ compared
        have compared' := extends_defeq (Nat.le_max_right depth enough) _ _ _ _ _ compared
        exact ⟨max depth enough, _, _, by omega,
          (run_checkTailArg_compares inert (arg' _ (by omega))).mpr ⟨compared', rfl, rfl⟩⟩

end Agrees

/-! ## Agreement -/

/-- Where the two modes agree on a term that starts in the first state, has the classifier given and
ends in the second state.  The classifier of a local definition, of a pi abstraction and of a
negation is that of its body. -/
inductive Concurs (create returnPos : Bool) (expected : Ref) : Checker → Ref → Checker → Prop
  /-- The classifier of an identifier is compared by `defeq`. -/
  | identifier {token : Token} {start opened after : Checker} {classifier : Ref}
      (read : nextToken.run start = .ok (token, opened))
      (other : token ∉ [.Open, .Eof, .Hole, .Natural, .Rational]) :
      Concurs create returnPos expected start classifier after
  /-- The classifier of a numeral is compared as a pointer. -/
  | numeral {token : Token} {start opened after : Checker} {classifier : Ref}
      (read : nextToken.run start = .ok (token, opened))
      (numeral : token = .Natural ∨ token = .Rational)
      (identical : Equal after.store expected classifier → expected = classifier) :
      Concurs create returnPos expected start classifier after
  /-- The classifier of an application is compared by `defeq`, before its last argument if that is
  checked by a tail call. -/
  | application {token : Token} {start opened after : Checker} {classifier : Ref}
      (opens : Opens token start opened) (other : token.isFormer = false)
      (ends : ∀ fuel exit closed,
        (appExit fuel (check fuel) create token).run opened = .ok (exit, closed) →
          Comparable expected after.store closed exit) :
      Concurs create returnPos expected start classifier after
  /-- The type of an ascription is compared by `defeq`, and the term that is returned is released,
  though none is created. -/
  | ascription {start opened after : Checker} {classifier : Ref}
      (opens : Opens .Colon start opened)
      (creates : Equal after.store expected classifier → create = true) :
      Concurs create returnPos expected start classifier after
  /-- The expected classifier of an arrow is ignored. -/
  | arrow {start opened after : Checker} {classifier : Ref} (opens : Opens .Arrow start opened)
      (equal : Equal after.store expected classifier) :
      Concurs create returnPos expected start classifier after
  /-- An annotated lambda is never accepted against an expected classifier. -/
  | annotated {start opened after : Checker} {classifier : Ref} (opens : Opens .Pound start opened)
      (different : ¬ Equal after.store expected classifier) :
      Concurs create returnPos expected start classifier after
  /-- The body of a local definition. -/
  | localDefinition {start opened after : Checker} {classifier : Ref}
      (opens : Opens .At start opened)
      (body : ∀ fuel tail id prev bound,
        (openLocal fuel (check fuel) create returnPos).run opened = .ok ((tail, id, prev), bound) →
          ∀ term final, Synthesises create returnPos bound term classifier final →
            Concurs create returnPos expected bound classifier final) :
      Concurs create returnPos expected start classifier after
  /-- The range of a pi abstraction, whose classifier and every expected classifier equal to it must
  be `type` or `kind`. -/
  | range {start opened after : Checker} {classifier : Ref} (opens : Opens .Bang start opened)
      (body : ∀ fuel front bound, (openRange (check fuel)).run opened = .ok (front, bound) →
        ∀ term final, Synthesises create returnPos bound term classifier final →
          Concurs create returnPos expected bound classifier final)
      (sort : ∀ fuel front bound, (openRange (check fuel)).run opened = .ok (front, bound) →
        ∀ term final, Synthesises create returnPos bound term classifier final →
          DenotesSort final.store.heap classifier)
      (sorts : ∀ fuel front bound, (openRange (check fuel)).run opened = .ok (front, bound) →
        ∀ term final, Synthesises create returnPos bound term classifier final →
          ∀ store, store = final.store ∨ store = after.store →
            Equal store expected classifier → DenotesSort store.heap expected) :
      Concurs create returnPos expected start classifier after
  /-- The numeral of a negation, whose classifier is compared as a pointer again. -/
  | negation {start opened after : Checker} {classifier : Ref} (opens : Opens .Tilde start opened)
      (body : ∀ literal final, Synthesises create returnPos opened literal classifier final →
        Concurs create returnPos expected opened classifier final)
      (identical : ∀ literal final, Synthesises create returnPos opened literal classifier final →
        ∀ store, store = final.store ∨ store = after.store →
          Equal store expected classifier → expected = classifier) :
      Concurs create returnPos expected start classifier after

theorem Concurs.agrees {create returnPos : Bool} {expected classifier : Ref}
    {start after : Checker} (concurs : Concurs create returnPos expected start classifier after)
    {term : Option Ref} (synthesises : Synthesises create returnPos start term classifier after) :
    Agrees create returnPos expected classifier start term after := by
  induction concurs generalizing term with
  | identifier read other => exact agrees_ident read other synthesises
  | numeral read numeral identical =>
      rcases numeral with rfl | rfl
      · exact agrees_numeral (fun _ _ => check_natural read) identical synthesises
      · exact agrees_numeral (fun _ _ => check_rational read) identical synthesises
  | application opens other ends => exact agrees_app opens other ends synthesises
  | ascription opens creates => exact agrees_colon opens creates synthesises
  | arrow opens equal => exact agrees_arrow opens equal synthesises
  | annotated opens different => exact agrees_pound opens different
  | localDefinition opens body hyp =>
      exact agrees_local opens (fun _ _ _ _ _ front final synth => hyp _ _ _ _ _ front _ final synth
        synth) synthesises
  | range opens body sort sorts hyp =>
      exact agrees_bang opens (fun _ _ _ front _ final synth => hyp _ _ _ front _ final synth synth)
        sort sorts synthesises
  | negation opens body identical hyp =>
      exact agrees_tilde opens (fun _ final synth => hyp _ final synth synth) identical synthesises

/-- A term before which `int` is an alias of `mpz` and `n` is a constant of type `mpz`. -/
def aliased (term : String) : Checker :=
  let start := initChecker (fun _ _ => false) (fun _ => false)
  { start with
    runtime := { start.runtime with
      store := { start.store with
        heap := start.store.heap ++ [.sym "int" (some statMpz), .sym "n" none] } }
    symbols := fun name =>
      if name = "int" then ⟨some 4, some statType⟩
      else if name = "n" then ⟨some 5, some statMpz⟩
      else Binding.none
    input := scan [term] }

/-- The definition of an alias of `mpz`, and the check of a term against it. -/
def ascribedToAlias (term : String) : List Lexeme := scan
  ["(", "define", "int", "mpz", ")", "(", "declare", "n", "mpz", ")",
    "(", "check", "(", ":", "int", term, ")", ")"]

/-- How a run of a file of commands ends. -/
def verdictOn (lexemes : List Lexeme) : Except Stop Unit := do
  let _ ← (checkFile 30 40).run
    { initChecker (fun _ _ => false) (fun _ => false) with input := lexemes }
  return ()

end Lfsc
