import Lfsc.SymbolScope
import Lfsc.CodeWrites
import Lfsc.SideCondition.Matching

/-!
# The variables of a pattern and the arguments of a scrutinee

`check_code` compares the variables of a pattern with the type of its constructor where the pattern
is an application.  A constructor that stands alone is not compared with its type.  When a case
fires there is a variable for each argument exactly if a constructor that stands alone takes as many
arguments as the values of the scrutinee's type do, and these take none where there are variables.
-/

namespace Lfsc

open Exec

/-! ## The arguments that a type takes -/

/-- The arguments that values of a type take, through definitions. -/
inductive Takes (heap : List Node) : Nat → Ref → Prop
  | none {type last : Ref} (followed : followDefs heap type = some last)
      (other : opOf heap last ≠ some .pi) : Takes heap 0 type
  | pi {count : Nat} {type last range : Ref} {kids : List Ref} {flag : Bool}
      (followed : followDefs heap type = some last)
      (loaded : heap[last]? = some (.cexpr .pi kids flag)) (found : kids[2]? = some range)
      (rest : Takes heap count range) : Takes heap (count + 1) type

theorem Takes.unique {heap : List Node} {count count' : Nat} {type : Ref}
    (takes : Takes heap count type) (takes' : Takes heap count' type) : count = count' := by
  induction takes generalizing count' with
  | none followed other =>
      cases takes' with
      | none => rfl
      | pi followed' loaded found rest =>
          obtain rfl := Option.some.inj (followed.symm.trans followed')
          exact (other (opOf_of_load loaded)).elim
  | pi followed loaded found rest hyp =>
      cases takes' with
      | none followed' other =>
          obtain rfl := Option.some.inj (followed.symm.trans followed')
          exact (other (opOf_of_load loaded)).elim
      | pi followed' loaded' found' rest' =>
          obtain rfl := Option.some.inj (followed.symm.trans followed')
          rw [loaded] at loaded'
          cases loaded'
          obtain rfl := Option.some.inj (found.symm.trans found')
          rw [hyp rest']

/-- The type of a function applied to arguments. -/
inductive AppType (heap : List Node) : Ref → List Ref → Ref → Prop
  | nil {type : Ref} : AppType heap type [] type
  | cons {type last range result arg : Ref} {args kids : List Ref} {flag : Bool}
      (followed : followDefs heap type = some last)
      (loaded : heap[last]? = some (.cexpr .pi kids flag)) (found : kids[2]? = some range)
      (rest : AppType heap range args result) : AppType heap type (arg :: args) result

theorem AppType.takes {heap : List Node} {type result : Ref} {args : List Ref} {count : Nat}
    (applies : AppType heap type args result) (takes : Takes heap count result) :
    Takes heap (args.length + count) type := by
  induction applies with
  | nil => simpa using takes
  | @cons _ _ _ _ _ args _ _ followed loaded found rest hyp =>
      have more := Takes.pi followed loaded found (hyp takes)
      rw [List.length_cons, Nat.add_right_comm]
      exact more

/-! ## Patterns that are checked -/

/-- The type of a constructor, which is a symbol without a value. -/
def CtorType (symbols : SymbolTable) (heap : List Node) (ctor type : Ref) : Prop :=
  ∃ name, heap[ctor]? = some (.sym name none) ∧ (symbols name).type = some type

theorem takes_of_bindPattern {vars : List Ref} {cur last : Ref} {before after : Checker}
    {prevs : List (String × Binding)}
    (run : (bindPattern vars cur).run before = .ok ((prevs, last), after)) :
    before.store = after.store ∧ ∀ count, Takes before.store.heap count last →
      Takes before.store.heap (vars.length + count) cur := by
  induction vars generalizing cur before after prevs last with
  | nil =>
      obtain ⟨same, rfl⟩ := run_pure_ok.mp run
      cases same
      exact ⟨rfl, fun count takes => by simpa using takes⟩
  | cons var rest hyp =>
      simp only [bindPattern, run_bind_ok] at run
      obtain ⟨_, type, typeRun, _, op, opRun, run⟩ := run
      obtain ⟨_, read, rfl⟩ := run_onStore_ok.mp typeRun
      obtain ⟨followed, rfl⟩ := run_follow_ok.mp read
      obtain ⟨_, read, rfl⟩ := run_onStore_ok.mp opRun
      obtain ⟨-, opened, rfl⟩ := run_getop_ok.mp read
      by_cases pi : op = some .pi
      · rw [if_neg (not_not.mpr pi)] at run
        simp only [run_bind_ok] at run
        obtain ⟨_, name, nameRun, _, domain, domainRun, _, prev, insertRun, _, range, rangeRun, _,
          ⟨prevs', last'⟩, restRun, run⟩ := run
        obtain ⟨_, read, rfl⟩ := run_onStore_ok.mp nameRun
        obtain ⟨-, rfl⟩ := run_symName_ok.mp read
        obtain ⟨_, read, rfl⟩ := run_onStore_ok.mp domainRun
        obtain ⟨-, rfl⟩ := run_kid_ok.mp read
        obtain ⟨-, rfl⟩ := run_symbolsInsert_ok.mp insertRun
        obtain ⟨_, read, rfl⟩ := run_onStore_ok.mp rangeRun
        obtain ⟨⟨op', kids, flag, loaded, found⟩, rfl⟩ := run_kid_ok.mp read
        obtain ⟨same, rfl⟩ := run_pure_ok.mp run
        cases same
        obtain ⟨kept, takes⟩ := hyp restRun
        refine ⟨kept, fun count last => ?_⟩
        obtain rfl : op' = .pi :=
          Option.some.inj ((opOf_of_load loaded).symm.trans (opened.trans pi))
        rw [List.length_cons, Nat.add_right_comm]
        exact .pi followed loaded found (takes count last)
      · rw [if_pos pi] at run
        exact (run_report_bind_ok.mp run).elim

theorem followDefs_settled {heap : List Node} {r : Ref} (settled : valOf heap r = none) :
    followDefs heap r = some r := by
  rw [followDefs, followFor, settled]

/-- The constructor and the variables of a pattern. -/
theorem run_collectArgs_at {pat ctor : Ref} {vars : List Ref} {store : Store} {name : String}
    (pattern : PatternAt store.heap pat ctor vars)
    (loaded : store.heap[ctor]? = some (.sym name none)) :
    (collectArgs pat true).run store = .ok ((ctor, vars), store) := by
  have settled : followDefs store.heap ctor = some ctor :=
    followDefs_settled (by simp [valOf, loaded])
  rw [collectArgs]
  obtain ⟨rfl, rfl⟩ | ⟨⟨flag, applied⟩, -⟩ := pattern
  · rw [run_bind_of_ok (run_load_ok.mpr ⟨loaded, rfl⟩)]
    change (do return (← follow pat, []) : StoreM (Ref × List Ref)).run store = _
    rw [run_bind_of_ok (run_follow_ok.mpr ⟨settled, rfl⟩)]
    rfl
  · rw [run_bind_of_ok (run_load_ok.mpr ⟨applied, rfl⟩)]
    change (do return (← follow ctor, vars) : StoreM (Ref × List Ref)).run store = _
    rw [run_bind_of_ok (run_follow_ok.mpr ⟨settled, rfl⟩)]
    rfl

/-- A pattern that is compared with the type of its constructor has a variable for each argument. -/
theorem takes_of_checkPattern {pat ctor type : Ref} {vars : List Ref} {before after : Checker}
    {prevs : List (String × Binding)} (pattern : PatternAt before.store.heap pat ctor vars)
    (typed : CtorType before.symbols before.store.heap ctor type)
    (run : (checkPattern pat).run before = .ok (prevs, after)) :
    Takes before.store.heap vars.length type := by
  obtain ⟨name, loaded, found⟩ := typed
  have collected : (liftM (collectArgs pat true) : CheckerM (Ref × List Ref)).run before =
      .ok ((ctor, vars), before) :=
    run_onStore_ok.mpr ⟨_, run_collectArgs_at pattern loaded, rfl⟩
  have named : (liftM (symName ctor) : CheckerM String).run before = .ok (name, before) :=
    run_onStore_ok.mpr ⟨_, run_symName_ok.mpr ⟨⟨_, loaded⟩, rfl⟩, rfl⟩
  rw [checkPattern, run_bind_of_ok collected] at run
  simp only at run
  have looked : (symbolsGet name).run before = .ok (before.symbols name, before) := rfl
  rw [run_bind_of_ok named, run_bind_of_ok looked, found,
    run_bind_of_ok (run_deref_ok.mpr ⟨rfl, rfl⟩)] at run
  simp only [run_bind_ok] at run
  obtain ⟨bound, ⟨prevs', last⟩, bindRun, _, type', followRun, _, op, opRun, run⟩ := run
  obtain ⟨kept, takes⟩ := takes_of_bindPattern bindRun
  obtain ⟨_, read, rfl⟩ := run_onStore_ok.mp followRun
  obtain ⟨followed, rfl⟩ := run_follow_ok.mp read
  obtain ⟨_, read, rfl⟩ := run_onStore_ok.mp opRun
  obtain ⟨-, opened, rfl⟩ := run_getop_ok.mp read
  by_cases pi : op = some .pi
  · rw [if_pos pi] at run
    exact (run_report_bind_ok.mp run).elim
  · have none : Takes before.store.heap 0 last := by
      rw [kept]
      exact .none followed (opened ▸ pi)
    simpa using takes 0 none

/-! ## Matches that are accepted -/

section Accepted

variable {fuel : Nat} {self : Ref → CheckerM (Option Ref)}

/-- The cases are checked one after the other. -/
theorem checkCases_append (front rest : List Ref) (mtp : Option Ref) :
    checkCases fuel self (front ++ rest) mtp =
      checkCases fuel self front mtp >>= checkCases fuel self rest := by
  induction front generalizing mtp with
  | nil => simp [checkCases]
  | cons case front hyp =>
      simp only [List.cons_append, checkCases, bind_assoc]
      congr 1
      funext type
      cases mtp with
      | none => exact hyp type
      | some mtp =>
          simp only [bind_assoc]
          congr 1
          funext last
          congr 1
          funext equal
          split
          · simp only [bind_assoc, hyp]
          · exact hyp (some mtp)

/-- A `match` that is accepted: the type of its scrutinee, and a case with the state in which it is
checked. -/
def CheckedCase (fuel : Nat) (self : Ref → CheckerM (Option Ref)) (checker : Checker)
    (e tp case : Ref) (state : Checker) : Prop :=
  (∃ type after, (checkMatch fuel self e).run checker = .ok (type, after)) ∧
    ∃ scrutinee middle, ∃ proper : Checker, ∃ front rest, ∃ mtp : Option Ref,
      (liftM (kid e 0) : CheckerM Ref).run checker = .ok (scrutinee, checker) ∧
      (self scrutinee).run checker = .ok (some tp, middle) ∧
      (checkProper fuel tp "The match scrutinee's type is neither proper, nor a datatype").run
        middle = .ok ((), proper) ∧
      (kidsAt proper.store.heap e).drop 1 = front ++ case :: rest ∧
      (checkCases fuel self front none).run proper = .ok (mtp, state)

/-- The case of an accepted `match` is accepted. -/
theorem CheckedCase.accepted {checker state : Checker} {e tp case : Ref}
    (checked : CheckedCase fuel self checker e tp case state) :
    ∃ type after, (checkCase self case).run state = .ok (type, after) := by
  obtain ⟨⟨type, after, run⟩, scrutinee, middle, proper, front, rest, mtp, first, typed, shape,
    cases_,
    state_run⟩ := checked
  have read : (liftM getHeap : CheckerM (List Node)).run proper = .ok (proper.store.heap, proper) :=
    rfl
  rw [checkMatch, run_bind_of_ok first, run_bind_of_ok typed,
    run_bind_of_ok (run_deref_ok.mpr ⟨rfl, rfl⟩), run_bind_of_ok shape, run_bind_of_ok read, cases_,
    checkCases_append, run_bind_of_ok state_run, checkCases, run_bind_ok] at run
  obtain ⟨after, type, accepted, -⟩ := run
  exact ⟨type, after, accepted⟩

theorem CheckedCase.symbols (kept : ∀ r, Keeps (Scoped False) (self r)) {checker state : Checker}
    {e tp case : Ref} (checked : CheckedCase fuel self checker e tp case state) :
    state.symbols = checker.symbols := by
  obtain ⟨-, scrutinee, middle, proper, front, rest, mtp, -, typed, shape, -, run⟩ := checked
  obtain ⟨events, scopes, none⟩ := (kept scrutinee _ _ _ typed).trans
    ((keeps_checkProper fuel tp _ _ _ _ shape).trans (keeps_checkCases kept front none _ _ _ run))
  funext name
  obtain rfl := none not_false
  exact scopes.symbols name (by simp)

/-- The children of an object that is no application stay, but for the first one. -/
theorem Writes.kids_drop {before after : Store} (writes : Writes before after) {r : Ref} {op : Op}
    (found : Lfsc.opOf before.heap r = some op) (other : op ≠ .app) :
    (kidsAt after.heap r).drop 1 = (kidsAt before.heap r).drop 1 := by
  induction writes with
  | refl => rfl
  | tail earlier write hyp =>
      rw [← hyp]
      have opened := Writes.opOf earlier found
      cases write with
      | new solid => simp [kidsAt, List.getElem?_append_left (lt_length_of_opOf opened)]
      | @put target old node loaded overwrites =>
          by_cases same : target = r
          · subst same
            have bound := (List.getElem?_eq_some_iff.mp loaded).1
            cases overwrites with
            | cexpr op' kids kids' flag flag' fixed =>
                obtain rfl : op' = op := Option.some.inj ((opOf_of_load loaded).symm.trans opened)
                simp [kidsAt, List.getElem?_set_self bound, loaded, fixed other]
            | sym => simp [Lfsc.opOf, loaded] at opened
            | hole => simp [Lfsc.opOf, loaded] at opened
            | int => simp [Lfsc.opOf, loaded] at opened
            | rat => simp [Lfsc.opOf, loaded] at opened
          · simp [kidsAt, List.getElem?_set_ne same]
      | ask => rfl

/-- Every case of an accepted `match` is checked in some state. -/
theorem exists_checkedCase (kept : ∀ r, Keeps Plain (self r)) {checker after : Checker} {e : Ref}
    {type : Option Ref} (isMatch : opOf checker.store.heap e = some .match_)
    (run : (checkMatch fuel self e).run checker = .ok (type, after)) :
    ∃ tp, ∀ case ∈ (kidsAt checker.store.heap e).drop 1, ∃ state,
      CheckedCase fuel self checker e tp case state := by
  have accepted : ∃ type after, (checkMatch fuel self e).run checker = .ok (type, after) :=
    ⟨type, after, run⟩
  simp only [checkMatch, run_bind_ok] at run
  obtain ⟨_, scrutinee, first, middle, tp, typed, _, tp', found, proper, _, shape, _, heap, read,
    run⟩ := run
  obtain ⟨rfl, rfl⟩ := run_deref_ok.mp found
  obtain ⟨_, inner, rfl⟩ := run_onStore_ok.mp read
  obtain ⟨rfl, rfl⟩ := run_getHeap_ok.mp inner
  obtain ⟨_, inner, rfl⟩ := run_onStore_ok.mp first
  obtain ⟨child, rfl⟩ := run_kid_ok.mp inner
  have plain : Plain checker proper :=
    IsTrans.trans _ _ _ (kept scrutinee _ _ _ typed)
      (keeps_tables_checkProper fuel tp' _ _ _ _ shape)
  have same := Writes.kids_drop plain.writes isMatch (by decide)
  refine ⟨tp', fun case member => ?_⟩
  obtain ⟨front, rest, split⟩ := List.append_of_mem member
  rw [← same] at split
  change (checkCases fuel self ((kidsAt proper.store.heap e).drop 1) none).run proper = _ at run
  rw [split, checkCases_append, run_bind_ok] at run
  obtain ⟨state, mtp, frontRun, -⟩ := run
  exact ⟨state, accepted, scrutinee, middle, proper, front, rest, mtp, first, typed, shape, split,
    frontRun⟩

end Accepted

/-! ## Runs of a match -/

/-- The case that fires for the head of a scrutinee, with its pattern. -/
inductive Selects (store : Store) (head : Ref) : List Ref → Ref → Ref → Prop
  | here {case pat : Ref} {rest : List Ref} (op : opOf store.heap case = some .case_)
      (first : (kid case 0).run store = .ok (pat, store))
      (fires : (getHead pat true).run store = .ok (head, store)) :
      Selects store head (case :: rest) case pat
  | later {other pat' other' case pat : Ref} {rest : List Ref}
      (op : opOf store.heap other = some .case_)
      (first : (kid other 0).run store = .ok (pat', store))
      (passes : (getHead pat' true).run store = .ok (other', store)) (apart : head ≠ other')
      (selects : Selects store head rest case pat) : Selects store head (other :: rest) case pat

/-- The scrutinee of a `match` is run and reduced, and a case fires for its head. -/
def Fires (fuel : Nat) (self : Ref → RunM (Option Ref)) (e : Ref) (before : Runtime)
    (case pat : Ref)
    (args : List Ref) (state : Runtime) : Prop :=
  ∃ scrutinee value reduct head, ∃ middle : Runtime, ∃ store : Store,
    (kid e 0).run before.store = .ok (scrutinee, before.store) ∧
    (self scrutinee).run before = .ok (some value, middle) ∧
    (reduceScrutinee fuel value).run middle.store = .ok (reduct, store) ∧
    (collectArgs reduct true).run store = .ok ((head, args), store) ∧
    state = { middle with store } ∧
    Selects store head ((kidsAt store.heap e).drop 1) case pat

theorem Selects.run {self : Ref → RunM (Option Ref)} {head case pat : Ref} {args cases : List Ref}
    {state : Runtime} (selects : Selects state.store head cases case pat) :
    (runCases self head args cases).run state = (runCase self args case pat).run state := by
  have opened : ∀ {case : Ref}, opOf state.store.heap case = some .case_ →
      (liftM (getop case) : RunM (Option Op)).run state = .ok (some .case_, state) := fun op =>
    run_lift_ok.mpr ⟨_, run_getop_ok.mpr ⟨lt_length_of_opOf op, op, rfl⟩, rfl⟩
  have lifted : ∀ {α : Type} {m : StoreM α} {value : α},
      m.run state.store = .ok (value, state.store) → (liftM m : RunM α).run state =
        .ok (value, state) :=
    fun run => run_lift_ok.mpr ⟨_, run, rfl⟩
  induction selects with
  | here op first fires =>
      rw [runCases, run_bind_of_ok (opened op), if_neg (not_not.mpr rfl),
        run_bind_of_ok (lifted first), run_bind_of_ok (lifted fires), if_pos rfl]
  | later op first passes apart _ hyp =>
      rw [runCases, run_bind_of_ok (opened op), if_neg (not_not.mpr rfl),
        run_bind_of_ok (lifted first), run_bind_of_ok (lifted passes), if_neg apart]
      exact hyp

/-- A `match` runs the case that fires. -/
theorem Fires.run {fuel : Nat} {self : Ref → RunM (Option Ref)} {e case pat : Ref}
    {before state : Runtime} {args : List Ref}
    (fires : Fires fuel self e before case pat args state) :
    (runMatch fuel self e).run before = (runCase self args case pat).run state := by
  obtain ⟨scrutinee, value, reduct, head, middle, store, first, evaluated, reduced, collected, rfl,
    selects⟩ := fires
  rw [runMatch, run_bind_of_ok (run_lift_ok.mpr ⟨_, first, rfl⟩), run_bind_of_ok evaluated]
  simp only
  rw [run_bind_of_ok (run_lift_ok.mpr ⟨_, reduced, rfl⟩),
    run_bind_of_ok (run_lift_ok.mpr ⟨_, collected, rfl⟩)]
  exact selects.run

/-! ## Variables and arguments -/

/-- A constructor applied to arguments is a value of a type. -/
def ValueOf (symbols : SymbolTable) (heap : List Node) (ctor : Ref) (args : List Ref) (tp : Ref) :
    Prop :=
  ∃ type result count, CtorType symbols heap ctor type ∧ AppType heap type args result ∧
    Takes heap count result ∧ Takes heap count tp

/-- Where a pattern has variables the values of a type take no arguments.  A constructor that stands
alone takes as many arguments as they do. -/
def PatternFits (symbols : SymbolTable) (heap : List Node) (ctor : Ref) (vars : List Ref)
    (tp : Ref) :
    Prop :=
  if vars = [] then ∃ type count, CtorType symbols heap ctor type ∧ Takes heap count type ∧
    Takes heap count tp
  else Takes heap 0 tp

theorem CtorType.unique {symbols : SymbolTable} {heap : List Node} {ctor type type' : Ref}
    (typed : CtorType symbols heap ctor type) (typed' : CtorType symbols heap ctor type') :
    type = type' := by
  obtain ⟨name, loaded, found⟩ := typed
  obtain ⟨name', loaded', found'⟩ := typed'
  rw [loaded] at loaded'
  cases loaded'
  exact Option.some.inj (found.symm.trans found')

/-- A pattern with variables has one for each argument that its constructor takes. -/
theorem CheckedCase.takes {fuel depth : Nat} {checker state : Checker}
    {e tp case pat ctor type : Ref}
    {kids vars : List Ref} {flag : Bool}
    (checked : CheckedCase fuel (checkCode depth) checker e tp case state)
    (loaded : state.store.heap[case]? = some (.cexpr .case_ (pat :: kids) flag))
    (pattern : PatternAt state.store.heap pat ctor vars) (some_ : vars ≠ [])
    (typed : CtorType checker.symbols state.store.heap ctor type) :
    Takes state.store.heap vars.length type := by
  obtain ⟨type', after, run⟩ := checked.accepted
  have op : (liftM (getop case) : CheckerM (Option Op)).run state = .ok (some .case_, state) :=
    run_onStore_ok.mpr ⟨_, run_getop_ok.mpr
      ⟨(List.getElem?_eq_some_iff.mp loaded).1, opOf_of_load loaded, rfl⟩, rfl⟩
  obtain ⟨none, -⟩ | ⟨⟨flag', applied⟩, -⟩ := id pattern
  · exact (some_ none).elim
  · rw [checkCase, run_bind_of_ok op, if_neg (not_not.mpr rfl),
      run_bind_of_ok (run_kid_found loaded rfl), run_bind_of_ok (run_load_found applied)] at run
    obtain ⟨bound, prevs, checking, -⟩ := run_bind_ok.mp run
    rw [← checked.symbols (keeps_checkCode depth)] at typed
    exact takes_of_checkPattern pattern typed checking

/-- The arguments of the scrutinee are as many as the variables of the pattern. -/
def BindsArguments (pat : Ref) (args : List Ref) (runtime : Runtime) : Prop :=
  ∃ head vars, (collectArgs pat true).run runtime.store = .ok ((head, vars), runtime.store) ∧
    vars.length = args.length

theorem Selects.run_getHead {store : Store} {head case pat : Ref} {cases : List Ref}
    (selects : Selects store head cases case pat) :
    (getHead pat true).run store = .ok (head, store) := by
  induction selects with
  | here _ _ fires => exact fires
  | later _ _ _ _ _ hyp => exact hyp

/-- The variables of the pattern of a case that fires. -/
theorem Fires.run_collectArgs {fuel : Nat} {self : Ref → RunM (Option Ref)} {e case pat ctor : Ref}
    {before runtime : Runtime} {args vars : List Ref}
    (fires : Fires fuel self e before case pat args runtime)
    (pattern : PatternAt runtime.store.heap pat ctor vars)
    (symbolic : Symbolic runtime.store.heap ctor) :
    ∃ head, (collectArgs pat true).run runtime.store = .ok ((head, vars), runtime.store) := by
  obtain ⟨scrutinee, value, reduct, head, middle, store, -, -, -, collected, rfl, selects⟩ := fires
  have settled := (run_collectArgs_followed collected).1
  have fired := selects.run_getHead
  simp only [getHead, run_bind_ok, run_getHeap_ok] at fired
  obtain ⟨_, _, ⟨rfl, rfl⟩, fired⟩ := fired
  rw [headWithin_eq] at fired
  obtain ⟨_, op, opRun, fired⟩ := run_bind_ok.mp fired
  obtain ⟨-, opened, rfl⟩ := run_getop_ok.mp opRun
  obtain ⟨rfl, rfl⟩ | ⟨⟨flag, applied⟩, -⟩ := pattern
  · obtain ⟨text, val, loaded⟩ := symbolic
    rw [if_neg (by rw [← opened]; simp [opOf, loaded])] at fired
    obtain ⟨rfl, -⟩ := run_pure_ok.mp fired
    refine ⟨pat, ?_⟩
    obtain rfl : val = none := by simpa [valOf, loaded] using settled
    exact run_collectArgs_at (.inl ⟨rfl, rfl⟩) loaded
  · rw [if_pos (by rw [← opened]; exact opOf_of_load applied),
      run_bind_of_ok (run_kid_ok.mpr ⟨⟨_, _, _, applied, rfl⟩, rfl⟩)] at fired
    obtain ⟨_, last, followRun, -⟩ := run_bind_ok.mp fired
    obtain ⟨followed, rfl⟩ := run_follow_ok.mp followRun
    refine ⟨last, ?_⟩
    rw [collectArgs, run_bind_of_ok (run_load_ok.mpr ⟨applied, rfl⟩)]
    change (do return (← follow ctor, vars) : StoreM (Ref × List Ref)).run store = _
    rw [run_bind_of_ok (run_follow_ok.mpr ⟨followed, rfl⟩)]
    rfl

/-- In an accepted `match`, when a case fires there is a variable for each argument of the scrutinee
exactly if the pattern fits. -/
theorem case_binds_arguments_iff {fuel depth fuel' : Nat} {checker state : Checker}
    {e tp case pat pat' ctor : Ref} {kids vars args : List Ref} {flag : Bool}
    {self : Ref → RunM (Option Ref)} {before runtime : Runtime}
    (checked : CheckedCase fuel (checkCode depth) checker e tp case state)
    (loaded : state.store.heap[case]? = some (.cexpr .case_ (pat :: kids) flag))
    (pattern : PatternAt state.store.heap pat ctor vars)
    (fires : Fires fuel' self e before case pat' args runtime)
    (unchanged : PatternAt runtime.store.heap pat' ctor vars)
    (symbolic : Symbolic runtime.store.heap ctor)
    (typed : ValueOf checker.symbols state.store.heap ctor args tp) :
    BindsArguments pat' args runtime ↔ PatternFits checker.symbols state.store.heap ctor vars
      tp := by
  obtain ⟨head, collected⟩ := fires.run_collectArgs unchanged symbolic
  have lengths : BindsArguments pat' args runtime ↔ vars.length = args.length := by
    constructor
    · rintro ⟨head', vars', again, same⟩
      rw [collected] at again
      cases again
      exact same
    · exact fun same => ⟨head, vars, collected, same⟩
  obtain ⟨type, result, count, ctorType, applies, takes, expected⟩ := typed
  have whole := applies.takes takes
  rw [lengths, PatternFits]
  by_cases none : vars = []
  · subst none
    rw [if_pos rfl, List.length_nil]
    constructor
    · intro same
      rw [← same, Nat.zero_add] at whole
      exact ⟨type, count, ctorType, whole, expected⟩
    · rintro ⟨type', count', ctorType', takes', expected'⟩
      obtain rfl := ctorType.unique ctorType'
      have first := whole.unique takes'
      have second := expected.unique expected'
      omega
  · rw [if_neg none]
    have first := whole.unique (checked.takes loaded pattern none ctorType)
    constructor
    · intro same
      obtain rfl : count = 0 := by omega
      exact expected
    · intro zero
      have second := expected.unique zero
      omega

/-! ## Successors -/

/-- A signature with `nat`, `z` and `s`, the parameter `n` and further objects. -/
def natChecker (param : Option Ref) (objects : List Node) : Checker :=
  let checker := initChecker (fun _ _ => false) fun _ => false
  { checker with
    runtime := { checker.runtime with store := { checker.runtime.store with
      heap := checker.runtime.store.heap ++ [.sym "nat" none, .sym "x" none,
        .cexpr .pi [5, 4, 4] false, .sym "s" none, .sym "z" none, .sym "n" param,
        .sym "m" none] ++ objects } }
    symbols := fun name =>
      if name = "nat" then ⟨some 4, some statType⟩
      else if name = "s" then ⟨some 7, some 6⟩
      else if name = "z" then ⟨some 8, some 4⟩
      else if name = "n" then ⟨some 9, some 4⟩
      else checker.symbols name }

theorem valueOf_successor (param : Option Ref) (objects : List Node) :
    ValueOf (natChecker param objects).symbols (natChecker param objects).store.heap 7 [8] 4 := by
  have nat : Takes (natChecker param objects).store.heap 0 4 := .none rfl (by rintro ⟨⟩)
  exact ⟨6, 4, 0, ⟨"s", rfl, rfl⟩, .cons rfl rfl rfl .nil, nat, nat⟩

/-- `(match n ((s m) m))` on `(s z)`. -/
theorem successor_binds_argument :
    BindsArguments 11 [8]
      (natChecker (some 14) [.cexpr .app [7, 10] false, .cexpr .case_ [11, 10] false,
        .cexpr .match_ [9, 12] false, .cexpr .app [7, 8] false]).runtime := by
  have checked : CheckedCase 3 (checkCode 3)
      (natChecker none [.cexpr .app [7, 10] false, .cexpr .case_ [11, 10] false,
        .cexpr .match_ [9, 12] false]) 13 4 12
      (natChecker none [.cexpr .app [7, 10] false, .cexpr .case_ [11, 10] false,
        .cexpr .match_ [9, 12] false]) :=
    ⟨exists_of_isOk (by decide +kernel), 9, _, _, [], [], none, rfl, rfl, rfl, rfl, rfl⟩
  have fires : Fires 3 (runCodeInternal 3 · false) 13
      (natChecker (some 14) [.cexpr .app [7, 10] false, .cexpr .case_ [11, 10] false,
        .cexpr .match_ [9, 12] false, .cexpr .app [7, 8] false]).runtime 12 11 [8]
      (natChecker (some 14) [.cexpr .app [7, 10] false, .cexpr .case_ [11, 10] false,
        .cexpr .match_ [9, 12] false, .cexpr .app [7, 8] false]).runtime :=
    ⟨9, 14, 14, 7, _, _, rfl, rfl, rfl, rfl, rfl, .here rfl rfl rfl⟩
  have symbolic : ∀ var ∈ [10], Symbolic (natChecker none [.cexpr .app [7, 10] false,
      .cexpr .case_ [11, 10] false, .cexpr .match_ [9, 12] false]).store.heap var := by
    intro var member
    obtain rfl := List.mem_singleton.mp member
    exact ⟨"m", none, rfl⟩
  refine (case_binds_arguments_iff checked rfl (.inr ⟨⟨false, rfl⟩, symbolic⟩) fires
    (.inr ⟨⟨false, rfl⟩, ?_⟩) ⟨"s", none, rfl⟩ (valueOf_successor none _)).mpr ?_
  · intro var member
    obtain rfl := List.mem_singleton.mp member
    exact ⟨"m", none, rfl⟩
  · rw [PatternFits, if_neg (by simp)]
    exact .none rfl (by rintro ⟨⟩)

/-- `(match n (s n))` on `(s z)`: the constructor stands alone, and no variable is there for the
argument. -/
theorem bare_successor_binds_nothing :
    ¬ ∀ (fuel depth fuel' : Nat) (checker state : Checker) (e tp case pat pat' ctor : Ref)
      (kids vars args : List Ref) (flag : Bool) (self : Ref → RunM (Option Ref))
      (before runtime : Runtime), CheckedCase fuel (checkCode depth) checker e tp case state →
      state.store.heap[case]? = some (.cexpr .case_ (pat :: kids) flag) →
      PatternAt state.store.heap pat ctor vars →
      Fires fuel' self e before case pat' args runtime →
      PatternAt runtime.store.heap pat' ctor vars → Symbolic runtime.store.heap ctor →
      ValueOf checker.symbols state.store.heap ctor args tp →
      BindsArguments pat' args runtime := by
  intro claim
  have checked : CheckedCase 3 (checkCode 3)
      (natChecker none [.cexpr .case_ [7, 9] false, .cexpr .match_ [9, 11] false]) 12 4 11
      (natChecker none [.cexpr .case_ [7, 9] false, .cexpr .match_ [9, 11] false]) := by
    refine ⟨exists_of_isOk (by decide +kernel), 9, _, _, [], [], none, rfl, rfl, rfl, rfl, rfl⟩
  have fires : Fires 3 (runCodeInternal 3 · false) 12
      (natChecker (some 13) [.cexpr .case_ [7, 9] false, .cexpr .match_ [9, 11] false,
        .cexpr .app [7, 8] false]).runtime 11 7 [8]
      (natChecker (some 13) [.cexpr .case_ [7, 9] false, .cexpr .match_ [9, 11] false,
        .cexpr .app [7, 8] false]).runtime := by
    refine ⟨9, 13, 13, 7, _, _, rfl, rfl, rfl, rfl, rfl, .here rfl rfl rfl⟩
  obtain ⟨head, vars, collected, same⟩ := claim _ _ _ _ _ _ _ _ _ _ _ _ _ _ _ _ _ _ checked rfl
    (.inl ⟨rfl, rfl⟩) fires (.inl ⟨rfl, rfl⟩) ⟨"s", none, rfl⟩ (valueOf_successor none _)
  cases collected
  cases same

end Lfsc
