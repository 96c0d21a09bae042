import Lfsc.SideCondition.Constructs

/-!
# Matching

The cases of a `match` are tried in order; the first one whose constructor is the head of the
scrutinee fires, with the variables of its pattern assigned to the arguments.
-/

namespace Lfsc

open Exec

section Matching

variable {sig : Signature} {order : Ref → Ref → Bool} {env : Env} {scope : List Ref}
  {start : Runtime}

/-- A constructor at the head of a value is applied to all its arguments. -/
theorem Val.Saturated.spine_length {value : Val} (saturated : value.Saturated sig) {name : Ref}
    {arity : Nat} (headed : value.spine.1 = .sym name) (role : sig name = .constructor arity) :
    arity ≤ value.spine.2.length := by
  cases saturated with
  | sym role' =>
      obtain rfl : _ = name := by simpa [Val.spine] using headed
      rw [role] at role'
      cases role'
      exact Nat.zero_le _
  | int | rat => simp [Val.spine] at headed
  | apply role' enough =>
      obtain rfl : _ = name := by simpa [Val.spine] using headed
      rw [role] at role'
      cases role'
      exact enough
  | nested inner =>
      obtain rfl : _ = Val.sym name := headed
      cases inner with
      | sym role' =>
          rw [role] at role'
          cases role'
          exact Nat.zero_le _

theorem Val.Saturated.spine_each {value : Val} (saturated : value.Saturated sig) :
    ∀ arg ∈ value.spine.2, arg.Saturated sig := by
  cases saturated with
  | sym | int | rat => simp [Val.spine]
  | apply _ _ each | nested _ each => exact each

/-- The head and the arguments of a value. -/
theorem run_collectArgs_value {r head : Ref} {args : List Ref} {value : Val} {before after : Store}
    (represented : Represents sig before.heap r value)
    (run : (collectArgs r true).run before = .ok ((head, args), after)) :
    before = after ∧ Represents sig before.heap head value.spine.1 ∧
      List.Forall₂ (Represents sig before.heap) args value.spine.2 := by
  obtain ⟨_, node, loadRun, rest⟩ := run_bind_ok.mp run
  obtain ⟨found, rfl⟩ := run_load_ok.mp loadRun
  cases id represented with
  | sym _ loaded | int loaded | rat loaded =>
      rw [loaded] at found
      cases found
      obtain ⟨_, _, pairRun, rest⟩ := run_bind_ok.mp rest
      obtain ⟨rfl, rfl⟩ := run_pure_ok.mp pairRun
      obtain ⟨_, last, followRun, rest⟩ := run_bind_ok.mp rest
      obtain ⟨rfl, rfl⟩ := run_follow_value represented followRun
      obtain ⟨pair, rfl⟩ := run_pure_ok.mp rest
      cases pair
      exact ⟨rfl, represented, .nil⟩
  | app loaded headed length each =>
      rw [loaded] at found
      cases found
      obtain ⟨_, first, derefRun, rest⟩ := run_bind_ok.mp rest
      obtain ⟨here, rfl⟩ := run_deref_ok.mp derefRun
      obtain ⟨_, _, pairRun, rest⟩ := run_bind_ok.mp rest
      obtain ⟨rfl, rfl⟩ := run_pure_ok.mp pairRun
      obtain rfl : _ = first := by simpa using here
      obtain ⟨_, last, followRun, rest⟩ := run_bind_ok.mp rest
      obtain ⟨rfl, rfl⟩ := run_follow_value headed followRun
      obtain ⟨pair, rfl⟩ := run_pure_ok.mp rest
      cases pair
      exact ⟨rfl, headed, represents_each.mpr ⟨length, each⟩⟩

theorem run_reduceScrutinee_value {fuel : Nat} {r reduct : Ref} {value : Val} {before after : Store}
    (represented : Represents sig before.heap r value)
    (run : (reduceScrutinee fuel r).run before = .ok (reduct, after)) :
    reduct = r ∧ before = after := by
  obtain ⟨_, node, loadRun, rest⟩ := run_bind_ok.mp run
  obtain ⟨found, rfl⟩ := run_load_ok.mp loadRun
  cases node with
  | cexpr => exact run_whr_value represented rest
  | _ =>
      obtain ⟨rfl, rfl⟩ := run_pure_ok.mp rest
      exact ⟨rfl, rfl⟩

/-- The symbol of a constructor that code mentions has no `val`. -/
theorem Named.valOf_eq {heap : List Node} {name : Ref} {arity : Nat} (named : Named sig heap name)
    (role : sig name = .constructor arity) : valOf heap name = none := by
  obtain ⟨text, val, loaded, fixed⟩ := named
  rw [valOf, loaded, fixed arity role]

theorem run_follow_settled {r last : Ref} {before after : Store}
    (settled : valOf before.heap r = none)
    (run : (follow r).run before = .ok (last, after)) : last = r ∧ before = after := by
  obtain ⟨followed, rfl⟩ := run_follow_ok.mp run
  rw [followDefs, followFor, settled] at followed
  exact ⟨(Option.some.inj followed).symm, rfl⟩

/-- The constructor of a pattern. -/
theorem run_getHead_pattern {pat name last : Ref} {vars : List Ref} {before after : Store}
    (symbolic : Symbolic before.heap name) (settled : valOf before.heap name = none)
    (pattern : PatternAt before.heap pat name vars)
    (run : (getHead pat true).run before = .ok (last, after)) : last = name ∧ before = after := by
  obtain ⟨_, heap, heapRun, rest⟩ := run_bind_ok.mp run
  obtain ⟨rfl, rfl⟩ := run_getHeap_ok.mp heapRun
  obtain ⟨text, val, symLoaded⟩ := symbolic
  have leaf : ∀ steps, (headWithin true steps name).run before = .ok (last, after) →
      last = name ∧ before = after := by
    intro steps rest
    rw [headWithin_eq] at rest
    obtain ⟨_, op, opRun, rest⟩ := run_bind_ok.mp rest
    obtain ⟨-, rfl, rfl⟩ := run_getop_ok.mp opRun
    rw [if_neg (by simp [opOf, symLoaded])] at rest
    obtain ⟨rfl, rfl⟩ := run_pure_ok.mp rest
    exact ⟨rfl, rfl⟩
  obtain ⟨-, rfl⟩ | ⟨⟨flag, loaded⟩, -⟩ := pattern
  · exact leaf _ rest
  · rw [headWithin_eq] at rest
    obtain ⟨_, op, opRun, rest⟩ := run_bind_ok.mp rest
    obtain ⟨-, rfl, rfl⟩ := run_getop_ok.mp opRun
    rw [if_pos (by simp [opOf, loaded])] at rest
    obtain ⟨_, first, kidRun, rest⟩ := run_bind_ok.mp rest
    obtain ⟨⟨_, _, _, again, found⟩, rfl⟩ := run_kid_ok.mp kidRun
    rw [loaded] at again
    cases again
    obtain rfl : name = first := by simpa using found
    obtain ⟨_, next, followRun, rest⟩ := run_bind_ok.mp rest
    obtain ⟨rfl, rfl⟩ := run_follow_settled settled followRun
    cases length : before.heap.length with
    | zero =>
        simp only [length] at rest
        exact (run_stop_ok.mp rest).elim
    | succ steps =>
        simp only [length] at rest
        exact leaf steps rest

/-- The variables of a pattern. -/
theorem run_collectArgs_pattern {pat name head : Ref} {vars args : List Ref} {before after : Store}
    (symbolic : Symbolic before.heap name) (settled : valOf before.heap name = none)
    (pattern : PatternAt before.heap pat name vars)
    (run : (collectArgs pat true).run before = .ok ((head, args), after)) :
    args = vars ∧ before = after := by
  obtain ⟨_, node, loadRun, rest⟩ := run_bind_ok.mp run
  obtain ⟨found, rfl⟩ := run_load_ok.mp loadRun
  obtain ⟨text, val, symLoaded⟩ := symbolic
  obtain ⟨rfl, rfl⟩ | ⟨⟨flag, loaded⟩, -⟩ := pattern
  · rw [symLoaded] at found
    cases found
    obtain ⟨_, _, pairRun, rest⟩ := run_bind_ok.mp rest
    obtain ⟨rfl, rfl⟩ := run_pure_ok.mp pairRun
    obtain ⟨_, last, followRun, rest⟩ := run_bind_ok.mp rest
    obtain ⟨rfl, rfl⟩ := run_follow_settled settled followRun
    obtain ⟨pair, rfl⟩ := run_pure_ok.mp rest
    cases pair
    exact ⟨rfl, rfl⟩
  · rw [loaded] at found
    cases found
    obtain ⟨_, first, derefRun, rest⟩ := run_bind_ok.mp rest
    obtain ⟨here, rfl⟩ := run_deref_ok.mp derefRun
    obtain ⟨_, _, pairRun, rest⟩ := run_bind_ok.mp rest
    obtain ⟨rfl, rfl⟩ := run_pure_ok.mp pairRun
    obtain rfl : name = first := by simpa using here
    obtain ⟨_, last, followRun, rest⟩ := run_bind_ok.mp rest
    obtain ⟨rfl, rfl⟩ := run_follow_settled settled followRun
    obtain ⟨pair, rfl⟩ := run_pure_ok.mp rest
    cases pair
    exact ⟨rfl, rfl⟩

variable {self : Ref → RunM (Option Ref)} {spec : Env → Code → EvalM (Option Val)}
  (computes : Computes sig order self spec)

include computes

/-- The body of a case that fires. -/
theorem matches_runCase (ready : Ready sig order env scope start) {case body pat name : Ref}
    {flag : Bool} {vars args : List Ref} {values : List Val} {code : Code}
    (loaded : start.store.heap[case]? = some (.cexpr .case_ [pat, body] flag))
    (named : Named sig start.store.heap name) (pattern : PatternAt start.store.heap pat name vars)
    (applied : (Pattern.ctor name vars).FullyApplied sig) (length : vars.length = args.length)
    (held : List.Forall₂ (Held sig start.store.heap) args values)
    (encoded : Encodes sig start.store.heap body code)
    (ordered : FirstOrder sig (vars ++ scope) code) :
    Matches sig (Answers sig) start (runCase self args case pat)
      (spec (env.bind (vars.zip values)) code) := by
  obtain ⟨role, distinct, roles⟩ := applied
  obtain ⟨text, val, symLoaded, -⟩ := id named
  refine matches_read fun parts store run => ?_
  obtain ⟨head, found⟩ := parts
  obtain ⟨rfl, rfl⟩ :=
    run_collectArgs_pattern ⟨text, val, symLoaded⟩ (named.valOf_eq role) pattern run
  refine ⟨rfl, ?_⟩
  simp only [length, Nat.lt_irrefl, if_false]
  intro result final run
  obtain ⟨_, prevs, assignRun, rest⟩ := run_bind_ok.mp run
  obtain ⟨store, assigning, rfl⟩ := run_lift_ok.mp assignRun
  obtain ⟨_, body', kidRun, rest⟩ := run_bind_ok.mp rest
  obtain ⟨_, kidRead, rfl⟩ := run_lift_ok.mp kidRun
  obtain ⟨⟨_, _, _, again, found⟩, rfl⟩ := run_kid_ok.mp kidRead
  obtain ⟨last, result', bodyRun, rest⟩ := run_bind_ok.mp rest
  obtain ⟨_, _, restoreRun, rest⟩ := run_bind_ok.mp rest
  obtain ⟨restored, restoring, rfl⟩ := run_lift_ok.mp restoreRun
  obtain ⟨rfl, rfl⟩ := run_pure_ok.mp rest
  have evolved := (ready.assigns roles distinct length held assigning).1
  rw [evolved.cexprs _ _ _ _ (by simp) loaded] at again
  cases again
  obtain rfl : body = body' := by simpa using found
  obtain ⟨answer, evalRun, kept, answers⟩ := activation computes ready roles distinct length held
    assigning (evolved.encodes _ _ encoded) ordered bodyRun restoring
  exact ⟨answer, evalRun, kept, answers⟩

omit computes in
/-- A constructor at the head of a value is the symbol of a pattern or not. -/
theorem represents_symbol_iff {heap : List Node} {head name : Ref} {value : Val}
    (represented : Represents sig heap head value) (symbolic : Symbolic heap name) :
    head = name ↔ value = .sym name := by
  constructor
  · rintro rfl
    obtain ⟨text, val, loaded⟩ := symbolic
    cases represented with
    | sym => rfl
    | int loaded' | rat loaded' | app loaded' => simp [loaded] at loaded'
  · rintro rfl
    exact (represents_sym_iff.mp represented).1

/-- The first case that matches fires. -/
theorem matches_runCases (ready : Ready sig order env scope start) {head : Ref}
    {args cases : List Ref}
    {value : Val} {branches : List (Pattern × Code)} (saturated : value.Saturated sig)
    (headed : Represents sig start.store.heap head value.spine.1)
    (held : List.Forall₂ (Held sig start.store.heap) args value.spine.2)
    (encoded : List.Forall₂ (fun case branch => ∃ body,
      BranchAt sig start.store.heap case body branch.1 ∧
        Encodes sig start.store.heap body branch.2) cases branches)
    (patterns : ∀ branch ∈ branches, branch.1.FullyApplied sig)
    (ordered : ∀ branch ∈ branches, FirstOrder sig (branch.1.vars ++ scope) branch.2) :
    Matches sig (Answers sig) start (runCases self head args cases)
      (evalBranches spec env value branches) := by
  induction encoded with
  | nil => exact refines_pure .fails
  | @cons case branch cases branches here _ hyp =>
      obtain ⟨pattern, code⟩ := branch
      obtain ⟨body, branchAt, bodyEncoded⟩ := here
      rw [List.forall_mem_cons] at patterns ordered
      rw [runCases, evalBranches]
      refine matches_read fun op store run => ?_
      obtain ⟨-, rfl, rfl⟩ := run_getop_ok.mp run
      refine ⟨rfl, ?_⟩
      cases pattern with
      | default =>
          obtain rfl : case = body := branchAt
          rw [if_pos bodyEncoded.not_case]
          exact computes _ _ _ _ _ ready bodyEncoded ordered.1
      | ctor name vars =>
          obtain ⟨pat, flag, loaded, named, pattern⟩ := branchAt
          obtain ⟨text, val, symLoaded, -⟩ := id named
          obtain ⟨role, -, -⟩ := id patterns.1
          rw [if_neg (by simp [opOf, loaded])]
          refine matches_kid loaded rfl (matches_read fun last store run => ?_)
          obtain ⟨rfl, rfl⟩ :=
            run_getHead_pattern ⟨text, val, symLoaded⟩ (named.valOf_eq role) pattern run
          refine ⟨rfl, ?_⟩
          rw [Pattern.matches]
          by_cases fires : value.spine.1 = .sym last
          · rw [if_pos ((represents_symbol_iff headed ⟨text, val, symLoaded⟩).mpr fires)]
            have enough := saturated.spine_length fires role
            by_cases length : value.spine.2.length = vars.length
            · rw [if_pos ⟨fires, length⟩]
              exact matches_runCase computes ready loaded named pattern patterns.1
                (length.symm.trans held.length_eq.symm) held bodyEncoded ordered.1
            · refine matches_read fun parts store run => ?_
              obtain ⟨head', vars'⟩ := parts
              obtain ⟨rfl, rfl⟩ :=
                run_collectArgs_pattern ⟨text, val, symLoaded⟩ (named.valOf_eq role) pattern run
              have more := held.length_eq
              have short : vars'.length < args.length := by
                rw [more]
                exact Nat.lt_of_le_of_ne enough (Ne.symm length)
              refine ⟨rfl, ?_⟩
              simp only
              rw [if_pos short]
              exact refines_stop
          · rw [if_neg (mt (represents_symbol_iff headed ⟨text, val, symLoaded⟩).mp fires),
              if_neg (fun both => fires both.1)]
            exact hyp patterns.2 ordered.2

theorem matches_runMatch (ready : Ready sig order env scope start) {fuel : Nat} {e : Ref}
    {scrutinee : Code} {branches : List (Pattern × Code)}
    (encoded : Encodes sig start.store.heap e (.match_ scrutinee branches))
    (ordered : FirstOrder sig scope (.match_ scrutinee branches)) :
    Matches sig (Answers sig) start (runMatch fuel self e) (do
      match ← spec env scrutinee with
      | none => return none
      | some value => evalBranches spec env value branches) := by
  cases ordered with
  | match_ scrutineeOrder patterns each =>
  cases id encoded with
  | match_ loaded first _ _ _ _ =>
      refine matches_kid loaded rfl
        (refines_bind (computes _ _ _ _ _ ready first scrutineeOrder) ?_)
      intro middle value answer settled answers
      cases answers with
      | fails => exact refines_pure .fails
      | returns held =>
          refine matches_read fun reduct store run => ?_
          obtain ⟨rfl, rfl⟩ := run_reduceScrutinee_value held.1 run
          refine ⟨rfl, matches_read fun parts store run => ?_⟩
          obtain ⟨head, args⟩ := parts
          obtain ⟨rfl, headed, all⟩ := run_collectArgs_value held.1 run
          refine ⟨rfl, matches_read fun heap store run => ?_⟩
          obtain ⟨rfl, rfl⟩ := run_getHeap_ok.mp run
          refine ⟨rfl, ?_⟩
          cases settled.retains.encodes _ _ encoded with
          | @match_ _ _ cases _ _ _ _ loaded' _ length length' patternsAt bodies =>
              have found : (kidsAt middle.store.heap e).drop 1 = cases := by
                rw [kidsAt, loaded', List.drop_one, List.tail_cons]
              rw [found]
              have heldAll := forall₂_imp_mem all fun _ arg member represented =>
                (⟨represented, held.2.spine_each arg member⟩ : Held sig middle.store.heap _ arg)
              exact matches_runCases computes (ready.settles settled) held.2 headed heldAll
                (encodes_branches length length' patternsAt bodies) patterns each

end Matching

end Lfsc
