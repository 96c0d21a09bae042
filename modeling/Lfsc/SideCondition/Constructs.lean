import Lfsc.SideCondition.Activation

/-!
# Constructs of side conditions

Each construct of `run_code_internal`, over an interpreter for its parts that matches an evaluator,
matches the construct of the evaluator.
-/

namespace Lfsc

open Exec

/-! ## Operations on values -/

section Values

variable {sig : Signature} {start : Runtime}

theorem retains_new {store after : Store} {node : Node} {r : Ref}
    (plain : valOf [node] 0 = none) (run : (new node).run store = .ok (r, after)) :
    Retains sig store after ∧ after.heap[r]? = some node := by
  obtain ⟨rfl, rfl⟩ := run_new_ok.mp run
  refine ⟨⟨(rearranges_append store.heap [node]).evolves rfl, ?_⟩, by simp⟩
  funext other
  by_cases old : other < store.heap.length
  · exact valOf_append old
  · have outside : valOf store.heap other = none := by
      rw [valOf, List.getElem?_eq_none (Nat.not_lt.mp old)]
    rw [outside, valOf, List.getElem?_append_right (Nat.not_lt.mp old)]
    cases index : other - store.heap.length with
    | zero => exact plain
    | succ index => simp

/-- A numeral is allocated. -/
theorem run_newNumeral {store after : Store} {node : Node} {value : Val} {result : Option Ref}
    (represents : ∀ {heap : List Node} {r : Ref},
      heap[r]? = some node → Represents sig heap r value)
    (saturated : value.Saturated sig) (plain : valOf [node] 0 = none)
    (run : (some <$> new node).run store = .ok (result, after)) :
    Retains sig store after ∧ Answers sig after.heap result (some value) := by
  rw [map_eq_pure_bind] at run
  obtain ⟨_, r, newRun, rest⟩ := run_bind_ok.mp run
  obtain ⟨rfl, rfl⟩ := run_pure_ok.mp rest
  obtain ⟨kept, loaded⟩ := retains_new plain newRun
  exact ⟨kept, .returns ⟨represents loaded, saturated⟩⟩

theorem run_newInt {store after : Store} {value : Int} {result : Option Ref}
    (run : (some <$> new (.int value)).run store = .ok (result, after)) :
    Retains sig store after ∧ Answers sig after.heap result (some (.int value)) :=
  run_newNumeral .int (.int value) rfl run

theorem run_newRat {store after : Store} {value : Rat} {result : Option Ref}
    (run : (some <$> new (.rat value)).run store = .ok (result, after)) :
    Retains sig store after ∧ Answers sig after.heap result (some (.rat value)) :=
  run_newNumeral .rat (.rat value) rfl run

/-- Failure changes nothing. -/
theorem run_fails {store after : Store} {result : Option Ref}
    (run : (pure none : StoreM (Option Ref)).run store = .ok (result, after)) :
    Retains sig store after ∧ Answers sig after.heap result none := by
  obtain ⟨rfl, rfl⟩ := run_pure_ok.mp run
  exact ⟨Std.Refl.refl store, .fails⟩

theorem run_arithmetic_value {op : Op} {r r' : Ref} {left right : Val} {store after : Store}
    {result : Option Ref} (first : Represents sig store.heap r left)
    (second : Represents sig store.heap r' right)
    (run : (arithmetic op r r').run store = .ok (result, after)) :
    Retains sig store after ∧ Answers sig after.heap result (left.arith op right) := by
  obtain ⟨_, node, loadRun, rest⟩ := run_bind_ok.mp run
  obtain ⟨found, rfl⟩ := run_load_ok.mp loadRun
  obtain ⟨_, node', loadRun', rest⟩ := run_bind_ok.mp rest
  obtain ⟨found', rfl⟩ := run_load_ok.mp loadRun'
  cases first with
  | int loaded =>
      rw [loaded] at found
      cases found
      cases second with
      | int loaded' =>
          rw [loaded'] at found'
          cases found'
          rw [Val.arith]
          cases value : intArith op _ _ with
          | none => exact run_fails (by simpa [value] using rest)
          | some value' => exact run_newInt (by simpa [value] using rest)
      | sym _ loaded' | rat loaded' | app loaded' =>
          rw [loaded'] at found'
          cases found'
          exact run_fails rest
  | rat loaded =>
      rw [loaded] at found
      cases found
      cases second with
      | rat loaded' =>
          rw [loaded'] at found'
          cases found'
          rw [Val.arith]
          cases value : ratArith op _ _ with
          | none => exact run_fails (by simpa [value] using rest)
          | some value' => exact run_newRat (by simpa [value] using rest)
      | sym _ loaded' | int loaded' | app loaded' =>
          rw [loaded'] at found'
          cases found'
          exact run_fails rest
  | sym _ loaded | app loaded =>
      rw [loaded] at found
      cases found
      exact run_fails rest

theorem run_negation_value {r : Ref} {value : Val} {store after : Store} {result : Option Ref}
    (represented : Represents sig store.heap r value)
    (run : (negation r).run store = .ok (result, after)) :
    Retains sig store after ∧ Answers sig after.heap result value.neg := by
  obtain ⟨_, node, loadRun, rest⟩ := run_bind_ok.mp run
  obtain ⟨found, rfl⟩ := run_load_ok.mp loadRun
  cases represented with
  | int loaded =>
      rw [loaded] at found
      cases found
      exact run_newInt (by simpa using rest)
  | rat loaded =>
      rw [loaded] at found
      cases found
      exact run_newRat (by simpa using rest)
  | sym _ loaded | app loaded =>
      rw [loaded] at found
      cases found
      exact run_fails rest

theorem run_numeralTest_value {op : Op} {r : Ref} {value : Val} {store after : Store}
    {result : Option Bool} (represented : Represents sig store.heap r value)
    (run : (numeralTest op r).run store = .ok (result, after)) :
    store = after ∧ result = value.test op := by
  obtain ⟨_, node, loadRun, rest⟩ := run_bind_ok.mp run
  obtain ⟨found, rfl⟩ := run_load_ok.mp loadRun
  cases represented with
  | int loaded | rat loaded | sym _ loaded | app loaded =>
      rw [loaded] at found
      cases found
      obtain ⟨rfl, rfl⟩ := run_pure_ok.mp rest
      exact ⟨rfl, rfl⟩

end Values

/-! ## Constructs that bind nothing -/

section Constructs

variable {sig : Signature} {order : Ref → Ref → Bool} {env : Env} {scope : List Ref}
  {start : Runtime} {self : Ref → RunM (Option Ref)} {spec : Env → Code → EvalM (Option Val)}
  (computes : Computes sig order self spec) (ready : Ready sig order env scope start)

include computes ready

theorem matches_runDo {e : Ref} {first second : Code}
    (encoded : Encodes sig start.store.heap e (.do_ first second))
    (ordered : FirstOrder sig scope (.do_ first second)) :
    Matches sig (Answers sig) start (runDo self e) (do
      match ← spec env first with
      | none => return none
      | some _ => spec env second) := by
  cases ordered with
  | do_ leftOrder rightOrder =>
  cases id encoded with
  | do_ loaded left right =>
      refine matches_kid loaded rfl (refines_bind (computes _ _ _ _ _ ready left leftOrder) ?_)
      intro middle value answer settled answers
      cases answers with
      | fails => exact refines_pure .fails
      | returns held =>
          cases settled.retains.encodes _ _ encoded with
          | do_ loaded' left' right' =>
              exact matches_kid loaded' rfl
                (computes _ _ _ _ _ (ready.settles settled) right' rightOrder)

theorem matches_runArith {e : Ref} {op : Op} {left right : Code}
    (encoded : Encodes sig start.store.heap e (.arith op left right))
    (ordered : FirstOrder sig scope (.arith op left right)) :
    Matches sig (Answers sig) start (runArith self op e) (do
      match ← spec env left with
      | none => return none
      | some left =>
          match ← spec env right with
          | none => return none
          | some right => return left.arith op right) := by
  cases ordered with
  | arith leftOrder rightOrder =>
  cases id encoded with
  | arith loaded _ first second =>
      refine matches_kid loaded rfl (refines_bind (computes _ _ _ _ _ ready first leftOrder) ?_)
      intro middle value answer settled answers
      cases answers with
      | fails => exact refines_pure .fails
      | returns held =>
          cases settled.retains.encodes _ _ encoded with
          | arith loaded' _ first' second' =>
              refine matches_kid loaded' rfl (refines_bind
                (computes _ _ _ _ _ (ready.settles settled) second' rightOrder) ?_)
              intro last value' answer' settled' answers'
              cases answers' with
              | fails => exact refines_pure .fails
              | returns held' =>
                  exact matches_lift fun _ _ run =>
                    run_arithmetic_value (settled'.retains.represents _ _ held.1) held'.1 run

theorem matches_runNeg {e : Ref} {operand : Code}
    (encoded : Encodes sig start.store.heap e (.neg operand))
    (ordered : FirstOrder sig scope (.neg operand)) :
    Matches sig (Answers sig) start (runNeg self e) (do
      match ← spec env operand with
      | none => return none
      | some value => return value.neg) := by
  cases ordered with
  | neg operandOrder =>
  cases id encoded with
  | neg loaded first =>
      refine matches_kid loaded rfl (refines_bind (computes _ _ _ _ _ ready first operandOrder) ?_)
      intro middle value answer settled answers
      cases answers with
      | fails => exact refines_pure .fails
      | returns held => exact matches_lift fun _ _ run => run_negation_value held.1 run

theorem matches_runMpzToMpq {e : Ref} {operand : Code}
    (encoded : Encodes sig start.store.heap e (.mpzToMpq operand))
    (ordered : FirstOrder sig scope (.mpzToMpq operand)) :
    Matches sig (Answers sig) start (runMpzToMpq self e) (do
      match ← spec env operand with
      | none => return none
      | some (.int value) => return some (.rat value)
      | some _ => Exec.stop .undefined) := by
  cases ordered with
  | mpzToMpq operandOrder =>
  cases id encoded with
  | mpzToMpq loaded first =>
      refine matches_kid loaded rfl (refines_bind (computes _ _ _ _ _ ready first operandOrder) ?_)
      intro middle value answer settled answers
      cases answers with
      | fails => exact refines_pure .fails
      | returns held =>
          refine matches_read fun node store run => ?_
          obtain ⟨found, rfl⟩ := run_load_ok.mp run
          refine ⟨rfl, ?_⟩
          cases held.1 with
          | int loaded' =>
              rw [loaded'] at found
              cases found
              refine matches_step fun r store run => ?_
              obtain ⟨kept, loaded⟩ := retains_new rfl run
              exact ⟨kept, refines_pure (.returns ⟨.rat loaded, .rat _⟩)⟩
          | sym _ loaded' | rat loaded' | app loaded' =>
              rw [loaded'] at found
              cases found
              exact refines_stop

/-- One of two branches, once the same condition is known on both sides. -/
theorem matches_runBranch {e : Ref} {op : Op} {kids : List Ref} {flag : Bool} {first : Nat}
    {b c : Ref} {yes no : Code} {condition : Bool}
    (loaded : start.store.heap[e]? = some (.cexpr op kids flag)) (found : kids[first]? = some b)
    (found' : kids[first + 1]? = some c) (second : Encodes sig start.store.heap b yes)
    (third : Encodes sig start.store.heap c no) (yesOrder : FirstOrder sig scope yes)
    (noOrder : FirstOrder sig scope no) :
    Matches sig (Answers sig) start (runBranch self e first condition)
      (evalBranch (spec env) yes no condition) :=
  refines_ite Iff.rfl
    (fun _ => matches_kid loaded found (computes _ _ _ _ _ ready second yesOrder))
    (fun _ => matches_kid loaded found' (computes _ _ _ _ _ ready third noOrder))

theorem matches_runIfNumeral {e : Ref} {op : Op} {operand yes no : Code}
    (encoded : Encodes sig start.store.heap e (.ifNumeral op operand yes no))
    (ordered : FirstOrder sig scope (.ifNumeral op operand yes no)) :
    Matches sig (Answers sig) start (runIfNumeral self op e) (do
      match ← spec env operand with
      | none => return none
      | some value =>
          match value.test op with
          | none => return none
          | some condition => evalBranch (spec env) yes no condition) := by
  cases ordered with
  | ifNumeral operandOrder yesOrder noOrder =>
  cases id encoded with
  | ifNumeral loaded _ first _ _ =>
      refine matches_kid loaded rfl (refines_bind (computes _ _ _ _ _ ready first operandOrder) ?_)
      intro middle value answer settled answers
      cases answers with
      | fails => exact refines_pure .fails
      | returns held =>
          cases settled.retains.encodes _ _ encoded with
          | ifNumeral loaded' _ _ second third =>
              refine matches_read fun tested store run => ?_
              obtain ⟨rfl, rfl⟩ := run_numeralTest_value held.1 run
              refine ⟨rfl, ?_⟩
              simp only
              cases Val.test op _ with
              | none => exact refines_pure .fails
              | some condition =>
                  exact matches_runBranch computes (ready.settles settled) loaded' rfl rfl second
                    third yesOrder noOrder

/-- Code that has to yield a symbol. -/
theorem matches_runSymbol {r : Ref} {code : Code} (encoded : Encodes sig start.store.heap r code)
    (ordered : FirstOrder sig scope code) :
    Matches sig (AnswersSymbol sig) start (runSymbol self r) (evalSymbol (spec env) code) := by
  refine refines_bind (computes _ _ _ _ _ ready encoded ordered) ?_
  intro middle value answer settled answers
  cases answers with
  | fails => exact refines_pure ⟨rfl, by simp⟩
  | returns held =>
      refine matches_read fun symbolic store run => ?_
      obtain ⟨_, node, loadRun, rest⟩ := run_bind_ok.mp run
      obtain ⟨found, rfl⟩ := run_load_ok.mp loadRun
      cases id held.1 with
      | sym role loaded =>
          rw [loaded] at found
          cases found
          obtain ⟨rfl, rfl⟩ := run_pure_ok.mp rest
          exact ⟨rfl, refines_pure ⟨rfl, by rintro _ ⟨⟩; exact held⟩⟩
      | int loaded | rat loaded | app loaded =>
          rw [loaded] at found
          cases found
          obtain ⟨rfl, rfl⟩ := run_pure_ok.mp rest
          exact ⟨rfl, refines_pure ⟨rfl, by simp⟩⟩

theorem matches_runCompare {e : Ref} {left right yes no : Code}
    (encoded : Encodes sig start.store.heap e (.compare left right yes no))
    (ordered : FirstOrder sig scope (.compare left right yes no)) :
    Matches sig (Answers sig) start (runCompare self e) (do
      match ← evalSymbol (spec env) left with
      | none => return none
      | some left =>
          match ← evalSymbol (spec env) right with
          | none => return none
          | some right => evalBranch (spec env) yes no (order left right)) := by
  cases ordered with
  | compare leftOrder rightOrder yesOrder noOrder =>
  cases id encoded with
  | compare loaded first _ _ _ =>
      refine matches_kid loaded rfl
        (refines_bind (matches_runSymbol computes ready first leftOrder) ?_)
      rintro middle name _ settled ⟨rfl, held⟩
      cases name with
      | none => exact refines_pure .fails
      | some name =>
          cases settled.retains.encodes _ _ encoded with
          | compare loaded' _ second' _ _ =>
              refine matches_kid loaded' rfl (refines_bind
                (matches_runSymbol computes (ready.settles settled) second' rightOrder) ?_)
              rintro last name' _ settled' ⟨rfl, held'⟩
              cases name' with
              | none => exact refines_pure .fails
              | some name' =>
                  have settledAll : Settles sig start last := IsTrans.trans _ _ _ settled settled'
                  cases settledAll.retains.encodes _ _ encoded with
                  | compare loaded'' _ _ third fourth =>
                      refine matches_read fun condition store run => ?_
                      cases run
                      rw [(ready.settles settledAll).ordered]
                      exact ⟨rfl, matches_runBranch computes (ready.settles settledAll) loaded'' rfl
                        rfl third fourth yesOrder noOrder⟩

theorem matches_runIfEqual {fuel : Nat} {e : Ref} {left right yes no : Code}
    (encoded : Encodes sig start.store.heap e (.ifEqual left right yes no))
    (ordered : FirstOrder sig scope (.ifEqual left right yes no)) :
    Matches sig (Answers sig) start (runIfEqual fuel self e) (do
      match ← spec env left with
      | none => return none
      | some left =>
          match ← spec env right with
          | none => return none
          | some right => evalBranch (spec env) yes no (left = right)) := by
  cases ordered with
  | ifEqual leftOrder rightOrder yesOrder noOrder =>
  cases id encoded with
  | ifEqual loaded first _ _ _ =>
      refine matches_kid loaded rfl (refines_bind (computes _ _ _ _ _ ready first leftOrder) ?_)
      intro middle value answer settled answers
      cases answers with
      | fails => exact refines_pure .fails
      | returns held =>
          cases settled.retains.encodes _ _ encoded with
          | ifEqual loaded' _ second' _ _ =>
              refine matches_kid loaded' rfl (refines_bind
                (computes _ _ _ _ _ (ready.settles settled) second' rightOrder) ?_)
              intro last value' answer' settled' answers'
              cases answers' with
              | fails => exact refines_pure .fails
              | returns held' =>
                  refine matches_step fun verdict store run => ?_
                  obtain ⟨rfl, kept⟩ :=
                    run_defeq_value (settled'.retains.represents _ _ held.1) held'.1 run
                  have settledAll : Settles sig start { last with store } :=
                    IsTrans.trans _ _ _ settled (IsTrans.trans _ _ _ settled' ⟨kept, rfl⟩)
                  cases settledAll.retains.encodes _ _ encoded with
                  | ifEqual loaded'' _ _ third fourth =>
                      exact ⟨kept, matches_runBranch computes (ready.settles settledAll) loaded''
                        rfl rfl third fourth yesOrder noOrder⟩

omit computes ready in
theorem run_markOf_ok {e mark : Ref} {op : Op} {kids : List Ref} {flag : Bool} {index : Int}
    {result : Nat} {before after : Store}
    (loaded : before.heap[e]? = some (.cexpr op (mark :: kids) flag))
    (marked : before.heap[mark]? = some (.int index))
    (run : (markOf e).run before = .ok (result, after)) :
    before = after ∧ result = index.natAbs := by
  obtain ⟨_, found, kidRun, rest⟩ := run_bind_ok.mp run
  obtain ⟨⟨_, _, _, again, here⟩, rfl⟩ := run_kid_ok.mp kidRun
  rw [loaded] at again
  cases again
  obtain rfl : mark = found := by simpa using here
  obtain ⟨_, node, loadRun, rest⟩ := run_bind_ok.mp rest
  obtain ⟨loaded', rfl⟩ := run_load_ok.mp loadRun
  rw [marked] at loaded'
  cases loaded'
  obtain ⟨rfl, rfl⟩ := run_pure_ok.mp rest
  exact ⟨rfl, rfl⟩

theorem matches_runIfMarked {e : Ref} {index : Nat} {operand yes no : Code}
    (encoded : Encodes sig start.store.heap e (.ifMarked index operand yes no))
    (ordered : FirstOrder sig scope (.ifMarked index operand yes no)) :
    Matches sig (Answers sig) start (runIfMarked self false e) (do
      match ← evalSymbol (spec env) operand with
      | none => return none
      | some name => evalBranch (spec env) yes no ((← get) name index)) := by
  cases ordered with
  | ifMarked operandOrder yesOrder noOrder =>
      obtain ⟨_, _, _, _, _, _, loaded, -, -, first, -, -⟩ := encoded.ifMarked_inv
      refine matches_kid loaded rfl
        (refines_bind (matches_runSymbol computes ready first operandOrder) ?_)
      rintro middle name _ settled ⟨rfl, held⟩
      cases name with
      | none => exact refines_pure .fails
      | some name =>
          obtain ⟨_, _, _, _, _, _, loaded', marked, rfl, -, second, third⟩ :=
            (settled.retains.encodes _ _ encoded).ifMarked_inv
          refine matches_read fun index store run => ?_
          obtain ⟨rfl, rfl⟩ := run_markOf_ok loaded' marked run
          refine ⟨rfl, refines_read fun condition last run => ?_⟩
          cases run
          exact ⟨rfl, matches_runBranch computes (ready.settles settled) loaded' rfl rfl second
            third yesOrder noOrder⟩

omit ready computes in
/-- Marks are the only state that both sides share. -/
theorem matches_toggleMark (name : Ref) (index : Nat) :
    Matches sig (fun _ _ _ => True) start (toggleMark name index) (toggle name index) := by
  intro value final run
  cases run
  exact ⟨(), rfl, ⟨Std.Refl.refl start.store, rfl⟩, trivial⟩

theorem matches_runMarkVar {e : Ref} {index : Nat} {operand : Code}
    (encoded : Encodes sig start.store.heap e (.markVar index operand))
    (ordered : FirstOrder sig scope (.markVar index operand)) :
    Matches sig (Answers sig) start (runMarkVar self e) (do
      match ← evalSymbol (spec env) operand with
      | none => return none
      | some name =>
          toggle name index
          return some (.sym name)) := by
  cases ordered with
  | markVar operandOrder =>
      obtain ⟨_, _, _, _, loaded, -, -, first⟩ := encoded.markVar_inv
      refine matches_kid loaded rfl
        (refines_bind (matches_runSymbol computes ready first operandOrder) ?_)
      rintro middle name _ settled ⟨rfl, held⟩
      cases name with
      | none => exact refines_pure .fails
      | some name =>
          obtain ⟨_, _, _, _, loaded', marked, rfl, -⟩ :=
            (settled.retains.encodes _ _ encoded).markVar_inv
          refine matches_read fun index store run => ?_
          obtain ⟨rfl, rfl⟩ := run_markOf_ok loaded' marked run
          refine ⟨rfl, refines_bind (matches_toggleMark name _) ?_⟩
          intro last _ _ settled' _
          exact refines_pure (.returns ((held name rfl).evolves settled'.retains.toEvolves))

/-- Arguments are evaluated from left to right. -/
theorem matches_runArgs {kids : List Ref} {args : List Code}
    (encoded : List.Forall₂ (Encodes sig start.store.heap) kids args)
    (ordered : ∀ arg ∈ args, FirstOrder sig scope arg) :
    Matches sig (fun heap => AnswersAll sig heap args.length) start (runArgs self kids)
      (evalArgs (spec env) args) := by
  induction args generalizing kids start with
  | nil =>
      obtain rfl := List.forall₂_nil_right_iff.mp encoded
      exact refines_pure (.returns .nil rfl)
  | cons arg args hyp =>
      obtain ⟨kid, kids, here, others, rfl⟩ := List.forall₂_cons_right_iff.mp encoded
      rw [runArgs, evalArgs]
      rw [List.forall_mem_cons] at ordered
      refine refines_bind (computes _ _ _ _ _ ready here ordered.1) ?_
      intro middle value answer settled answers
      cases answers with
      | fails => exact refines_pure .fails
      | returns held =>
          have others' := others.imp fun _ _ => settled.retains.encodes _ _
          refine refines_bind (hyp (ready.settles settled) others' ordered.2) ?_
          intro last values answers settled' answersAll
          cases answersAll with
          | fails => exact refines_pure .fails
          | returns heldAll length =>
              refine refines_pure
                (.returns (.cons (held.evolves settled'.retains.toEvolves) heldAll) ?_)
              rw [List.length_cons, length, List.length_cons]

omit ready in
theorem matches_runLet (ready : Ready sig order env scope start) {e var : Ref} {value body : Code}
    (encoded : Encodes sig start.store.heap e (.let_ var value body))
    (ordered : FirstOrder sig scope (.let_ var value body)) :
    Matches sig (Answers sig) start (runLet self e) (do
      match ← spec env value with
      | none => return none
      | some value => spec (env.bind [(var, value)]) body) := by
  cases ordered with
  | let_ role valueOrder bodyOrder =>
  cases id encoded with
  | let_ loaded first _ =>
      refine matches_kid loaded rfl (refines_bind (computes _ _ _ _ _ ready first valueOrder) ?_)
      intro middle value answer settled answers
      cases answers with
      | fails => exact refines_pure .fails
      | @returns r _ held =>
          have ready' := ready.settles settled
          cases id (settled.retains.encodes _ _ encoded) with
          | let_ loaded' _ _ =>
              refine matches_kid loaded' rfl fun result final run => ?_
              obtain ⟨_, prevs, assignRun, rest⟩ := run_bind_ok.mp run
              obtain ⟨store, assigned, rfl⟩ := run_lift_ok.mp assignRun
              obtain ⟨_, body', kidRun, rest⟩ := run_bind_ok.mp rest
              obtain ⟨_, kidRead, rfl⟩ := run_lift_ok.mp kidRun
              obtain ⟨⟨_, _, _, loaded'', found⟩, rfl⟩ := run_kid_ok.mp kidRead
              obtain ⟨last, result', bodyRun, rest⟩ := run_bind_ok.mp rest
              obtain ⟨_, _, restoreRun, rest⟩ := run_bind_ok.mp rest
              obtain ⟨restored, restoring, rfl⟩ := run_lift_ok.mp restoreRun
              obtain ⟨rfl, rfl⟩ := run_pure_ok.mp rest
              have assigned' : (assignVars ([var].zip [r])).run middle.store = .ok (prevs, store) :=
                assigned
              have roles : ∀ name ∈ [var], sig name = .var := by simpa using role
              have distinct : [var].Nodup := by simp
              have length : [var].length = [r].length := rfl
              have evolved := (ready'.assigns roles distinct length (.cons held .nil) assigned').1
              cases evolved.encodes _ _ (settled.retains.encodes _ _ encoded) with
              | let_ again _ bodyEncoded =>
                  rw [again] at loaded''
                  cases loaded''
                  obtain rfl : _ = body' := by simpa using found
                  obtain ⟨answer, evalRun, kept, answers⟩ := activation computes ready' roles
                    distinct length (.cons held .nil) assigned' bodyEncoded bodyOrder bodyRun
                      restoring
                  exact ⟨answer, evalRun, kept, answers⟩

end Constructs

end Lfsc
