import Lfsc.FunctionCache
import Lfsc.SideCondition.Matching

/-!
# The interpreter refines the evaluator

Every returning run of `run_code_internal` on first-order code gives the result and the marks of the
evaluator with explicit environments, and leaves every slot as it was.
-/

namespace Lfsc

open Exec

/-! ## Applications -/

section Applications

variable {sig : Signature} {order : Ref → Ref → Bool} {env : Env} {scope : List Ref}
  {start : Runtime}

/-- An application of a value to values. -/
theorem run_buildApp_held {head : Ref} {args : List Ref} {value : Val} {values : List Val}
    {r : Ref} {before after : Store} (headed : Represents sig before.heap head value)
    (all : List.Forall₂ (Represents sig before.heap) args values)
    (run : (buildApp head args).run before = .ok (r, after)) :
    Retains sig before after ∧ Represents sig after.heap r (value.apply values) := by
  cases all with
  | nil =>
      obtain ⟨rfl, rfl⟩ := run_pure_ok.mp run
      exact ⟨Std.Refl.refl before, headed⟩
  | cons here others =>
      obtain ⟨kept, loaded⟩ := retains_new rfl run
      refine ⟨kept, represents_app_iff.mpr ⟨_, _, _, loaded, kept.represents _ _ headed, ?_⟩⟩
      exact .cons (kept.represents _ _ here) (others.imp fun _ _ => kept.represents _ _)

theorem Val.Saturated.apply_values {value : Val} {values : List Val}
    (headed : value.Saturated sig) (each : ∀ arg ∈ values, arg.Saturated sig) :
    (value.apply values).Saturated sig := by
  unfold Val.apply
  split
  · exact headed
  · exact .nested headed each

theorem Val.Saturated.apply_constructor {name : Ref} {arity : Nat} {values : List Val}
    (role : sig name = .constructor arity) (enough : arity ≤ values.length)
    (each : ∀ arg ∈ values, arg.Saturated sig) : ((Val.sym name).apply values).Saturated sig := by
  unfold Val.apply
  split
  · rename_i empty
    subst empty
    obtain rfl : arity = 0 := by simpa using enough
    exact .sym role
  · exact .apply role enough each

/-- A variable in scope, followed through its slot. -/
theorem Ready.follow_variable (ready : Ready sig order env scope start) {name : Ref}
    (member : name ∈ scope) :
    ∃ value, env name = some value ∧ ∀ last after,
      (follow name).run start.store = .ok (last, after) →
        start.store = after ∧ Held sig start.store.heap last value := by
  obtain ⟨value, found⟩ := ready.bound name member
  obtain ⟨r, slot, held⟩ := ready.slots name value found
  refine ⟨value, found, fun last after run => ?_⟩
  obtain ⟨followed, rfl⟩ := run_follow_ok.mp run
  rw [followDefs, followFor, slot] at followed
  have bound := held.1.lt_length
  cases steps : start.store.heap.length with
  | zero => simp [steps] at bound
  | succ steps' =>
      simp only [steps] at followed
      rw [followFor, held.1.valOf_eq] at followed
      obtain rfl : r = last := by simpa using followed
      exact ⟨rfl, held⟩

/-- A constructor stands for itself. -/
theorem follow_constructor {name last : Ref} {arity : Nat} {before after : Store}
    (named : Named sig before.heap name) (role : sig name = .constructor arity)
    (run : (follow name).run before = .ok (last, after)) :
    last = name ∧ before = after ∧ Represents sig before.heap name (.sym name) := by
  obtain ⟨rfl, rfl⟩ := run_follow_settled (named.valOf_eq role) run
  obtain ⟨text, val, loaded, fixed⟩ := named
  obtain rfl := fixed arity role
  exact ⟨rfl, rfl, .sym role loaded⟩

theorem run_follow_link {r next last : Ref} {before after : Store}
    (linked : valOf before.heap r = some next) (settled : valOf before.heap next = none)
    (run : (follow r).run before = .ok (last, after)) : last = next ∧ before = after := by
  obtain ⟨followed, rfl⟩ := run_follow_ok.mp run
  rw [followDefs, followFor, linked] at followed
  cases steps : before.heap.length with
  | zero => simp [steps] at followed
  | succ steps' =>
      simp only [steps] at followed
      rw [followFor, settled] at followed
      exact ⟨(Option.some.inj followed).symm, rfl⟩

/-- A leaf of code. -/
theorem matches_runLeaf (ready : Ready sig order env scope start) {name : Ref}
    (named : Named sig start.store.heap name) (mentioned : sig.Mentions scope name) :
    Matches sig (Answers sig) start (liftM (runLeaf name) : RunM (Option Ref))
      (do return some (← lookup sig env name)) := by
  have read : ∀ result store, (runLeaf name).run start.store = .ok (result, store) →
      ∃ last, result = some last ∧ (follow name).run start.store = .ok (last, store) := by
    intro result store run
    obtain ⟨text, val, loaded, -⟩ := named
    obtain ⟨_, node, loadRun, rest⟩ := run_bind_ok.mp run
    obtain ⟨found, rfl⟩ := run_load_ok.mp loadRun
    rw [loaded] at found
    cases found
    obtain ⟨_, last, followRun, rest⟩ := run_bind_ok.mp rest
    obtain ⟨rfl, rfl⟩ := run_pure_ok.mp rest
    exact ⟨last, rfl, followRun⟩
  unfold lookup
  cases role : sig name with
  | var =>
      rw [Signature.Mentions, role] at mentioned
      obtain ⟨value, found, followed⟩ := ready.follow_variable mentioned
      simp only [found, deref]
      refine matches_lift fun result store run => ?_
      obtain ⟨last, rfl, followRun⟩ := read result store run
      obtain ⟨rfl, held⟩ := followed last store followRun
      exact ⟨Std.Refl.refl _, .returns held⟩
  | constructor arity =>
      rw [Signature.Mentions, role] at mentioned
      refine matches_lift fun result store run => ?_
      obtain ⟨last, rfl, followRun⟩ := read result store run
      obtain ⟨rfl, rfl, represented⟩ := follow_constructor named role followRun
      exact ⟨Std.Refl.refl _, .returns ⟨represented, .sym (mentioned ▸ role)⟩⟩
  | program params body =>
      rw [Signature.Mentions, role] at mentioned
      exact mentioned.elim

/-- Code without an operator. -/
theorem matches_leaf (ready : Ready sig order env scope start) {e : Ref} {code : Code} {node : Node}
    {spec : Env → Code → EvalM (Option Val)} (encoded : Encodes sig start.store.heap e code)
    (ordered : FirstOrder sig scope code) (loaded : start.store.heap[e]? = some node)
    (leaf : ∀ op kids flag, node ≠ .cexpr op kids flag) :
    Matches sig (Answers sig) start (liftM (runLeaf e) : RunM (Option Ref))
      (evalStep sig order spec env code) := by
  cases encoded with
  | sym named =>
      cases ordered with
      | sym mentioned => exact matches_runLeaf ready named mentioned
  | int found =>
      refine matches_lift fun result store run => ?_
      obtain ⟨_, node, loadRun, rest⟩ := run_bind_ok.mp run
      obtain ⟨here, rfl⟩ := run_load_ok.mp loadRun
      cases found.symm.trans here
      obtain ⟨rfl, rfl⟩ := run_pure_ok.mp rest
      exact ⟨Std.Refl.refl _, .returns ⟨.int found, .int _⟩⟩
  | rat found =>
      refine matches_lift fun result store run => ?_
      obtain ⟨_, node, loadRun, rest⟩ := run_bind_ok.mp run
      obtain ⟨here, rfl⟩ := run_load_ok.mp loadRun
      cases found.symm.trans here
      obtain ⟨rfl, rfl⟩ := run_pure_ok.mp rest
      exact ⟨Std.Refl.refl _, .returns ⟨.rat found, .rat _⟩⟩
  | apply found | fail found | do_ found | let_ found | arith found | neg found | mpzToMpq found
  | ifNumeral found | ifMarked found | compare found | ifEqual found | markVar found
  | match_ found => exact (leaf _ _ _ (Option.some.inj (loaded.symm.trans found))).elim

theorem run_getHead_symbol {e name last : Ref} {kids : List Ref} {flag : Bool}
    {before after : Store}
    (loaded : before.heap[e]? = some (.cexpr .app (name :: kids) flag))
    (symbolic : Symbolic before.heap name)
    (run : (getHead e false).run before = .ok (last, after)) : last = name ∧ before = after := by
  obtain ⟨_, heap, heapRun, rest⟩ := run_bind_ok.mp run
  obtain ⟨rfl, rfl⟩ := run_getHeap_ok.mp heapRun
  rw [headWithin_eq] at rest
  obtain ⟨_, op, opRun, rest⟩ := run_bind_ok.mp rest
  obtain ⟨-, rfl, rfl⟩ := run_getop_ok.mp opRun
  rw [if_pos (by simp [opOf, loaded])] at rest
  obtain ⟨_, first, kidRun, rest⟩ := run_bind_ok.mp rest
  obtain ⟨⟨_, _, _, again, found⟩, rfl⟩ := run_kid_ok.mp kidRun
  rw [loaded] at again
  cases again
  obtain rfl : name = first := by simpa using found
  obtain ⟨_, _, nextRun, rest⟩ := run_bind_ok.mp rest
  obtain ⟨rfl, rfl⟩ := run_pure_ok.mp nextRun
  obtain ⟨text, val, symLoaded⟩ := symbolic
  cases length : before.heap.length with
  | zero =>
      simp only [length] at rest
      exact (run_stop_ok.mp rest).elim
  | succ steps =>
      simp only [length] at rest
      rw [headWithin_eq] at rest
      obtain ⟨_, op, opRun, rest⟩ := run_bind_ok.mp rest
      obtain ⟨-, rfl, rfl⟩ := run_getop_ok.mp opRun
      rw [if_neg (by simp [opOf, symLoaded])] at rest
      obtain ⟨rfl, rfl⟩ := run_pure_ok.mp rest
      exact ⟨rfl, rfl⟩

/-- A value is applied to values. -/
theorem matches_buildApp {head : Ref} {args : List Ref} {value : Val} {values : List Val}
    {other : RunM (Option Ref)} (headed : Represents sig start.store.heap head value)
    (all : List.Forall₂ (Held sig start.store.heap) args values)
    (saturated : (value.apply values).Saturated sig) :
    Matches sig (Answers sig) start (do
      if (← getop head) ≠ some .prog then return some (← buildApp head args) else other)
      (pure (some (value.apply values))) := by
  refine matches_read fun op store run => ?_
  obtain ⟨-, rfl, rfl⟩ := run_getop_ok.mp run
  have plain : opOf start.store.heap head ≠ some .prog := by
    obtain ⟨found, -⟩ | ⟨found, -⟩ := headed.opOf_eq <;> simp [found]
  rw [if_pos plain]
  refine ⟨rfl, matches_step fun r store run => ?_⟩
  obtain ⟨kept, represented⟩ := run_buildApp_held headed (all.imp fun _ _ held => held.1) run
  exact ⟨kept, refines_pure (.returns ⟨represented, saturated⟩)⟩

/-- An expression in an activation whose values are saturated. -/
theorem forall_saturated {heap : List Node} {args : List Ref} {values : List Val}
    (all : List.Forall₂ (Held sig heap) args values) : ∀ arg ∈ values, arg.Saturated sig := by
  induction all with
  | nil => simp
  | cons held _ hyp => exact List.forall_mem_cons.mpr ⟨held.2, hyp⟩

variable {self : Ref → Bool → RunM (Option Ref)} {spec : Env → Code → EvalM (Option Val)}
  (computes : Computes sig order (self · false) spec)

include computes

/-- A program runs with its parameters only in the environment, whatever else is assigned. -/
theorem matches_runCall (ready : Ready sig order env scope start) (programs : sig.FirstOrder)
    {name prog : Ref} {params args : List Ref} {body : Code} {values : List Val} {text : String}
    (role : sig name = .program params body)
    (loaded : start.store.heap[name]? = some (.sym text (some prog)))
    (length : params.length = args.length)
    (held : List.Forall₂ (Held sig start.store.heap) args values) :
    Matches sig (Answers sig) start (runCall self false name prog args)
      (spec (Env.bind (fun _ => none) (params.zip values)) body) := by
  obtain ⟨distinct, roles, bodyOrder⟩ := programs name params body role
  obtain ⟨_, prog', type, vars, code, flag, varsFlag, loaded', progLoaded, varsLoaded, encoded⟩ :=
    ready.defined name params body role
  rw [loaded] at loaded'
  cases loaded'
  refine matches_read fun params' store run => ?_
  obtain ⟨_, vars', kidRun, rest⟩ := run_bind_ok.mp run
  obtain ⟨⟨_, _, _, again, found⟩, rfl⟩ := run_kid_ok.mp kidRun
  rw [progLoaded] at again
  cases again
  obtain rfl : vars = vars' := by simpa using found
  obtain ⟨_, node, loadRun, rest⟩ := run_bind_ok.mp rest
  obtain ⟨found', rfl⟩ := run_load_ok.mp loadRun
  rw [varsLoaded] at found'
  cases found'
  obtain ⟨rfl, rfl⟩ := run_pure_ok.mp rest
  refine ⟨rfl, fun result final run => ?_⟩
  obtain ⟨_, prevs, assignRun, rest⟩ := run_bind_ok.mp run
  obtain ⟨store, paramsRun, rfl⟩ := run_lift_ok.mp assignRun
  obtain ⟨prevs, rfl, assigning⟩ := run_assignParams_ok length paramsRun
  obtain ⟨_, decided, functionRun, rest⟩ := run_bind_ok.mp rest
  obtain ⟨rfl, rfl⟩ := run_isFunction_ok.mp functionRun
  rw [if_neg (by simpa using ready.plain name params body role)] at rest
  obtain ⟨_, code', kidRun, rest⟩ := run_bind_ok.mp rest
  obtain ⟨_, kidRead, rfl⟩ := run_lift_ok.mp kidRun
  obtain ⟨⟨_, _, _, again, found⟩, rfl⟩ := run_kid_ok.mp kidRead
  obtain ⟨last, result', bodyRun, rest⟩ := run_bind_ok.mp rest
  obtain ⟨_, _, restoreRun, rest⟩ := run_bind_ok.mp rest
  obtain ⟨restored, restoring, rfl⟩ := run_lift_ok.mp restoreRun
  obtain ⟨rfl, rfl⟩ := run_pure_ok.mp rest
  have callee : Ready sig order (fun _ => none) [] start :=
    ⟨ready.defined, ready.plain, ready.ordered, by simp [Slots], by simp⟩
  have evolved := (callee.assigns roles distinct length held assigning).1
  rw [evolved.cexprs _ _ _ _ (by simp) progLoaded] at again
  cases again
  obtain rfl : code = code' := by simpa using found
  obtain ⟨answer, evalRun, kept, answers⟩ := activation computes callee roles distinct length held
    assigning (evolved.encodes _ _ encoded) (by simpa using bodyOrder) bodyRun restoring
  exact ⟨answer, evalRun, kept, answers⟩

/-- The head of an application, read before its arguments are evaluated. -/
theorem matches_runApp (ready : Ready sig order env scope start) (programs : sig.FirstOrder)
    {e head : Ref} {args : List Code} (encoded : Encodes sig start.store.heap e (.apply head args))
    (ordered : FirstOrder sig scope (.apply head args)) :
    Matches sig (Answers sig) start (runApp self false e) (do
      match ← evalArgs (spec env) args with
      | none => return none
      | some values => evalApply sig spec env head values) := by
  cases ordered with
  | apply applied each =>
  cases id encoded with
  | @apply _ _ kids _ _ loaded named length encodedArgs =>
      have read : ∀ followed args store,
          (collectArgs e true).run start.store = .ok ((followed, args), store) →
          args = kids ∧ (follow head).run start.store = .ok (followed, store) := by
        intro followed args store run
        obtain ⟨_, node, loadRun, rest⟩ := run_bind_ok.mp run
        obtain ⟨found, rfl⟩ := run_load_ok.mp loadRun
        rw [loaded] at found
        cases found
        obtain ⟨_, first, derefRun, rest⟩ := run_bind_ok.mp rest
        obtain ⟨here, rfl⟩ := run_deref_ok.mp derefRun
        obtain ⟨_, _, pairRun, rest⟩ := run_bind_ok.mp rest
        obtain ⟨rfl, rfl⟩ := run_pure_ok.mp pairRun
        obtain rfl : head = first := by simpa using here
        obtain ⟨_, last, followRun, rest⟩ := run_bind_ok.mp rest
        obtain ⟨pair, rfl⟩ := run_pure_ok.mp rest
        cases pair
        exact ⟨rfl, followRun⟩
      refine matches_read fun parts store run => ?_
      obtain ⟨followed, args'⟩ := parts
      obtain ⟨rfl, followRun⟩ := read followed args' store run
      have arguments := matches_runArgs computes ready
        (encodes_each.mpr ⟨length, encodedArgs⟩) each
      rw [Signature.Applies] at applied
      unfold evalApply
      cases role : sig head with
      | var =>
          rw [role] at applied
          obtain ⟨value, found, holds⟩ := ready.follow_variable applied
          obtain ⟨rfl, held⟩ := holds followed store followRun
          refine ⟨rfl, refines_bind arguments ?_⟩
          intro middle refs values settled answers
          cases answers with
          | fails => exact refines_pure .fails
          | returns heldAll lengthAll =>
              simp only [lookup, role, found, deref, pure_bind]
              exact matches_buildApp (settled.retains.represents _ _ held.1) heldAll
                (held.2.apply_values (forall_saturated heldAll))
      | constructor arity =>
          rw [role] at applied
          obtain ⟨rfl, rfl, represented⟩ := follow_constructor named role followRun
          refine ⟨rfl, refines_bind arguments ?_⟩
          intro middle refs values settled answers
          cases answers with
          | fails => exact refines_pure .fails
          | returns heldAll lengthAll =>
              simp only [lookup, role, pure_bind]
              exact matches_buildApp (settled.retains.represents _ _ represented) heldAll
                (.apply_constructor role (lengthAll ▸ applied) (forall_saturated heldAll))
      | program params body =>
          rw [role] at applied
          obtain ⟨_, prog, _, _, _, _, _, symLoaded, progLoaded, -, -⟩ :=
            ready.defined head params body role
          obtain ⟨rfl, rfl⟩ := run_follow_link (by rw [valOf, symLoaded])
            (by rw [valOf, progLoaded]) followRun
          refine ⟨rfl, refines_bind arguments ?_⟩
          intro middle refs values settled answers
          cases answers with
          | fails => exact refines_pure .fails
          | @returns refs values heldAll lengthAll =>
              have ready' := ready.settles settled
              obtain ⟨text, prog', _, _, _, _, _, symLoaded', progLoaded', -, -⟩ :=
                ready'.defined head params body role
              obtain rfl : followed = prog' := by
                have slot : valOf middle.store.heap head = valOf start.store.heap head := by
                  rw [settled.retains.vals]
                rw [valOf, valOf, symLoaded, symLoaded'] at slot
                exact (Option.some.inj slot).symm
              have count : params.length = refs.length := by
                rw [applied, heldAll.length_eq, lengthAll]
              simp only
              rw [if_pos (show params.length = values.length from applied.trans lengthAll.symm)]
              refine matches_read fun op store run => ?_
              obtain ⟨-, rfl, rfl⟩ := run_getop_ok.mp run
              rw [if_neg (by simp [opOf, progLoaded'])]
              refine ⟨rfl, matches_read fun name store run => ?_⟩
              cases settled.retains.encodes _ _ encoded with
              | apply loaded' named' _ _ =>
                  obtain ⟨text', val, symbol, -⟩ := id named'
                  obtain ⟨rfl, rfl⟩ := run_getHead_symbol loaded' ⟨text', val, symbol⟩ run
                  exact ⟨rfl, matches_runCall computes ready' programs role symLoaded' count
                    heldAll⟩

end Applications

/-! ## All constructs -/

/-- One level of the interpreter matches one level of the evaluator. -/
theorem matches_runCExpr {sig : Signature} {order : Ref → Ref → Bool} {env : Env} {scope : List Ref}
    {start : Runtime} {fuel : Nat} {self : Ref → Bool → RunM (Option Ref)}
    {spec : Env → Code → EvalM (Option Val)} (computes : Computes sig order (self · false) spec)
    (ready : Ready sig order env scope start) (programs : sig.FirstOrder) {e : Ref} {code : Code}
    {op : Op} {kids : List Ref} {flag : Bool} (encoded : Encodes sig start.store.heap e code)
    (ordered : FirstOrder sig scope code)
    (loaded : start.store.heap[e]? = some (.cexpr op kids flag)) :
    Matches sig (Answers sig) start (runCExpr fuel self false op e)
      (evalStep sig order spec env code) := by
  cases id encoded with
  | int found | rat found => simp [found] at loaded
  | sym named =>
      obtain ⟨text, val, found, -⟩ := named
      simp [found] at loaded
  | apply found =>
      cases found.symm.trans loaded
      exact matches_runApp computes ready programs encoded ordered
  | fail found failing =>
      cases found.symm.trans loaded
      obtain rfl | rfl | rfl := failing <;> exact refines_pure .fails
  | do_ found =>
      cases found.symm.trans loaded
      exact matches_runDo computes ready encoded ordered
  | let_ found =>
      cases found.symm.trans loaded
      exact matches_runLet computes ready encoded ordered
  | arith found arithmetic =>
      cases found.symm.trans loaded
      obtain rfl | rfl | rfl := arithmetic <;> exact matches_runArith computes ready encoded ordered
  | neg found =>
      cases found.symm.trans loaded
      exact matches_runNeg computes ready encoded ordered
  | mpzToMpq found =>
      cases found.symm.trans loaded
      exact matches_runMpzToMpq computes ready encoded ordered
  | ifNumeral found test =>
      cases found.symm.trans loaded
      obtain rfl | rfl := test <;> exact matches_runIfNumeral computes ready encoded ordered
  | ifMarked found =>
      cases found.symm.trans loaded
      exact matches_runIfMarked computes ready encoded ordered
  | compare found =>
      cases found.symm.trans loaded
      exact matches_runCompare computes ready encoded ordered
  | ifEqual found =>
      cases found.symm.trans loaded
      exact matches_runIfEqual computes ready encoded ordered
  | markVar found =>
      cases found.symm.trans loaded
      exact matches_runMarkVar computes ready encoded ordered
  | match_ found =>
      cases found.symm.trans loaded
      exact matches_runMatch computes ready encoded ordered

/-- The interpreter matches the evaluator to every depth. -/
theorem computes_runCodeInternal {sig : Signature} (programs : sig.FirstOrder)
    (order : Ref → Ref → Bool) (fuel : Nat) :
    Computes sig order (runCodeInternal fuel · false) (eval sig order fuel) := by
  induction fuel with
  | zero => exact fun _ _ _ _ _ _ _ _ => refines_stop
  | succ fuel hyp =>
      intro start e code env scope ready encoded ordered
      rw [eval]
      refine matches_read fun node store run => ?_
      obtain ⟨loaded, rfl⟩ := run_load_ok.mp run
      refine ⟨rfl, ?_⟩
      cases node with
      | cexpr op kids flag => exact matches_runCExpr hyp ready programs encoded ordered loaded
      | _ => exact matches_leaf ready encoded ordered loaded (by simp)

/-- Natural numbers, and a side condition that copies one by calling itself under a pattern. -/
def copyFile : List Lexeme := scan
  ["(", "declare", "t", "type", ")", "(", "declare", "z", "t", ")",
    "(", "declare", "s", "(", "!", "x", "t", "t", ")", ")",
    "(", "program", "copy", "(", "(", "x", "t", ")", ")", "t",
    "(", "match", "x", "(", "z", "x", ")",
    "(", "(", "s", "y", ")", "(", "s", "(", "copy", "y", ")", ")", ")", ")", ")"]

/-- A symbol of function type that is declared with a defined type, and a side condition that
matches it unapplied. -/
def unappliedFile : List Lexeme := scan
  ["(", "declare", "t", "type", ")", "(", "declare", "a", "t", ")",
    "(", "define", "arr", "(", "!", "x", "t", "t", ")", ")", "(", "declare", "c", "arr", ")",
    "(", "program", "f", "(", "(", "x", "t", ")", ")", "t",
    "(", "match", "c", "(", "(", "c", "y", ")", "y", ")", "(", "default", "x", ")", ")", ")"]

/-- The object of some code read after a file of commands, with the heap and the functions. -/
def heapAfter (lexemes code : List Lexeme) : Option (Ref × List Node × List Ref) :=
  (codeAfter lexemes code).map fun found =>
    (found.1, found.2.store.heap, found.2.progFunctions)

/-- The heap after the first file and the code `(copy (s z))`. -/
def copyHeap : List Node :=
  [.cexpr .type [] false, .cexpr .kind [] false, .cexpr .mpz [] false, .cexpr .mpq [] false,
    .sym "t" none, .sym "z" none, .sym "x" none, .cexpr .pi [6, 4, 4] false, .sym "s" none,
    .sym "copy" (some 21), .sym "x" none, .cexpr .case_ [5, 10] false, .sym "y" none,
    .cexpr .app [8, 12] false, .cexpr .app [9, 12] false, .cexpr .app [8, 14] false,
    .cexpr .case_ [13, 15] false, .cexpr .match_ [10, 11, 16] false, .cexpr .pi [10, 4, 4] false,
    .cexpr .prog [18] false, .cexpr .progvars [10] false, .cexpr .prog [18, 20, 17] false,
    .cexpr .app [8, 5] false, .cexpr .app [9, 22] false]

/-- The body of `copy`. -/
def copyBody : Code :=
  .match_ (.sym 10) [(.ctor 5 [], .sym 10), (.ctor 8 [12], .apply 8 [.apply 9 [.sym 12]])]

/-- The symbols of the first file. -/
def copySig : Signature := fun r =>
  if r = 9 then .program [10] copyBody
  else if r = 8 then .constructor 1
  else if r = 10 ∨ r = 12 then .var
  else .constructor 0

theorem copySig_firstOrder : copySig.FirstOrder := by
  intro name params body role
  have here : params = [10] ∧ body = copyBody := by
    unfold copySig at role
    split_ifs at role with first
    simpa [eq_comm] using role
  obtain ⟨rfl, rfl⟩ := here
  refine ⟨by simp, by simp [copySig], ?_⟩
  refine .match_ (.sym (by simp [Signature.Mentions, copySig])) ?_ ?_
  · simp [Pattern.FullyApplied, copySig]
  · simp only [List.forall_mem_cons, List.not_mem_nil, false_implies, implies_true, and_true]
    refine ⟨.sym (by simp [Signature.Mentions, copySig]), ?_⟩
    refine .apply (by simp [Signature.Applies, copySig]) ?_
    simp only [List.forall_mem_cons, List.not_mem_nil, false_implies, implies_true, and_true]
    refine .apply (by simp [Signature.Applies, copySig]) ?_
    simp only [List.forall_mem_cons, List.not_mem_nil, false_implies, implies_true, and_true]
    exact .sym (by simp [Signature.Mentions, copySig, Pattern.vars])

theorem copyHeap_named : ∀ name ∈ [5, 8, 9, 10, 12], Named copySig copyHeap name := by
  simp [Named, copySig, copyHeap]

theorem copyHeap_defines : Defines copySig copyHeap := by
  intro name params body role
  have here : name = 9 ∧ params = [10] ∧ body = copyBody := by
    unfold copySig at role
    split_ifs at role with first
    exact ⟨first, by simpa [eq_comm] using role⟩
  obtain ⟨rfl, rfl, rfl⟩ := here
  have recursive : Encodes copySig copyHeap 14 (.apply 9 [.sym 12]) :=
    .apply rfl (copyHeap_named 9 (by simp)) rfl (by simpa using .sym (copyHeap_named 12 (by simp)))
  have successor : Encodes copySig copyHeap 15 (.apply 8 [.apply 9 [.sym 12]]) :=
    .apply rfl (copyHeap_named 8 (by simp)) rfl (by simpa using recursive)
  have zeroCase : BranchAt copySig copyHeap 11 10 (.ctor 5 []) :=
    ⟨5, false, rfl, copyHeap_named 5 (by simp), .inl ⟨rfl, rfl⟩⟩
  have successorCase : BranchAt copySig copyHeap 16 15 (.ctor 8 [12]) :=
    ⟨13, false, rfl, copyHeap_named 8 (by simp), .inr ⟨⟨false, rfl⟩, by simp [Symbolic, copyHeap]⟩⟩
  refine ⟨"copy", 21, 18, 20, 17, false, false, rfl, rfl, rfl, ?_⟩
  exact @Encodes.match_ copySig copyHeap 17 10 [11, 16] [10, 15] false _ _ rfl
    (.sym (copyHeap_named 10 (by simp))) rfl rfl (by simpa using ⟨zeroCase, successorCase⟩)
    (by simpa using ⟨.sym (copyHeap_named 10 (by simp)), successor⟩)

theorem exists_of_heapAfter {lexemes code : List Lexeme} {e : Ref} {heap : List Node}
    {functions : List Ref} (found : heapAfter lexemes code = some (e, heap, functions)) :
    ∃ before, codeAfter lexemes code = some (e, before) ∧ before.store.heap = heap ∧
      before.progFunctions = functions := by
  unfold heapAfter at found
  cases read : codeAfter lexemes code with
  | none => simp [read] at found
  | some pair =>
      obtain ⟨e', before⟩ := pair
      rw [read] at found
      cases found
      exact ⟨before, rfl, rfl, rfl⟩

/-- The heap after the second file and the code `(f a)`. -/
def unappliedHeap : List Node :=
  [.cexpr .type [] false, .cexpr .kind [] false, .cexpr .mpz [] false, .cexpr .mpq [] false,
    .sym "t" none, .sym "a" none, .sym "x" none, .cexpr .pi [6, 4, 4] false, .sym "arr" (some 7),
    .sym "c" none, .sym "f" (some 19), .sym "x" none, .sym "y" none, .cexpr .app [9, 12] false,
    .cexpr .case_ [13, 12] false, .cexpr .match_ [9, 14, 11] false, .cexpr .pi [11, 4, 4] false,
    .cexpr .prog [16] false, .cexpr .progvars [11] false, .cexpr .prog [16, 18, 15] false,
    .cexpr .app [10, 5] false]

/-- The body of `f`. -/
def unappliedBody : Code := .match_ (.sym 9) [(.ctor 9 [12], .sym 12), (.default, .sym 11)]

/-- The symbols of the second file. -/
def unappliedSig : Signature := fun r =>
  if r = 10 then .program [11] unappliedBody
  else if r = 9 then .constructor 1
  else if r = 11 ∨ r = 12 then .var
  else .constructor 0

theorem unappliedHeap_named : ∀ name ∈ [5, 9, 10, 11, 12],
    Named unappliedSig unappliedHeap name := by
  simp [Named, unappliedSig, unappliedHeap]

theorem unappliedHeap_defines : Defines unappliedSig unappliedHeap := by
  intro name params body role
  have here : name = 10 ∧ params = [11] ∧ body = unappliedBody := by
    unfold unappliedSig at role
    split_ifs at role with first
    exact ⟨first, by simpa [eq_comm] using role⟩
  obtain ⟨rfl, rfl, rfl⟩ := here
  have case : BranchAt unappliedSig unappliedHeap 14 12 (.ctor 9 [12]) :=
    ⟨13, false, rfl, unappliedHeap_named 9 (by simp),
      .inr ⟨⟨false, rfl⟩, by simp [Symbolic, unappliedHeap]⟩⟩
  have default : BranchAt unappliedSig unappliedHeap 11 11 .default := rfl
  refine ⟨"f", 19, 16, 18, 15, false, false, rfl, rfl, rfl, ?_⟩
  exact @Encodes.match_ unappliedSig unappliedHeap 15 9 [14, 11] [12, 11] false _ _ rfl
    (.sym (unappliedHeap_named 9 (by simp))) rfl rfl (by simpa using ⟨case, default⟩)
    (by simpa using ⟨.sym (unappliedHeap_named 12 (by simp)),
      .sym (unappliedHeap_named 11 (by simp))⟩)

/-- What a run of some code after a file of commands returns. -/
def returnedAfter (lexemes code : List Lexeme) : Option (Option Ref) :=
  match codeAfter lexemes code with
  | some (e, runtime) =>
      match (runCode 20 e).run runtime with
      | .ok (result, _) => some result
      | .error _ => none
  | none => none

theorem run_of_returnedAfter {lexemes code : List Lexeme} {result : Option Ref}
    (found : returnedAfter lexemes code = some result) :
    ∃ e before after, codeAfter lexemes code = some (e, before) ∧
      (runCode 20 e).run before = .ok (result, after) := by
  unfold returnedAfter at found
  split at found
  · rename_i e before read
    split at found
    · rename_i value after run
      cases found
      exact ⟨e, before, after, read, run⟩
    · contradiction
  · contradiction

end Lfsc
