import Lfsc.Compiled.Frames
import Mathlib.Data.Rat.Lemmas

/-!
# Compiled side conditions compute what the evaluator says

One piece of written code sets its target to the value of the code and otherwise only adds
variables, by induction on the depth of the evaluation.
-/

namespace Lfsc

open Exec

namespace Compiled

section Preservation

variable {sig : Signature} {order : Ref → Ref → Bool} {text : Ref → String} {progs : List Ref}
  {symbols : String → Pointer} {bound taken syms : List String} {linked : Linked} {fuel : Nat}
  {before after : Writer} {locals : Locals} {env : Env}

mutual

/-- Names that code declares are names of variables of the program. -/
theorem proper_blockNames (proper : ∀ name ∈ bound, Proper text progs (getVarName name)) :
    ∀ (code : Code) (taken : List String), Admissible sig text progs symbols bound taken code →
      ∀ name ∈ blockNames text code, Proper text progs name
  | .apply _ args, taken, admissible => by
      rw [Admissible] at admissible
      rw [blockNames]
      exact proper_blockNamesAll proper args taken admissible.1
  | .do_ first second, taken, admissible => by
      rw [Admissible] at admissible
      rw [blockNames]
      exact List.forall_mem_append.mpr ⟨proper_blockNames proper first _ admissible.1,
        proper_blockNames proper second _ admissible.2⟩
  | .let_ var value body, taken, admissible => by
      rw [Admissible] at admissible
      obtain ⟨fresh, first, second⟩ := admissible
      rw [blockNames, List.forall_mem_cons]
      exact ⟨proper _ fresh.bound, List.forall_mem_append.mpr
        ⟨proper_blockNames proper value _ first, proper_blockNames proper body _ second⟩⟩
  | .arith _ left right, taken, admissible => by
      rw [Admissible] at admissible
      obtain ⟨-, first, second⟩ := admissible
      rw [blockNames]
      exact List.forall_mem_append.mpr ⟨proper_blockNames proper left _ first,
        proper_blockNames proper right _ second⟩
  | .neg operand, taken, admissible | .mpzToMpq operand, taken, admissible => by
      rw [Admissible] at admissible
      rw [blockNames]
      exact proper_blockNames proper operand _ admissible
  | .ifNumeral _ operand _ _, taken, admissible => by
      rw [Admissible] at admissible
      rw [blockNames]
      exact proper_blockNames proper operand _ admissible.1
  | .match_ scrutinee _, taken, admissible => by
      rw [Admissible] at admissible
      rw [blockNames]
      exact proper_blockNames proper scrutinee _ admissible.1
  | .int _, _, _ | .rat _, _, _ | .sym _, _, _ | .fail, _, _ | .ifMarked _ _ _ _, _, _
  | .compare _ _ _ _, _, _ | .ifEqual _ _ _ _, _, _ | .markVar _ _, _, _ => by
      simp [blockNames]

theorem proper_blockNamesAll (proper : ∀ name ∈ bound, Proper text progs (getVarName name)) :
    ∀ (args : List Code) (taken : List String),
      AdmissibleAll sig text progs symbols bound taken args →
      ∀ name ∈ blockNamesAll text args, Proper text progs name
  | [], _, _ => by simp [blockNamesAll]
  | arg :: rest, taken, admissible => by
      rw [AdmissibleAll] at admissible
      rw [blockNamesAll]
      exact List.forall_mem_append.mpr ⟨proper_blockNames proper arg _ admissible.1,
        proper_blockNamesAll proper rest _ admissible.2⟩

end

/-- What is written for some code sets its target to the value of the code, if the code has one to
some depth of evaluation. -/
def PreservesAt (sig : Signature) (order : Ref → Ref → Bool) (text : Ref → String)
    (progs : List Ref) (symbols : String → Pointer) (bound syms : List String) (linked : Linked)
    (fuel : Nat) (code : Code) : Prop :=
  ∀ (taken : List String) (target : String) (stmts : List Stmt)
    (before after : Writer) (locals : Locals) (env : Env) (pointer : Pointer) (value : Val),
    (writeCode sig text progs target code).run before = .ok (stmts, after) →
    Admissible sig text progs symbols bound taken code →
    Follows sig text progs bound taken before locals env →
    locals target = some pointer →
    (∀ var value, env var = some value → getVarName (text var) ≠ target) →
    after.globalSyms ⊆ syms →
    Yields sig order fuel env code value →
    value.Exact sig ∧ ∃ locals', execAll linked locals stmts = some locals' ∧
      Adds (blockNames text code) before after (Function.update locals target (some (some value)))
        locals'

/-- The same for all code. -/
def Preserves (sig : Signature) (order : Ref → Ref → Bool) (text : Ref → String)
    (progs : List Ref) (symbols : String → Pointer) (bound syms : List String) (linked : Linked)
    (fuel : Nat) : Prop :=
  ∀ code, PreservesAt sig order text progs symbols bound syms linked fuel code

/-- A value of an admissible symbol. -/
theorem yields_sym_cases {name : Ref} {value : Val}
    (admissible : Admissible sig text progs symbols bound taken (.sym name))
    (yields : Yields sig order (fuel + 1) env (.sym name) value) :
    env name = some value ∨
      value = .sym name ∧ sig name = .constructor 0 ∧ Found text symbols bound name := by
  rw [Admissible] at admissible
  obtain ⟨inScope, constant⟩ := yields_sym yields
  rcases admissible with role | ⟨role, found⟩
  · exact .inl (inScope role)
  · exact .inr ⟨constant 0 role, role, found⟩

section Expressions

variable (serves : Serves sig order text progs symbols syms linked fuel)
  (proper : ∀ name ∈ bound, Proper text progs (getVarName name))
  (preserves : Preserves sig order text progs symbols bound syms linked fuel)

include serves proper preserves

/-- `write_expr` keeps the value of the expression in a variable. -/
theorem preserves_writeExpr {code : Code} {stmts : List Stmt} {expr : String} {value : Val}
    (run : (writeExprWith text false code (writeCode sig text progs · code)).run before =
      .ok ((stmts, expr), after))
    (admissible : Admissible sig text progs symbols bound taken code)
    (follows : Follows sig text progs bound taken before locals env)
    (known : after.globalSyms ⊆ syms) (yields : Yields sig order fuel env code value) :
    value.Exact sig ∧ ∃ locals', execAll linked locals stmts = some locals' ∧
      Adds (blockNames text code) before after locals locals' ∧
      locals' expr = some (some value) ∧
      Follows sig text progs bound (blockNames text code ++ taken) after locals' env := by
  have grown : Grown bound before after := keeps_writeExpr admissible _ _ _ run
  suffices simulated : value.Exact sig ∧ ∃ locals', execAll linked locals stmts = some locals' ∧
      Adds (blockNames text code) before after locals locals' ∧
      locals' expr = some (some value) by
    obtain ⟨exact, locals', exec, adds, held⟩ := simulated
    exact ⟨exact, locals', exec, adds, held,
      follows.added adds grown (proper_blockNames proper code taken admissible)⟩
  refine simulates_writeExprWith serves run follows ?_
    (fun target => keeps_writeCode code taken target admissible) ?_
  · rintro name rfl member
    cases fuel with
    | zero => exact absurd yields not_yields_zero
    | succ fuel =>
        rcases yields_sym_cases admissible yields with inScope | ⟨-, -, found⟩
        · obtain ⟨-, held, exact⟩ := follows.value name value inScope
          exact ⟨exact, held⟩
        · rcases follows.within _ member with var | ⟨number, numbered⟩
          · exact absurd var found.unbound
          · exact absurd numbered (found.unnumbered number)
  · intro start middle written target locals writeRun follows declared apart same
    exact preserves code taken target written start middle locals env none value writeRun admissible
      follows declared apart (same ▸ known) yields

/-- The arguments of an application, one after the other. -/
theorem preserves_writeArgs {args : List Code} {stmts : List Stmt} {exprs : List String}
    {values : List Val}
    (run : (writeArgs sig text progs args).run before = .ok ((stmts, exprs), after))
    (admissible : AdmissibleAll sig text progs symbols bound taken args)
    (follows : Follows sig text progs bound taken before locals env)
    (known : after.globalSyms ⊆ syms)
    (yields : List.Forall₂ (Yields sig order fuel env) args values) :
    (∀ value ∈ values, value.Exact sig) ∧ ∃ locals', execAll linked locals stmts = some locals' ∧
      Adds (blockNamesAll text args) before after locals locals' ∧ Holds locals' exprs values ∧
      Follows sig text progs bound (blockNamesAll text args ++ taken) after locals' env := by
  induction yields generalizing taken before stmts exprs locals with
  | nil =>
      rw [writeArgs] at run
      obtain ⟨same, rfl⟩ := run_pure_ok.mp run
      cases same
      exact ⟨by simp, locals, by rw [execAll], adds_refl locals, .nil, follows⟩
  | @cons arg value rest values here _ hyp =>
      rw [AdmissibleAll] at admissible
      rw [writeArgs] at run
      obtain ⟨middle, ⟨written, expr⟩, argRun, run⟩ := run_bind_ok.mp run
      obtain ⟨last, ⟨more, others⟩, restRun, run⟩ := run_bind_ok.mp run
      obtain ⟨same, rfl⟩ := run_pure_ok.mp run
      cases same
      have grown : Grown bound before middle := keeps_writeExpr admissible.1 _ _ _ argRun
      have grown' : Grown bound middle last :=
        keeps_writeArgs rest _ admissible.2 _ _ _ restRun
      obtain ⟨exact, next, firstRun, adds, held, follows'⟩ := preserves_writeExpr serves proper
        preserves argRun admissible.1 follows (List.Subset.trans grown'.globalSyms known) here
      obtain ⟨each, final, secondRun, adds', holds, follows''⟩ := hyp restRun admissible.2 follows'
      refine ⟨by simpa using ⟨exact, each⟩, final, ?_, ?_, .cons (adds'.kept _ _ held) holds, ?_⟩
      · rw [execAll_append_of firstRun, secondRun]
      · rw [blockNamesAll]
        exact adds.trans adds' grown grown'
      · refine follows''.congr fun name => ?_
        simp only [blockNamesAll, List.mem_append]
        tauto

end Expressions

/-! ## Cases -/

/-- The constructors of the cases before the default. -/
def ctors : List (Pattern × Code) → List Ref
  | (.ctor ctor _, _) :: rest => ctor :: ctors rest
  | _ => []

theorem found_ctors {branches : List (Pattern × Code)}
    (admissible : AdmissibleBranches sig text progs symbols bound taken branches) :
    ∀ ctor ∈ ctors branches, Found text symbols bound ctor := by
  induction branches with
  | nil => simp [ctors]
  | cons branch rest hyp =>
      obtain ⟨pattern, body⟩ := branch
      cases pattern with
      | default => simp [ctors]
      | ctor name vars =>
          rw [AdmissibleBranches] at admissible
          obtain ⟨⟨-, found⟩, -, -, -, others⟩ := admissible
          rw [ctors, List.forall_mem_cons]
          exact ⟨found, hyp others⟩

/-- The constructors of the cases are kept in numbered variables. -/
theorem simulates_writeCtors (serves : Serves sig order text progs symbols syms linked fuel)
    {branches : List (Pattern × Code)} {stmts : List Stmt} {exprs : List String}
    (run : (writeCtors text branches).run before = .ok ((stmts, exprs), after))
    (found : ∀ ctor ∈ ctors branches, Found text symbols bound ctor)
    (follows : Follows sig text progs bound taken before locals env)
    (known : after.globalSyms ⊆ syms) :
    ∃ locals', execAll linked locals stmts = some locals' ∧
      Adds [] before after locals locals' ∧
      Holds locals' exprs ((ctors branches).map Val.sym) := by
  induction branches generalizing before stmts exprs locals with
  | nil =>
      obtain ⟨same, rfl⟩ := run_pure_ok.mp run
      cases same
      exact ⟨locals, by rw [execAll], adds_refl locals, .nil⟩
  | cons branch rest hyp =>
      obtain ⟨pattern, body⟩ := branch
      cases pattern with
      | default =>
          obtain ⟨same, rfl⟩ := run_pure_ok.mp run
          cases same
          exact ⟨locals, by rw [execAll], adds_refl locals, .nil⟩
      | ctor name vars =>
          rw [ctors, List.forall_mem_cons] at found
          obtain ⟨middle, ⟨written, expr⟩, ctorRun, run⟩ := run_bind_ok.mp run
          obtain ⟨last, ⟨more, others⟩, restRun, run⟩ := run_bind_ok.mp run
          obtain ⟨same, rfl⟩ := run_pure_ok.mp run
          cases same
          have grown : Grown bound before middle := keeps_writeCtor name _ _ _ ctorRun
          have grown' : Grown bound middle last := keeps_writeCtors rest _ _ _ restRun
          rw [writeCtor_eq] at ctorRun
          obtain ⟨next, firstRun, adds, held⟩ := simulates_writeFound serves ctorRun (by simp)
            found.1 follows (List.Subset.trans grown'.globalSyms known)
          obtain ⟨final, secondRun, adds', holds⟩ :=
            hyp restRun found.2 (follows.added adds grown (by simp))
          refine ⟨final, ?_, adds.trans adds' grown grown', .cons (adds'.kept _ _ held) holds⟩
          rw [execAll_append_of firstRun, secondRun]

/-- The variables of a pattern come into scope with the arguments of the scrutinee. -/
theorem simulates_writePattern (serves : Serves sig order text progs symbols syms linked fuel)
    (proper : ∀ name ∈ bound, Proper text progs (getVarName name)) {scrutinee : String}
    {head : Val} {done rest : List Val} {vars : List Ref} {stmts : List Stmt}
    (run : (writePattern text scrutinee done.length vars).run before = .ok (stmts, after))
    (fresh : ∀ var ∈ vars, Fresh sig text bound taken var)
    (distinct : (vars.map fun var => getVarName (text var)).Nodup)
    (length : vars.length = rest.length) (each : ∀ arg ∈ rest, arg.Exact sig)
    (follows : Follows sig text progs bound taken before locals env)
    (held : vars ≠ [] → locals scrutinee = some (some (.app head (done ++ rest)))) :
    ∃ locals', execAll linked locals stmts = some locals' ∧
      (∀ name pointer, locals name = some pointer → locals' name = some pointer) ∧
      Follows sig text progs bound ((vars.map fun var => getVarName (text var)) ++ taken) after
        locals' (env.bind (vars.zip rest)) := by
  induction vars generalizing before stmts locals env done rest taken with
  | nil =>
      obtain ⟨rfl, rfl⟩ := run_pure_ok.mp run
      exact ⟨locals, by rw [execAll], fun _ _ found => found, by simpa [Env.bind] using follows⟩
  | cons var vars hyp =>
      cases rest with
      | nil => simp at length
      | cons arg rest =>
          rw [List.forall_mem_cons] at fresh each
          rw [List.map_cons, List.nodup_cons] at distinct
          obtain ⟨_, _, addRun, run⟩ := run_bind_ok.mp run
          obtain rfl := run_modify_ok.mp addRun
          obtain ⟨last, more, restRun, run⟩ := run_bind_ok.mp run
          obtain ⟨rfl, rfl⟩ := run_pure_ok.mp run
          have properVar := proper _ fresh.1.bound
          have held := held (by simp)
          have taken_kid : exec linked locals (.kid (getVarName (text var)) scrutinee
              (done.length + 1)) =
              some (Function.update locals (getVarName (text var)) (some (some arg))) := by
            rw [exec, object_of_local held]
            simp [kidOf, declare, serves.read_var follows properVar fresh.1.untaken]
          have follows' := (follows.declare properVar fresh.1.untaken (some arg)).bind fresh.1.bound
            (by simp) each.1
          have other : scrutinee ≠ getVarName (text var) := by
            rintro rfl
            rw [follows.free_var properVar fresh.1.untaken] at held
            cases held
          have restRun' : (writePattern text scrutinee (done ++ [arg]).length vars).run
              { before with vars := before.vars ++ [text var] } = .ok (more, last) := by
            simpa using restRun
          obtain ⟨locals', written, kept, follows''⟩ := hyp restRun'
            (fun inner member => ⟨(fresh.2 inner member).role, (fresh.2 inner member).bound, by
              rw [List.mem_cons, not_or]
              refine ⟨fun same => distinct.1 ?_, (fresh.2 inner member).untaken⟩
              exact List.mem_map.mpr ⟨inner, member, same⟩⟩)
            distinct.2 (by simpa using length) each.2 follows'
            (fun _ => by simpa [Function.update_of_ne other] using held)
          refine ⟨locals', ?_, fun name pointer found => kept name pointer ?_, ?_⟩
          · rw [execAll_cons_of taken_kid, written]
          · rw [Function.update_of_ne]
            · exact found
            · rintro rfl
              rw [follows.free_var properVar fresh.1.untaken] at found
              cases found
          · refine follows''.congr fun name => ?_
            simp only [List.map_cons, List.cons_append, List.mem_append, List.mem_cons]
            tauto

/-- A value applied to arguments, as far as a pattern with arguments needs it. -/
theorem spine_app {value : Val} {vars : List Ref} (length : value.spine.2.length = vars.length)
    (some : vars ≠ []) : value = .app value.spine.1 ([] ++ value.spine.2) := by
  cases value with
  | app => rfl
  | _ =>
      simp only [Val.spine, List.length_nil] at length
      exact absurd (List.eq_nil_of_length_eq_zero length.symm) some

section Branches

variable (serves : Serves sig order text progs symbols syms linked fuel)
  (proper : ∀ name ∈ bound, Proper text progs (getVarName name))
  (preserves : Preserves sig order text progs symbols bound syms linked fuel)

include serves proper preserves

/-- The first case whose constructor is the head of the scrutinee is the one that the evaluator
takes. -/
theorem preserves_writeBranches {branches : List (Pattern × Code)} {target scrutinee : String}
    {exprs : List String} {cases : List (String × List Stmt)} {otherwise : List Stmt}
    {pointer : Pointer} {matched value : Val} {marks final : Marks}
    (run : (writeBranches sig text progs target scrutinee exprs branches).run before =
      .ok ((cases, otherwise), after))
    (admissible : AdmissibleBranches sig text progs symbols bound taken branches)
    (follows : Follows sig text progs bound taken before locals env)
    (declared : locals target = some pointer)
    (apart : ∀ var value, env var = some value → getVarName (text var) ≠ target)
    (known : after.globalSyms ⊆ syms) (held : locals scrutinee = some (some matched))
    (exact : matched.Exact sig) (holds : Holds locals exprs ((ctors branches).map Val.sym))
    (taken_branch : (evalBranches (eval sig order fuel) env matched branches).run marks =
      .ok (some value, final)) :
    value.Exact sig ∧ ∃ locals',
      execCases linked locals matched.getHead (execAll linked locals otherwise) cases =
        some locals' ∧
      ∀ name pointer, Function.update locals target (some (some value)) name = some pointer →
        locals' name = some pointer := by
  induction branches generalizing before exprs cases otherwise marks with
  | nil => cases (run_pure_ok.mp taken_branch).1
  | cons branch rest hyp =>
      obtain ⟨pattern, body⟩ := branch
      cases pattern with
      | default =>
          rw [AdmissibleBranches] at admissible
          rw [writeBranches] at run
          obtain ⟨middle, written, bodyRun, run⟩ := run_bind_ok.mp run
          obtain ⟨same, rfl⟩ := run_pure_ok.mp run
          cases same
          obtain ⟨exact', locals', bodyExec, adds⟩ := preserves body taken target _ before middle
            locals env pointer value bodyRun admissible.1 follows declared apart known
            ⟨marks, final, taken_branch⟩
          exact ⟨exact', locals', by rw [execCases, bodyExec], adds.kept⟩
      | ctor name vars =>
          rw [AdmissibleBranches] at admissible
          obtain ⟨⟨role, -⟩, fresh, distinct, inner, others⟩ := admissible
          rw [writeBranches] at run
          obtain ⟨first, kids, kidsRun, run⟩ := run_bind_ok.mp run
          obtain ⟨middle, written, bodyRun, run⟩ := run_bind_ok.mp run
          obtain ⟨last, ⟨cases', otherwise'⟩, restRun, run⟩ := run_bind_ok.mp run
          obtain ⟨same, rfl⟩ := run_pure_ok.mp run
          cases same
          have grown : Grown bound before first :=
            keeps_writePattern (fun var member => (fresh var member).bound) _ _ _ kidsRun
          have grown' : Grown bound first middle :=
            keeps_writeCode body _ target inner _ _ _ bodyRun
          have grown'' : Grown bound middle last :=
            keeps_writeBranches rest taken target scrutinee exprs.tail others _ _ _ restRun
          cases holds with
          | @cons expr _ exprs _ here more =>
              rw [List.headD_cons, execCases, object_of_local here]
              simp only [Option.bind_eq_bind, Option.bind_some]
              by_cases headed : matched.getHead = .sym name
              · rw [if_pos headed]
                have top : matched.spine.1 = .sym name := exact.getHead_eq.symm.trans headed
                have length := exact.spine_length_eq top role
                simp only [evalBranches, Pattern.matches, top, length, true_and, if_true]
                  at taken_branch
                obtain ⟨next, kidsExec, kept, follows'⟩ :=
                  simulates_writePattern serves proper kidsRun fresh distinct length.symm
                    exact.spine_exact follows fun some => (spine_app length some) ▸ held
                have target_ne : ∀ var value, env.bind (vars.zip matched.spine.2) var = some value →
                    getVarName (text var) ≠ target := by
                  intro var inner found same
                  rcases bind_cases found with member | old
                  · obtain ⟨⟨other, arg⟩, pair, rfl⟩ := List.mem_map.mp member
                    have new := fresh other (List.of_mem_zip pair).1
                    rw [← same, follows.free_var (proper _ new.bound) new.untaken] at declared
                    cases declared
                  · exact apart var inner old same
                obtain ⟨exact', locals', bodyExec, adds⟩ := preserves body _ target _ first middle
                  next _ pointer value bodyRun inner follows' (kept _ _ declared) target_ne
                  (List.Subset.trans grown''.globalSyms known) ⟨marks, final, taken_branch⟩
                refine ⟨exact', locals', ?_, fun name pointer found => adds.kept _ _ ?_⟩
                · rw [execAll_append_of kidsExec, bodyExec]
                · by_cases same : name = target
                  · subst same
                    simpa using found
                  · rw [Function.update_of_ne same] at found ⊢
                    exact kept _ _ found
              · rw [if_neg headed]
                have unmatched : ¬ (matched.spine.1 = .sym name ∧
                    matched.spine.2.length = vars.length) :=
                  fun both => headed (exact.getHead_eq.trans both.1)
                simp only [evalBranches, Pattern.matches, if_neg unmatched] at taken_branch
                exact hyp restRun others (follows.grown (IsTrans.trans _ _ _ grown grown')) more
                  taken_branch

end Branches

/-! ## Constructs -/

/-- The target is assigned a value, and no variable is added. -/
theorem execAll_assign {stmt : Stmt} {target : String} {pointer : Pointer} {value : Val}
    (declared : locals target = some pointer)
    (assigns : exec linked locals stmt = assign locals target (some value)) :
    execAll linked locals [stmt, .inc target] =
      some (Function.update locals target (some (some value))) := by
  rw [assign_of_declared declared] at assigns
  rw [execAll_cons_of assigns, execAll_cons_of (exec_inc ⟨value, by simp⟩), execAll]

theorem preserves_int (number : Int) :
    PreservesAt sig order text progs symbols bound syms linked (fuel + 1) (.int number) := by
  intro taken target stmts before after locals env pointer value run admissible follows declared
    apart known yields
  obtain rfl := yields_int yields
  rw [Admissible] at admissible
  rw [writeCode, admissible] at run
  obtain ⟨rfl, rfl⟩ := run_pure_ok.mp run
  exact ⟨.int number, _, execAll_assign declared (by rw [exec]), adds_refl _⟩

theorem preserves_rat (number : Rat) :
    PreservesAt sig order text progs symbols bound syms linked (fuel + 1) (.rat number) := by
  intro taken target stmts before after locals env pointer value run admissible follows declared
    apart known yields
  obtain rfl := yields_rat yields
  rw [Admissible] at admissible
  rw [writeCode, admissible.1, admissible.2] at run
  obtain ⟨rfl, rfl⟩ := run_pure_ok.mp run
  refine ⟨.rat number, _, execAll_assign declared ?_, adds_refl _⟩
  rw [exec, if_neg (by simp)]
  simp [Rat.num_div_den]

theorem preserves_fail :
    PreservesAt sig order text progs symbols bound syms linked (fuel + 1) .fail := by
  intro taken target stmts before after locals env pointer value run admissible follows declared
    apart known yields
  exact absurd yields not_yields_fail

theorem preserves_sym (serves : Serves sig order text progs symbols syms linked fuel) (name : Ref) :
    PreservesAt sig order text progs symbols bound syms linked (fuel + 1) (.sym name) := by
  intro taken target stmts before after locals env pointer value run admissible follows declared
    apart known yields
  rw [writeCode] at run
  rcases yields_sym_cases admissible yields with inScope | ⟨rfl, role, found⟩
  · obtain ⟨member, held, exact⟩ := follows.value name value inScope
    rcases run_writeSym bound run with ⟨-, rfl, rfl⟩ | ⟨unknown, -⟩
    · refine ⟨exact, _, execAll_assign declared ?_, adds_refl _⟩
      rw [exec, read_of_local held]
      rfl
    · exact absurd member unknown
  · exact ⟨.sym role, _, simulates_writeSym serves run found follows declared known, adds_refl _⟩

section Compound

variable (serves : Serves sig order text progs symbols syms linked (fuel + 1))
  (proper : ∀ name ∈ bound, Proper text progs (getVarName name))
  (preserves : Preserves sig order text progs symbols bound syms linked fuel)

include serves proper preserves

theorem preserves_do (first second : Code) :
    PreservesAt sig order text progs symbols bound syms linked (fuel + 1) (.do_ first second) := by
  intro taken target stmts before after locals env pointer value run admissible follows declared
    apart known yields
  obtain ⟨⟨ignored, yields₁⟩, yields₂⟩ := yields_do yields
  rw [Admissible] at admissible
  rw [writeCode] at run
  obtain ⟨middle, ⟨written, expr⟩, firstRun, run⟩ := run_bind_ok.mp run
  obtain ⟨last, more, secondRun, run⟩ := run_bind_ok.mp run
  obtain ⟨rfl, rfl⟩ := run_pure_ok.mp run
  have grown : Grown bound before middle := keeps_writeExpr admissible.1 _ _ _ firstRun
  have grown' : Grown bound middle last :=
    keeps_writeCode second _ target admissible.2 _ _ _ secondRun
  obtain ⟨-, next, firstExec, adds, held, follows'⟩ := preserves_writeExpr
    (serves.mono (Nat.le_succ _)) proper preserves firstRun admissible.1 follows
    (List.Subset.trans grown'.globalSyms known) yields₁
  obtain ⟨exact, locals', secondExec, adds'⟩ := preserves second _ target more middle last next env
    pointer value secondRun admissible.2 follows' (adds.kept _ _ declared) apart known yields₂
  refine ⟨exact, locals', ?_, ?_⟩
  · rw [execAll_append_of firstExec, execAll_cons_of (exec_dec ⟨_, held⟩), secondExec]
  · rw [blockNames]
    exact (adds.update declared _).trans adds' grown grown'

theorem preserves_let (var : Ref) (bound' body : Code) :
    PreservesAt sig order text progs symbols bound syms linked (fuel + 1)
      (.let_ var bound' body) := by
  intro taken target stmts before after locals env pointer value run admissible follows declared
    apart known yields
  obtain ⟨inner, yields₁, yields₂⟩ := yields_let yields
  rw [Admissible] at admissible
  obtain ⟨fresh, first, second⟩ := admissible
  rw [writeCode] at run
  obtain ⟨middle, written, firstRun, run⟩ := run_bind_ok.mp run
  obtain ⟨_, _, addRun, run⟩ := run_bind_ok.mp run
  obtain rfl := run_modify_ok.mp addRun
  obtain ⟨last, more, secondRun, run⟩ := run_bind_ok.mp run
  obtain ⟨rfl, rfl⟩ := run_pure_ok.mp run
  set name := getVarName (text var) with name_eq
  have properName : Proper text progs name := proper _ fresh.bound
  have free : locals name = none := follows.free_var properName fresh.untaken
  have grown : Grown bound before middle := keeps_writeCode bound' _ name first _ _ _ firstRun
  have grown' : Grown bound middle last := IsTrans.trans _ _ _
    (grown_addVar middle (.inl fresh.bound)) (keeps_writeCode body _ target second _ _ _ secondRun)
  have declares : exec linked locals (.declare false name) =
      some (Function.update locals name (some none)) :=
    exec_declare (serves.read_var follows properName fresh.untaken)
  have apart' : ∀ other inner, env other = some inner → getVarName (text other) ≠ name := by
    intro other inner found same
    obtain ⟨-, held, -⟩ := follows.value other inner found
    rw [same, free] at held
    cases held
  have target_ne : target ≠ name := by
    rintro rfl
    rw [free] at declared
    cases declared
  have follows₁ := follows.declare properName fresh.untaken none
  obtain ⟨exact₁, next, firstExec, adds⟩ := preserves bound' _ name written before middle
    (Function.update locals name (some none)) env none inner firstRun first follows₁ (by simp)
    apart' (List.Subset.trans grown'.globalSyms known) yields₁
  have held : next name = some (some inner) := adds.kept _ _ (by simp)
  have follows₂ := ((follows₁.update (Function.update_self _ _ _) apart' (some inner)).added adds
    grown (proper_blockNames proper bound' _ first)).bind fresh.bound held exact₁
  have declared' : next target = some pointer :=
    adds.kept _ _ (by simp [Function.update_of_ne target_ne, declared])
  have apart₂ : ∀ other value, Function.update env var (some inner) other = some value →
      getVarName (text other) ≠ target := by
    intro other value found same
    by_cases here : other = var
    · subst here
      exact target_ne same.symm
    · rw [Function.update_of_ne here] at found
      exact apart other value found same
  obtain ⟨exact, locals', secondExec, adds'⟩ := preserves body _ target more _ last next _ pointer
    value secondRun second follows₂ declared' apart₂ known yields₂
  have kept : locals' name = some (some inner) :=
    adds'.kept _ _ (by rw [Function.update_of_ne target_ne.symm, held])
  have adds₁ : Adds [name] before before locals
      (Function.update (Function.update locals name (some none)) name (some (some inner))) := by
    rw [Function.update_idem]
    exact adds_declare free (.inl (by simp)) _
  have whole := (adds₁.trans adds (Std.Refl.refl _) grown).update declared
    (some (some value))
  refine ⟨exact, locals', ?_, ?_⟩
  · rw [List.cons_append, List.cons_append, execAll_cons_of declares, List.append_assoc,
      execAll_append_of firstExec, execAll_append_of secondExec,
      execAll_cons_of (exec_dec ⟨_, kept⟩), execAll]
  · rw [blockNames]
    exact whole.trans (adds'.grown (grown_addVar middle (.inl fresh.bound)) (Std.Refl.refl _)) grown
      grown'

theorem preserves_arith (op : Op) (left right : Code) :
    PreservesAt sig order text progs symbols bound syms linked (fuel + 1)
      (.arith op left right) := by
  intro taken target stmts before after locals env pointer value run admissible follows declared
    apart known yields
  obtain ⟨m, n, yields₁, yields₂, result⟩ := yields_arith yields
  rw [Admissible] at admissible
  obtain ⟨exactly, first, second⟩ := admissible
  rw [writeCode] at run
  obtain ⟨middle, ⟨written, expr₁⟩, firstRun, run⟩ := run_bind_ok.mp run
  obtain ⟨next, ⟨more, expr₂⟩, secondRun, run⟩ := run_bind_ok.mp run
  obtain ⟨last, number, numberRun, run⟩ := run_bind_ok.mp run
  obtain ⟨rfl, rfl⟩ := run_pure_ok.mp run
  have grown : Grown bound before middle := keeps_writeExpr first _ _ _ firstRun
  have grown' : Grown bound middle next := keeps_writeExpr second _ _ _ secondRun
  have grown'' : Grown bound next last := keeps_newNumber _ _ _ numberRun
  obtain ⟨rfl, -⟩ := run_newNumber numberRun
  have serves' := serves.mono (Nat.le_succ fuel)
  have known' := List.Subset.trans grown''.globalSyms known
  obtain ⟨-, locals₁, firstExec, adds, held, follows₁⟩ := preserves_writeExpr serves' proper
    preserves firstRun first follows (List.Subset.trans grown'.globalSyms known') yields₁
  obtain ⟨-, locals₂, secondExec, adds', held', follows₂⟩ := preserves_writeExpr serves' proper
    preserves secondRun second follows₁ known' yields₂
  have declared' : locals₂ target = some pointer := adds'.kept _ _ (adds.kept _ _ declared)
  have assigned : exec linked locals₂ (.arith (if op = .add then .add else .mul) op
      (numberName next.rnumCount) target expr₁ expr₂) =
      some (Function.update locals₂ target (some (some value))) :=
    exec_arith exactly (serves.unnamed_number follows₂) declared' (adds'.kept _ _ held) held' result
  refine ⟨Val.arith_exact result, Function.update locals₂ target (some (some value)), ?_, ?_⟩
  · rw [List.append_assoc, execAll_append_of firstExec, execAll_append_of secondExec,
      execAll_cons_of assigned,
      execAll_cons_of (exec_dec (Points.update ⟨_, adds'.kept _ _ held⟩ _ _)),
      execAll_cons_of (exec_dec (Points.update ⟨_, held'⟩ _ _)), execAll]
  · rw [blockNames]
    exact ((adds.trans adds' grown grown').update declared _).grown (Std.Refl.refl _) grown''

theorem preserves_neg (operand : Code) :
    PreservesAt sig order text progs symbols bound syms linked (fuel + 1) (.neg operand) := by
  intro taken target stmts before after locals env pointer value run admissible follows declared
    apart known yields
  obtain ⟨inner, yields', result⟩ := yields_neg yields
  rw [Admissible] at admissible
  rw [writeCode] at run
  obtain ⟨middle, ⟨written, expr⟩, operandRun, run⟩ := run_bind_ok.mp run
  obtain ⟨last, number, numberRun, run⟩ := run_bind_ok.mp run
  obtain ⟨rfl, rfl⟩ := run_pure_ok.mp run
  have grown : Grown bound middle last := keeps_newNumber _ _ _ numberRun
  obtain ⟨rfl, -⟩ := run_newNumber numberRun
  obtain ⟨-, locals', operandExec, adds, held, follows'⟩ := preserves_writeExpr
    (serves.mono (Nat.le_succ _)) proper preserves operandRun admissible follows
    (List.Subset.trans grown.globalSyms known) yields'
  have assigned := exec_neg (serves.unnamed_number follows') (adds.kept _ _ declared) held result
  refine ⟨Val.neg_exact result, Function.update locals' target (some (some value)), ?_, ?_⟩
  · rw [execAll_append_of operandExec, execAll_cons_of assigned,
      execAll_cons_of (exec_dec (Points.update ⟨_, held⟩ _ _)), execAll]
  · rw [blockNames]
    exact (adds.update declared _).grown (Std.Refl.refl _) grown

theorem preserves_mpzToMpq (operand : Code) :
    PreservesAt sig order text progs symbols bound syms linked (fuel + 1)
      (.mpzToMpq operand) := by
  intro taken target stmts before after locals env pointer value run admissible follows declared
    apart known yields
  obtain ⟨integer, yields', rfl⟩ := yields_mpzToMpq yields
  rw [Admissible] at admissible
  rw [writeCode] at run
  obtain ⟨middle, ⟨written, expr⟩, operandRun, run⟩ := run_bind_ok.mp run
  obtain ⟨last, number, numberRun, run⟩ := run_bind_ok.mp run
  obtain ⟨rfl, rfl⟩ := run_pure_ok.mp run
  have grown : Grown bound before middle := keeps_writeExpr admissible _ _ _ operandRun
  have grown' : Grown bound middle last := keeps_newNumber _ _ _ numberRun
  obtain ⟨rfl, rfl⟩ := run_newNumber numberRun
  obtain ⟨-, locals', operandExec, adds, held, follows'⟩ := preserves_writeExpr
    (serves.mono (Nat.le_succ _)) proper preserves operandRun admissible follows
    (List.Subset.trans grown'.globalSyms known) yields'
  have free : locals' (numberName middle.rnumCount) = none := follows'.free_number le_rfl
  have assigned := exec_toRational (serves.read_number follows') (adds.kept _ _ declared) held
  set next := Function.update locals' (numberName middle.rnumCount) (some none)
  have numbered : Adds [] middle { middle with rnumCount := middle.rnumCount + 1 } locals' next :=
    adds_declare free (.inr (.inr ⟨middle.rnumCount, le_rfl, Nat.lt_succ_self _, rfl⟩)) _
  refine ⟨.rat integer, Function.update next target (some (some (.rat integer))), ?_, ?_⟩
  · rw [execAll_append_of operandExec, execAll_cons_of assigned,
      execAll_cons_of (exec_dec (Points.update ⟨_, numbered.kept _ _ held⟩ _ _)), execAll]
  · rw [blockNames]
    simpa using ((adds.trans numbered grown grown').update declared _)

omit serves proper in
/-- A block that is written for a branch. -/
theorem preserves_block {code : Code} {target : String} {stmts : List Stmt} {pointer : Pointer}
    {value : Val} (run : (writeCode sig text progs target code).run before = .ok (stmts, after))
    (admissible : Admissible sig text progs symbols bound taken code)
    (follows : Follows sig text progs bound taken before locals env)
    (declared : locals target = some pointer)
    (apart : ∀ var value, env var = some value → getVarName (text var) ≠ target)
    (known : after.globalSyms ⊆ syms) (yields : Yields sig order fuel env code value) :
    value.Exact sig ∧ ∃ locals', execAll linked locals stmts = some locals' ∧
      leave locals locals' = Function.update locals target (some (some value)) := by
  obtain ⟨exact, locals', exec, adds⟩ := preserves code taken target stmts before after locals env
    pointer value run admissible follows declared apart known yields
  exact ⟨exact, locals', exec, leave_eq declared adds.kept⟩

theorem preserves_ifNumeral (op : Op) (operand yes no : Code) :
    PreservesAt sig order text progs symbols bound syms linked (fuel + 1)
      (.ifNumeral op operand yes no) := by
  intro taken target stmts before after locals env pointer value run admissible follows declared
    apart known yields
  obtain ⟨inner, condition, yields₁, tested, yields₂⟩ := yields_ifNumeral yields
  rw [Admissible] at admissible
  obtain ⟨first, second, third⟩ := admissible
  rw [writeCode] at run
  obtain ⟨start, ⟨written, expr⟩, operandRun, run⟩ := run_bind_ok.mp run
  obtain ⟨writer₁, intYes, run₁, run⟩ := run_bind_ok.mp run
  obtain ⟨writer₂, intNo, run₂, run⟩ := run_bind_ok.mp run
  obtain ⟨writer₃, ratYes, run₃, run⟩ := run_bind_ok.mp run
  obtain ⟨writer₄, ratNo, run₄, run⟩ := run_bind_ok.mp run
  obtain ⟨rfl, rfl⟩ := run_pure_ok.mp run
  have grown : Grown bound before start := keeps_writeExpr first _ _ _ operandRun
  have grown₁ : Grown bound start writer₁ := keeps_writeCode yes _ target second _ _ _ run₁
  have grown₂ : Grown bound writer₁ writer₂ := keeps_writeCode no _ target third _ _ _ run₂
  have grown₃ : Grown bound writer₂ writer₃ := keeps_writeCode yes _ target second _ _ _ run₃
  have grown₄ : Grown bound writer₃ writer₄ := keeps_writeCode no _ target third _ _ _ run₄
  have known₃ := List.Subset.trans grown₄.globalSyms known
  have known₂ := List.Subset.trans grown₃.globalSyms known₃
  have known₁ := List.Subset.trans grown₂.globalSyms known₂
  obtain ⟨-, locals₁, operandExec, adds, held, follows₁⟩ := preserves_writeExpr
    (serves.mono (Nat.le_succ _)) proper preserves operandRun first follows
    (List.Subset.trans grown₁.globalSyms known₁) yields₁
  have follows₂ := follows₁.grown grown₁
  have follows₃ := follows₂.grown grown₂
  have follows₄ := follows₃.grown grown₃
  have declared₁ := adds.kept _ _ declared
  have branch : value.Exact sig ∧ exec linked locals₁
      (.ifNumeral op expr intYes intNo ratYes ratNo) =
      some (Function.update locals₁ target (some (some value))) := by
    cases inner with
    | int number =>
        cases condition with
        | true =>
            obtain ⟨exact, locals', exec, left⟩ := preserves_block preserves run₁ second follows₁
              declared₁ apart known₁ yields₂
            exact ⟨exact, left ▸ exec_ifNumeral_int held tested exec⟩
        | false =>
            obtain ⟨exact, locals', exec, left⟩ := preserves_block preserves run₂ third follows₂
              declared₁ apart known₂ yields₂
            exact ⟨exact, left ▸ exec_ifNumeral_int held tested exec⟩
    | rat number =>
        cases condition with
        | true =>
            obtain ⟨exact, locals', exec, left⟩ := preserves_block preserves run₃ second follows₃
              declared₁ apart known₃ yields₂
            exact ⟨exact, left ▸ exec_ifNumeral_rat held tested exec⟩
        | false =>
            obtain ⟨exact, locals', exec, left⟩ := preserves_block preserves run₄ third follows₄
              declared₁ apart known yields₂
            exact ⟨exact, left ▸ exec_ifNumeral_rat held tested exec⟩
    | _ => cases tested
  refine ⟨branch.1, Function.update locals₁ target (some (some value)), ?_, ?_⟩
  · rw [execAll_append_of operandExec, execAll_cons_of branch.2,
      execAll_cons_of (exec_dec (Points.update ⟨_, held⟩ _ _)), execAll]
  · rw [blockNames]
    exact (adds.update declared _).grown (Std.Refl.refl _)
      (IsTrans.trans _ _ _ (IsTrans.trans _ _ _ grown₁ grown₂) (IsTrans.trans _ _ _ grown₃ grown₄))

theorem preserves_match (scrutinee : Code) (branches : List (Pattern × Code)) :
    PreservesAt sig order text progs symbols bound syms linked (fuel + 1)
      (.match_ scrutinee branches) := by
  intro taken target stmts before after locals env pointer value run admissible follows declared
    apart known yields
  obtain ⟨matched, yields', marks, final, chosen⟩ := yields_match yields
  rw [Admissible] at admissible
  obtain ⟨first, headed, others⟩ := admissible
  rw [writeCode] at run
  obtain ⟨_, _, demandRun, run⟩ := run_bind_ok.mp run
  obtain ⟨start, ⟨written, expr⟩, operandRun, run⟩ := run_bind_ok.mp run
  obtain ⟨_, head, headRun, run⟩ := run_bind_ok.mp run
  obtain ⟨middle, ⟨more, exprs⟩, argsRun, run⟩ := run_bind_ok.mp run
  obtain ⟨last, ⟨cases', otherwise⟩, casesRun, run⟩ := run_bind_ok.mp run
  obtain ⟨rfl, rfl⟩ := run_pure_ok.mp run
  obtain ⟨-, rfl⟩ := run_demand demandRun
  have grown : Grown bound before start := keeps_writeExpr first _ _ _ operandRun
  obtain ⟨rfl, rfl⟩ := run_newExpr headRun
  set head := exprName start.exprCount with head_eq
  have ctorsOnly : writeMatchArgs sig text progs branches = writeCtors text branches := by
    rw [writeMatchArgs]
    rintro body rfl
    exact headed rfl
  rw [ctorsOnly] at argsRun
  have grown₂ : Grown bound start { start with exprCount := start.exprCount + 1 } :=
    grown_newExpr start
  have grown₃ : Grown bound { start with exprCount := start.exprCount + 1 } middle :=
    keeps_writeCtors branches _ _ _ argsRun
  have grown' : Grown bound start middle := IsTrans.trans _ _ _ grown₂ grown₃
  have grown'' : Grown bound middle last :=
    keeps_writeBranches branches _ target expr exprs others _ _ _ casesRun
  have known' := List.Subset.trans grown''.globalSyms known
  have serves' := serves.mono (Nat.le_succ fuel)
  obtain ⟨exact, locals₁, operandExec, adds₁, held, follows₁⟩ := preserves_writeExpr serves' proper
    preserves operandRun first follows (List.Subset.trans grown'.globalSyms known') yields'
  have headExec : exec linked locals₁ (.head head expr) =
      some (Function.update locals₁ head (some (some matched.getHead))) :=
    exec_head (serves.read_expr follows₁ le_rfl) held
  have adds₂ : Adds [] start { start with exprCount := start.exprCount + 1 } locals₁
      (Function.update locals₁ head (some (some matched.getHead))) :=
    adds_declare (follows₁.free_expr le_rfl)
      (.inr (.inl ⟨start.exprCount, le_rfl, Nat.lt_succ_self _, head_eq⟩)) _
  obtain ⟨locals₃, argsExec, adds₃, holds⟩ := simulates_writeCtors serves argsRun
    (found_ctors others) (follows₁.added adds₂ grown₂ (by simp)) known'
  have adds₁₃ : Adds [] start middle locals₁ locals₃ := adds₂.trans adds₃ grown₂ grown₃
  have declared₃ : locals₃ target = some pointer := adds₁₃.kept _ _ (adds₁.kept _ _ declared)
  have held₃ : locals₃ expr = some (some matched) := adds₁₃.kept _ _ held
  have head₃ : locals₃ head = some (some matched.getHead) := adds₃.kept _ _ (by simp)
  obtain ⟨exact', locals₄, casesExec, kept⟩ := preserves_writeBranches serves' proper preserves
    casesRun others (follows₁.added adds₁₃ grown' (by simp)) declared₃ apart known held₃ exact holds
    chosen
  have chosenExec := exec_cases head₃ casesExec
  rw [leave_eq declared₃ kept] at chosenExec
  refine ⟨exact', Function.update locals₃ target (some (some value)), ?_, ?_⟩
  · rw [List.append_assoc, execAll_append_of operandExec, List.cons_append,
      execAll_cons_of headExec, execAll_append_of argsExec, execAll_cons_of chosenExec,
      execAll_cons_of (exec_dec (Points.update ⟨_, held₃⟩ _ _))]
    exact execAll_dec fun expr member => (holds.points expr member).update target value
  · rw [blockNames]
    simpa using
      ((adds₁.trans adds₁₃ grown grown').update declared _).grown (Std.Refl.refl _) grown''

theorem preserves_apply (head : Ref) (args : List Code) :
    PreservesAt sig order text progs symbols bound syms linked (fuel + 1) (.apply head args) := by
  intro taken target stmts before after locals env pointer value run admissible follows declared
    apart known yields
  obtain ⟨values, yields', call, construct⟩ := yields_apply yields
  rw [Admissible] at admissible
  obtain ⟨each, applied⟩ := admissible
  rw [writeCode] at run
  obtain ⟨middle, ⟨written, exprs⟩, argsRun, run⟩ := run_bind_ok.mp run
  have grown : Grown bound before middle := keeps_writeArgs args taken each _ _ _ argsRun
  have length := yields'.length_eq
  cases role : sig head with
  | var =>
      rw [role] at applied
      exact applied.elim
  | program params body =>
      rw [role] at applied
      obtain ⟨params_length, member⟩ := applied
      simp only [role, member, decide_true] at run
      obtain ⟨rfl, rfl⟩ := run_pure_ok.mp run
      obtain ⟨exact, locals', argsExec, adds, holds, follows'⟩ := preserves_writeArgs
        (serves.mono (Nat.le_succ _)) proper preserves argsRun each follows known yields'
      have params_values : params.length = values.length := params_length.trans length
      obtain ⟨returned, exact'⟩ := serves.calls fuel (Nat.lt_succ_self _) head member params body
        values value role params_values exact (call params body role params_values)
      have called := exec_call (serves.unnamed_function follows' member)
        (adds.kept _ _ declared) holds returned
      refine ⟨exact', Function.update locals' target (some (some value)), ?_, ?_⟩
      · rw [execAll_append_of argsExec, execAll_cons_of called]
        exact execAll_dec fun expr member => (holds.points expr member).update target value
      · rw [blockNames]
        exact adds.update declared _
  | constructor arity =>
      rw [role] at applied
      obtain ⟨rfl, found⟩ := applied
      simp only [role] at run
      obtain ⟨last, ⟨more, expr⟩, headRun, run⟩ := run_bind_ok.mp run
      obtain ⟨_, _, demandRun, run⟩ := run_bind_ok.mp run
      obtain ⟨⟨nonempty, -⟩, rfl⟩ := run_demand demandRun
      obtain ⟨rfl, rfl⟩ := run_pure_ok.mp run
      have grown' : Grown bound middle last := keeps_writeHead head _ _ _ headRun
      obtain ⟨exact, locals₁, argsExec, adds, holds, follows₁⟩ := preserves_writeArgs
        (serves.mono (Nat.le_succ _)) proper preserves argsRun each follows
        (List.Subset.trans grown'.globalSyms known) yields'
      simp only [writeHead, role] at headRun
      obtain ⟨locals₂, headExec, adds', held⟩ := simulates_writeFound serves headRun
        (by simp) found follows₁ known
      have holds₂ := holds.adds adds'
      have built : exec linked locals₂ (.newApp target expr exprs) =
          some (Function.update locals₂ target (some (some (.app (.sym head) values)))) :=
        exec_newApp (adds'.kept _ _ (adds.kept _ _ declared)) held holds₂
      have applied : value = .app (.sym head) values := by
        rw [construct _ role, Val.apply, if_neg]
        rintro rfl
        rw [holds.length_eq] at nonempty
        exact absurd nonempty (Nat.lt_irrefl 0)
      subst applied
      refine ⟨.apply (length ▸ role) ?_ exact,
        Function.update locals₂ target (some (some (.app (.sym head) values))), ?_, ?_⟩
      · rintro rfl
        rw [holds.length_eq] at nonempty
        exact absurd nonempty (Nat.lt_irrefl 0)
      · rw [List.append_assoc, execAll_append_of argsExec, execAll_append_of headExec,
          execAll_cons_of built, execAll]
      · rw [blockNames]
        simpa using (adds.trans adds' grown grown').update declared _

end Compound

/-- Written code computes what the evaluator says, whatever the depth of the evaluation. -/
theorem preserves_all (proper : ∀ name ∈ bound, Proper text progs (getVarName name))
    (serves : Serves sig order text progs symbols syms linked fuel) :
    Preserves sig order text progs symbols bound syms linked fuel := by
  induction fuel with
  | zero =>
      intro code taken target stmts before after locals env pointer value _ _ _ _ _ _ yields
      exact absurd yields not_yields_zero
  | succ fuel hyp =>
      have preserves := hyp (serves.mono (Nat.le_succ fuel))
      intro code
      cases code with
      | int number => exact preserves_int number
      | rat number => exact preserves_rat number
      | sym name => exact preserves_sym serves name
      | apply head args => exact preserves_apply serves proper preserves head args
      | fail => exact preserves_fail
      | do_ first second => exact preserves_do serves proper preserves first second
      | let_ var value body => exact preserves_let serves proper preserves var value body
      | arith op left right => exact preserves_arith serves proper preserves op left right
      | neg operand => exact preserves_neg serves proper preserves operand
      | mpzToMpq operand => exact preserves_mpzToMpq serves proper preserves operand
      | ifNumeral op operand yes no =>
          exact preserves_ifNumeral serves proper preserves op operand yes no
      | match_ scrutinee branches =>
          exact preserves_match serves proper preserves scrutinee branches
      | _ =>
          intro taken target stmts before after locals env pointer value run admissible
          rw [Admissible] at admissible
          exact admissible.elim

end Preservation

end Compiled

end Lfsc
