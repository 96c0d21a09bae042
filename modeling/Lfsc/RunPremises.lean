import Lfsc.Modes
import Lfsc.Shapes

/-!
# Run premises of an application

The type of the head of an application may contain side conditions among its domains.  The argument
loop executes those before an argument when it comes to them; behind the last argument at most one
is executed.  The premises of a type are first described without reference to the loop.
-/

namespace Lfsc

open Exec

/-! ## Types with run premises -/

/-- A type that stands, through definitions, for a pi abstraction, with its domain and range. -/
structure StandsForPi (heap : List Node) (type pi domain range : Ref) : Prop where
  follows : followDefs heap type = some pi
  op : opOf heap pi = some .pi
  hasDomain : (kidsAt heap pi)[1]? = some domain
  hasRange : (kidsAt heap pi)[2]? = some range
  allocated : domain < heap.length

/-- A type that stands for a pi abstraction whose domain is a side condition. -/
def StartsWithRun (heap : List Node) (type : Ref) : Prop :=
  ∃ pi run range, StandsForPi heap type pi run range ∧ opOf heap run = some .run

/-- The side conditions before and directly after so many arguments of a type, in order, and what is
left of the type then. -/
inductive Telescope (heap : List Node) : Ref → Nat → List Ref → Ref → Prop
  | done {type : Ref} (ends : ¬ StartsWithRun heap type) : Telescope heap type 0 [] type
  | premise {type pi run range left : Ref} {count : Nat} {premises : List Ref}
      (stands : StandsForPi heap type pi run range) (isRun : opOf heap run = some .run)
      (rest : Telescope heap range count premises left) :
      Telescope heap type count (run :: premises) left
  | argument {type pi domain range left : Ref} {count : Nat} {premises : List Ref}
      (stands : StandsForPi heap type pi domain range) (proper : opOf heap domain ≠ some .run)
      (rest : Telescope heap range count premises left) :
      Telescope heap type (count + 1) premises left

theorem StandsForPi.unique {heap : List Node} {type pi pi' domain domain' range range' : Ref}
    (stands : StandsForPi heap type pi domain range)
    (stands' : StandsForPi heap type pi' domain' range') : domain = domain' ∧ range = range' := by
  obtain rfl : pi = pi' := Option.some.inj (stands.follows.symm.trans stands'.follows)
  exact ⟨Option.some.inj (stands.hasDomain.symm.trans stands'.hasDomain),
    Option.some.inj (stands.hasRange.symm.trans stands'.hasRange)⟩

theorem telescope_end {heap : List Node} {type left : Ref} :
    Telescope heap type 0 [] left ↔ type = left ∧ ¬ StartsWithRun heap left := by
  constructor
  · intro telescope
    cases telescope with
    | done ends => exact ⟨rfl, ends⟩
  · rintro ⟨rfl, ends⟩
    exact .done ends

theorem Telescope.left_ends {heap : List Node} {type left : Ref} {count : Nat}
    {premises : List Ref} (telescope : Telescope heap type count premises left) :
    ¬ StartsWithRun heap left := by
  induction telescope with
  | done ends => exact ends
  | premise _ _ _ hyp => exact hyp
  | argument _ _ _ hyp => exact hyp

/-- The premises of a type that starts with a side condition. -/
theorem telescope_run {heap : List Node} {type pi run range left : Ref} {count : Nat}
    {premises : List Ref} (stands : StandsForPi heap type pi run range)
    (isRun : opOf heap run = some .run) :
    Telescope heap type count premises left ↔
      ∃ rest, premises = run :: rest ∧ Telescope heap range count rest left := by
  constructor
  · intro telescope
    cases telescope with
    | done ends => exact (ends ⟨pi, run, range, stands, isRun⟩).elim
    | premise stands' _ rest =>
        obtain ⟨rfl, rfl⟩ := stands.unique stands'
        exact ⟨_, rfl, rest⟩
    | argument stands' proper _ =>
        obtain ⟨rfl, rfl⟩ := stands.unique stands'
        exact (proper isRun).elim
  · rintro ⟨rest, rfl, telescope⟩
    exact .premise stands isRun telescope

/-- The premises of a type that starts with a proper domain. -/
theorem telescope_argument {heap : List Node} {type pi domain range left : Ref} {count : Nat}
    {premises : List Ref} (stands : StandsForPi heap type pi domain range)
    (proper : opOf heap domain ≠ some .run) :
    Telescope heap type (count + 1) premises left ↔ Telescope heap range count premises left := by
  constructor
  · intro telescope
    cases telescope with
    | premise stands' isRun _ =>
        obtain ⟨rfl, rfl⟩ := stands.unique stands'
        exact (proper isRun).elim
    | argument stands' _ rest =>
        obtain ⟨rfl, rfl⟩ := stands.unique stands'
        exact rest
  · exact .argument stands proper

theorem followDefs_of_op {heap : List Node} {r : Ref} {op : Op} (found : opOf heap r = some op) :
    followDefs heap r = some r := by
  have unlinked : valOf heap r = none := by
    unfold opOf at found
    unfold valOf
    split at found <;> simp_all
  unfold followDefs followFor
  rw [unlinked]

/-- A pi abstraction stays what it is. -/
theorem StandsForPi.keeps {before after : List Node} {pi domain range : Ref}
    (stands : StandsForPi before pi pi domain range) (shape : KeepsShape before after) :
    StandsForPi after pi pi domain range := by
  have op : opOf after pi = some .pi :=
    (shape.op pi (lt_length_of_opOf stands.op)).trans stands.op
  have kids := shape.kids pi .pi stands.op (by simp)
  refine ⟨followDefs_of_op op, op, ?_, ?_, Nat.lt_of_lt_of_le stands.allocated shape.grows⟩
  · rw [← stands.hasDomain, ← List.getElem?_drop (i := 1) (j := 0), kids, List.getElem?_drop]
  · rw [← stands.hasRange, ← List.getElem?_drop (i := 1) (j := 1), kids, List.getElem?_drop]

/-! ## Executions of run premises -/

/-- The code of a run premise, through definitions if `followed`. -/
def CodeOf (heap : List Node) (followed : Bool) (premise code : Ref) : Prop :=
  ∃ kid, (kidsAt heap premise)[0]? = some kid ∧
    if followed then followDefs heap kid = some code else kid = code

/-- The code of a run premise succeeds with a result that is equal to the expected one. -/
def Executes (fuel : Nat) (followed : Bool) (premise : Ref) (before after : Runtime) : Prop :=
  ∃ code expected result middle store,
    CodeOf before.store.heap followed premise code ∧
    (kidsAt before.store.heap premise)[1]? = some expected ∧
    (runCode fuel code).run before = .ok (some result, middle) ∧
    (defeq fuel expected result).run middle.store = .ok (true, store) ∧
    { middle with store } = after

theorem run_runPremise_ok {fuel : Nat} {code expected : Ref} {value : Unit}
    {before after : Runtime} :
    (runPremise fuel code expected).run before = .ok (value, after) ↔
      ∃ result middle store, (runCode fuel code).run before = .ok (some result, middle) ∧
        (defeq fuel expected result).run middle.store = .ok (true, store) ∧
        { middle with store } = after := by
  rw [runPremise, run_bind_ok]
  constructor
  · rintro ⟨middle, result, ran, rest⟩
    cases result with
    | none => exact (run_stop_ok.mp rest).elim
    | some result =>
        obtain ⟨_, equal, compared, rest⟩ := run_bind_ok.mp rest
        obtain ⟨store, inner, rfl⟩ := run_lift_ok.mp compared
        cases equal with
        | false => exact (run_stop_ok.mp rest).elim
        | true =>
            obtain ⟨-, rfl⟩ := run_pure_ok.mp rest
            exact ⟨result, middle, store, ran, inner, rfl⟩
  · rintro ⟨result, middle, store, ran, compared, rfl⟩
    refine ⟨middle, some result, ran, ?_⟩
    exact run_bind_ok.mpr ⟨_, true, run_lift_ok.mpr ⟨store, compared, rfl⟩,
      run_pure_ok.mpr ⟨rfl, rfl⟩⟩

/-- A run premise that was executed. -/
structure PremiseRun where
  /-- The run expression. -/
  premise : Ref
  /-- The variables of the arguments before it, with the values that were assigned to them. -/
  assigned : List (Ref × Option Ref)
  /-- The store in which its code started. -/
  start : Store

/-- One expression is part of another, also through definitions. -/
def Mentions (heap : List Node) : Ref → Ref → Prop :=
  Relation.ReflTransGen fun r part => valOf heap r = some part ∨ part ∈ kidsAt heap r

/-- Every variable that the premise mentions has the argument as its value. -/
def PremiseRun.Instantiated (ran : PremiseRun) : Prop :=
  ∀ entry ∈ ran.assigned, Mentions ran.start.heap ran.premise entry.1 →
    ∃ value, entry.2 = some value ∧ valOf ran.start.heap entry.1 = some value

/-- Every variable that the premise mentions was assigned, since the flag of its abstraction was
set. -/
def PremiseRun.Flagged (ran : PremiseRun) : Prop :=
  ∀ entry ∈ ran.assigned, Mentions ran.start.heap ran.premise entry.1 → entry.2 ≠ none

/-- Every variable that the premise mentions has kept the value assigned to it. -/
def PremiseRun.Kept (ran : PremiseRun) : Prop :=
  ∀ entry ∈ ran.assigned, Mentions ran.start.heap ran.premise entry.1 →
    ∀ value, entry.2 = some value → valOf ran.start.heap entry.1 = some value

theorem PremiseRun.instantiated_iff {ran : PremiseRun} :
    ran.Instantiated ↔ ran.Flagged ∧ ran.Kept := by
  constructor
  · intro instantiated
    refine ⟨fun entry mem mentioned => ?_, fun entry mem mentioned value given => ?_⟩
    · obtain ⟨value, given, -⟩ := instantiated entry mem mentioned
      simp [given]
    · obtain ⟨value', given', current⟩ := instantiated entry mem mentioned
      rw [given] at given'
      cases given'
      exact current
  · rintro ⟨flagged, kept⟩ entry mem mentioned
    obtain ⟨value, given⟩ := Option.ne_none_iff_exists'.mp (flagged entry mem mentioned)
    exact ⟨value, given, kept entry mem mentioned value given⟩

/-! ## The argument loop -/

/-- Where the argument loop of an application stands. -/
structure AppState where
  /-- The term built so far. -/
  headtrm : Option Ref
  /-- Its type. -/
  headtp : Ref
  /-- The arguments so far that are holes. -/
  holes : List (Option Ref)
  /-- The variables of the arguments so far, with the values that were assigned to them. -/
  assigned : List (Ref × Option Ref)
  /-- The checker. -/
  checker : Checker

/-- An argument follows: the next token is no closing parenthesis and is put back. -/
def ReadsOn (before peeked : Checker) : Prop :=
  ∃ token read, nextToken.run before = .ok (token, read) ∧ token ≠ .Close ∧
    (reinsertToken token).run read = .ok ((), peeked)

/-- The flag of a `CExpr`. -/
def flagAt (heap : List Node) (r : Ref) : Bool :=
  match heap[r]? with
  | some (.cexpr _ _ flag) => flag
  | _ => false

/-- The value that the variable of a pi abstraction is assigned with its argument, if it is. -/
def assignedBy (peeked after : Checker) (pi var : Ref) : Option Ref :=
  if flagAt peeked.store.heap pi then valOf after.store.heap var else none

/-- Rounds of the argument loop: the premises that were executed, the number of arguments that were
checked, and where the loop stands then.  A loop that looks `through` definitions follows each type
to a pi abstraction. -/
inductive AppSteps (fuel : Nat) (create : Bool) (prevo : Int) (through : Bool) :
    AppState → List PremiseRun → Nat → AppState → Prop
  | refl (state : AppState) : AppSteps fuel create prevo through state [] 0 state
  | premise {state last : AppState} {peeked : Checker} {pi run range : Ref} {runtime : Runtime}
      {runs : List PremiseRun} {count : Nat} (reads : ReadsOn state.checker peeked)
      (stands : StandsForPi peeked.store.heap state.headtp pi run range)
      (direct : through = false → pi = state.headtp)
      (isRun : opOf peeked.store.heap run = some .run)
      (executes : Executes fuel false run peeked.runtime runtime)
      (rest : AppSteps fuel create prevo through
        { state with headtp := range, checker := { peeked with runtime } } runs count last) :
      AppSteps fuel create prevo through state (⟨run, state.assigned, peeked.store⟩ :: runs) count
        last
  | argument {state last : AppState} {peeked after : Checker} {pi domain range var : Ref}
      {headtrm : Option Ref} {holes : List (Option Ref)} {runs : List PremiseRun} {count : Nat}
      (reads : ReadsOn state.checker peeked)
      (stands : StandsForPi peeked.store.heap state.headtp pi domain range)
      (direct : through = false → pi = state.headtp)
      (proper : opOf peeked.store.heap domain ≠ some .run)
      (bound : (kidsAt peeked.store.heap pi)[0]? = some var)
      (stays : (isTailArg { create } pi range).run peeked = .ok (false, peeked))
      (checked : (checkArg (check fuel) { create } prevo pi domain state.headtrm state.holes).run
        peeked = .ok ((headtrm, holes), after))
      (rest : AppSteps fuel create prevo through
        { headtrm, headtp := range, holes
          assigned := state.assigned ++ [(var, assignedBy peeked after pi var)]
          checker := after } runs count last) :
      AppSteps fuel create prevo through state runs (count + 1) last

/-- At the closing parenthesis the side condition is executed that the type starts with, if it does:
the premises executed and the type left. -/
inductive RunsOne (fuel : Nat) (assigned : List (Ref × Option Ref)) (type : Ref)
    (before : Runtime) : List PremiseRun → Ref → Runtime → Prop
  | none (proper : ∀ run range, StandsForPi before.store.heap type type run range →
      opOf before.store.heap run ≠ some .run) : RunsOne fuel assigned type before [] type before
  | one {run range : Ref} {after : Runtime}
      (stands : StandsForPi before.store.heap type type run range)
      (isRun : opOf before.store.heap run = some .run)
      (executes : Executes fuel true run before after) :
      RunsOne fuel assigned type before [⟨run, assigned, before.store⟩] range after

/-- The argument loop ends, at the closing parenthesis or before a last argument that is checked by
a tail call: the state of the evaluator there, the premises executed then, the number of arguments,
the type left after them, and how the loop ends. -/
inductive AppLeaves (fuel : Nat) (create : Bool) (state : AppState) :
    Runtime → List PremiseRun → Nat → Ref → AppExit → Checker → Prop
  | closed {read : Checker} {runs : List PremiseRun} {left : Ref} {runtime : Runtime}
      (token : nextToken.run state.checker = .ok (.Close, read))
      (ran : RunsOne fuel state.assigned state.headtp read.runtime runs left runtime) :
      AppLeaves fuel create state read.runtime runs 0 state.headtp
        (.ended state.headtrm left state.holes)
        { read with openParens := read.openParens + -1, runtime }
  | tail {peeked : Checker} {domain range : Ref} (reads : ReadsOn state.checker peeked)
      (stands : StandsForPi peeked.store.heap state.headtp state.headtp domain range)
      (proper : opOf peeked.store.heap domain ≠ some .run)
      (leaves : (isTailArg { create } state.headtp range).run peeked = .ok (true, peeked)) :
      AppLeaves fuel create state peeked.runtime [] 1 range (.tail domain range state.holes) peeked

/-! ## Reading the loop -/

theorem run_liftKid_ok {r child : Ref} {index : Nat} {before after : Checker} :
    (liftM (kid r index) : CheckerM Ref).run before = .ok (child, after) ↔
      (kidsAt before.store.heap r)[index]? = some child ∧ before = after := by
  rw [liftM_eq_onStore, run_onStore_ok]
  constructor
  · rintro ⟨store, run, rfl⟩
    obtain ⟨⟨op, kids, flag, loaded, found⟩, rfl⟩ := run_kid_ok.mp run
    exact ⟨by simpa [kidsAt, loaded] using found, rfl⟩
  · rintro ⟨found, rfl⟩
    refine ⟨_, run_kid_ok.mpr ⟨?_, rfl⟩, rfl⟩
    unfold kidsAt at found
    split at found
    · exact ⟨_, _, _, ‹_›, found⟩
    · simp at found

theorem run_liftGetop_ok {r : Ref} {op : Option Op} {before after : Checker} :
    (liftM (getop r) : CheckerM (Option Op)).run before = .ok (op, after) ↔
      r < before.store.heap.length ∧ opOf before.store.heap r = op ∧ before = after := by
  rw [liftM_eq_onStore, run_onStore_ok]
  constructor
  · rintro ⟨store, run, rfl⟩
    obtain ⟨bound, found, rfl⟩ := run_getop_ok.mp run
    exact ⟨bound, found, rfl⟩
  · rintro ⟨bound, found, rfl⟩
    exact ⟨_, run_getop_ok.mpr ⟨bound, found, rfl⟩, rfl⟩

theorem run_liftFollow_ok {r last : Ref} {before after : Checker} :
    (liftM (follow r) : CheckerM Ref).run before = .ok (last, after) ↔
      followDefs before.store.heap r = some last ∧ before = after := by
  rw [liftM_eq_onStore, run_onStore_ok]
  constructor
  · rintro ⟨store, run, rfl⟩
    obtain ⟨found, rfl⟩ := run_follow_ok.mp run
    exact ⟨found, rfl⟩
  · rintro ⟨found, rfl⟩
    exact ⟨_, run_follow_ok.mpr ⟨found, rfl⟩, rfl⟩

theorem run_liftRun_ok {α : Type} {m : RunM α} {value : α} {before after : Checker} :
    (liftM m : CheckerM α).run before = .ok (value, after) ↔
      ∃ runtime, m.run before.runtime = .ok (value, runtime) ∧ { before with runtime } = after :=
  run_zoom_ok

theorem keeps_eq_liftM {α : Type} {m : StoreM α} (kept : Keeps Eq m) :
    Keeps Eq (liftM m : CheckerM α) := by
  intro before value after run
  obtain ⟨store, inner, rfl⟩ := run_onStore_ok.mp run
  obtain rfl := kept _ _ _ inner
  rfl

theorem keeps_eq_getFlag (r : Ref) : Keeps Eq (getFlag r) := by
  rw [getFlag]
  refine keeps_bind keeps_load fun node => ?_
  split <;> exact keeps_pure _

/-- The test for a tail call reads the state. -/
theorem keeps_eq_isTailArg (args : CheckArgs) (headtp range : Ref) :
    Keeps Eq (isTailArg args headtp range) := by
  rw [isTailArg]
  refine keeps_bind (keeps_eq_liftM (keeps_eq_getFlag headtp)) fun flag => ?_
  refine keeps_bind (fun _ _ _ run => by cases run; rfl) fun checker => ?_
  refine keeps_bind (fun _ _ _ run => ?_) fun op => keeps_pure _
  exact (run_liftGetop_ok.mp run).2.2

/-- The closing of an application executes at most one side condition. -/
theorem run_closeApp_ok {fuel : Nat} {headtrm : Option Ref} {headtp : Ref}
    {holes : List (Option Ref)} (assigned : List (Ref × Option Ref)) {exit : AppExit}
    {before after : Checker}
    (run : (closeApp fuel headtrm headtp holes).run before = .ok (exit, after)) :
    ∃ runs left runtime, RunsOne fuel assigned headtp before.runtime runs left runtime ∧
      exit = .ended headtrm left holes ∧
      after = { before with openParens := before.openParens + -1, runtime } := by
  rw [closeApp] at run
  obtain ⟨_, _, closed, run⟩ := run_bind_ok.mp run
  obtain rfl := run_modify_ok.mp closed
  obtain ⟨_, op, opRun, run⟩ := run_bind_ok.mp run
  obtain ⟨-, found, rfl⟩ := run_liftGetop_ok.mp opRun
  split at run
  · rename_i same
    have isPi := found.trans same
    obtain ⟨_, domain, domainRun, run⟩ := run_bind_ok.mp run
    obtain ⟨hasDomain, rfl⟩ := run_liftKid_ok.mp domainRun
    obtain ⟨_, op, opRun, run⟩ := run_bind_ok.mp run
    obtain ⟨allocated, found, rfl⟩ := run_liftGetop_ok.mp opRun
    split at run
    · rename_i same
      have isRun := found.trans same
      obtain ⟨_, kid, kidRun, run⟩ := run_bind_ok.mp run
      obtain ⟨hasKid, rfl⟩ := run_liftKid_ok.mp kidRun
      obtain ⟨_, code, codeRun, run⟩ := run_bind_ok.mp run
      obtain ⟨followed, rfl⟩ := run_liftFollow_ok.mp codeRun
      obtain ⟨_, expected, expectedRun, run⟩ := run_bind_ok.mp run
      obtain ⟨hasExpected, rfl⟩ := run_liftKid_ok.mp expectedRun
      obtain ⟨_, _, ran, run⟩ := run_bind_ok.mp run
      have shape := keeps_shaped_of_plain
        (keeps_plain_liftRun (keeps_runWrites_runPremise fuel code expected)) _ _ _ ran
      obtain ⟨runtime, inner, rfl⟩ := run_liftRun_ok.mp ran
      obtain ⟨result, middle, store, codeOk, equal, rfl⟩ := run_runPremise_ok.mp inner
      obtain ⟨_, range, rangeRun, run⟩ := run_bind_ok.mp run
      obtain ⟨hasRange, rfl⟩ := run_liftKid_ok.mp rangeRun
      obtain ⟨rfl, rfl⟩ := run_pure_ok.mp run
      have hasRange' : (kidsAt before.store.heap headtp)[2]? = some range := by
        rw [← List.getElem?_drop (i := 1) (j := 1)] at hasRange ⊢
        rwa [shape.kids headtp .pi isPi (by simp)] at hasRange
      exact ⟨_, _, _, .one ⟨followDefs_of_op isPi, isPi, hasDomain, hasRange', allocated⟩ isRun
        ⟨code, expected, result, middle, store, ⟨kid, hasKid, followed⟩, hasExpected, codeOk, equal,
          rfl⟩, rfl, rfl⟩
    · rename_i other
      obtain ⟨rfl, rfl⟩ := run_pure_ok.mp run
      refine ⟨_, _, _, .none fun run range stands isRun => ?_, rfl, rfl⟩
      obtain rfl : domain = run := Option.some.inj (hasDomain.symm.trans stands.hasDomain)
      exact other (found.symm.trans isRun)
  · rename_i other
    obtain ⟨rfl, rfl⟩ := run_pure_ok.mp run
    exact ⟨_, _, _, .none fun run range stands _ => other (found.symm.trans stands.op), rfl, rfl⟩

/-- Every run of the argument loop goes through rounds until it ends. -/
theorem appSteps_of_run {fuel rounds : Nat} {create : Bool} {prevo : Int} {headtrm : Option Ref}
    {headtp : Ref} {holes : List (Option Ref)} (assigned : List (Ref × Option Ref))
    {exit : AppExit} {before closed : Checker}
    (run : (appArgsExit fuel (check fuel) create prevo rounds headtrm headtp holes).run before =
      .ok (exit, closed)) :
    ∃ runs count last ending closing more left,
      AppSteps fuel create prevo false ⟨headtrm, headtp, holes, assigned, before⟩ runs count last ∧
        AppLeaves fuel create last ending closing more left exit closed := by
  induction rounds generalizing headtrm headtp holes assigned before with
  | zero => exact (run_stop_ok.mp run).elim
  | succ rounds hyp =>
      rw [appArgsExit] at run
      obtain ⟨read, token, tokenRun, run⟩ := run_bind_ok.mp run
      split at run
      · rename_i close
        subst close
        obtain ⟨closing, left, runtime, ran, rfl, rfl⟩ := run_closeApp_ok assigned run
        exact ⟨[], 0, _, _, closing, 0, _, .refl _, .closed tokenRun ran⟩
      · rename_i more
        obtain ⟨peeked, _, pushed, run⟩ := run_bind_ok.mp run
        have reads : ReadsOn before peeked := ⟨token, read, tokenRun, more, pushed⟩
        obtain ⟨_, op, opRun, run⟩ := run_bind_ok.mp run
        obtain ⟨-, opFound, rfl⟩ := run_liftGetop_ok.mp opRun
        split at run
        · exact (run_report_bind_ok.mp run).elim
        rename_i same
        have isPi := opFound.trans (not_not.mp same)
        obtain ⟨_, domain, domainRun, run⟩ := run_bind_ok.mp run
        obtain ⟨hasDomain, rfl⟩ := run_liftKid_ok.mp domainRun
        obtain ⟨_, range, rangeRun, run⟩ := run_bind_ok.mp run
        obtain ⟨hasRange, rfl⟩ := run_liftKid_ok.mp rangeRun
        obtain ⟨_, op, opRun, run⟩ := run_bind_ok.mp run
        obtain ⟨allocated, domainOp, rfl⟩ := run_liftGetop_ok.mp opRun
        have stands : StandsForPi peeked.store.heap headtp headtp domain range :=
          ⟨followDefs_of_op isPi, isPi, hasDomain, hasRange, allocated⟩
        split at run
        · rename_i same
          have isRun := domainOp.trans same
          obtain ⟨_, code, codeRun, run⟩ := run_bind_ok.mp run
          obtain ⟨hasCode, rfl⟩ := run_liftKid_ok.mp codeRun
          obtain ⟨_, expected, expectedRun, run⟩ := run_bind_ok.mp run
          obtain ⟨hasExpected, rfl⟩ := run_liftKid_ok.mp expectedRun
          obtain ⟨_, _, ran, run⟩ := run_bind_ok.mp run
          obtain ⟨runtime, inner, rfl⟩ := run_liftRun_ok.mp ran
          obtain ⟨result, middle, store, codeOk, equal, rfl⟩ := run_runPremise_ok.mp inner
          obtain ⟨runs, count, last, ending, closing, more, left, steps, leaves⟩ := hyp assigned run
          refine ⟨⟨domain, assigned, peeked.store⟩ :: runs, count, last, ending, closing, more,
            left,
            ?_, leaves⟩
          exact .premise reads stands (fun _ => rfl) isRun ⟨code, expected, result, middle, store,
            ⟨code, hasCode, rfl⟩, hasExpected, codeOk, equal, rfl⟩ steps
        · rename_i other
          have proper : opOf peeked.store.heap domain ≠ some .run := fun isRun =>
            other (domainOp.symm.trans isRun)
          obtain ⟨_, tail, tailRun, run⟩ := run_bind_ok.mp run
          obtain rfl := keeps_eq_isTailArg _ _ _ _ _ _ tailRun
          cases tail with
          | true =>
              obtain ⟨rfl, rfl⟩ := run_pure_ok.mp run
              exact ⟨[], 0, _, _, [], 1, _, .refl _, .tail reads stands proper tailRun⟩
          | false =>
              obtain ⟨after, ⟨headtrm', holes'⟩, argRun, run⟩ := run_bind_ok.mp run
              obtain ⟨var, bound⟩ : ∃ var, (kidsAt peeked.store.heap headtp)[0]? = some var := by
                rw [checkArg] at argRun
                obtain ⟨_, var, varRun, -⟩ := run_bind_ok.mp argRun
                exact ⟨var, (run_liftKid_ok.mp varRun).1⟩
              obtain ⟨runs, count, last, ending, closing, more, left, steps, leaves⟩ :=
                hyp (assigned ++ [(var, assignedBy peeked after headtp var)]) run
              exact ⟨runs, count + 1, last, ending, closing, more, left,
                .argument reads stands (fun _ => rfl) proper bound tailRun argRun steps, leaves⟩

/-! ## The premises of the loop -/

theorem ReadsOn.shaped {before peeked : Checker} (reads : ReadsOn before peeked) :
    Shaped before peeked := by
  obtain ⟨token, read, tokenRun, -, pushed⟩ := reads
  have first : Shaped before read := keeps_shaped_of_plain keeps_plain_nextToken _ _ _ tokenRun
  have second : Shaped read peeked :=
    keeps_shaped_of_plain (keeps_plain_reinsertToken token) _ _ _ pushed
  exact KeepsShape.trans first second

theorem Executes.keepsShape {fuel : Nat} {followed : Bool} {premise : Ref} {before after : Runtime}
    (executes : Executes fuel followed premise before after) :
    KeepsShape before.store.heap after.store.heap := by
  obtain ⟨code, expected, result, middle, store, -, -, ran, equal, rfl⟩ := executes
  have first : Writes before.store middle.store := keeps_runWrites_runCode fuel code _ _ _ ran
  have second : Writes middle.store store := keeps_writes_defeq fuel expected result _ _ _ equal
  exact Writes.keepsShape (first.trans second)

theorem AppSteps.shaped {fuel : Nat} {create through : Bool} {prevo : Int} {state last : AppState}
    {runs : List PremiseRun} {count : Nat}
    (steps : AppSteps fuel create prevo through state runs count last) :
    Shaped state.checker last.checker := by
  induction steps with
  | refl state => exact keepsShape_refl _
  | premise reads _ _ _ executes _ hyp =>
      exact (KeepsShape.trans reads.shaped executes.keepsShape).trans hyp
  | argument reads _ _ _ _ _ checked _ hyp =>
      have argument := keeps_shaped_checkArg (keeps_shaped_check fuel) _ _ _ _ _ _ _ _ _ checked
      exact (KeepsShape.trans reads.shaped argument).trans hyp

/-- The premises of the type that the loop started with are those it executed, followed by those of
the type that it has come to. -/
theorem AppSteps.telescope {fuel : Nat} {create : Bool} {prevo : Int} {state last : AppState}
    {runs : List PremiseRun} {count : Nat}
    (steps : AppSteps fuel create prevo false state runs count last) {heap : List Node}
    (shape : KeepsShape last.checker.store.heap heap) {more : Nat} {premises : List Ref}
    {left : Ref} :
    Telescope heap state.headtp (count + more) premises left ↔
      ∃ rest, premises = runs.map PremiseRun.premise ++ rest ∧
        Telescope heap last.headtp more rest left := by
  induction steps generalizing premises with
  | refl state => simp
  | @premise state last peeked pi run range runtime runs count reads stands direct isRun executes
      rest hyp =>
      obtain rfl := direct rfl
      have later : KeepsShape peeked.store.heap heap :=
        (executes.keepsShape.trans rest.shaped).trans shape
      have isRun' : opOf heap run = some .run :=
        (later.op run (lt_length_of_opOf isRun)).trans isRun
      rw [telescope_run (stands.keeps later) isRun']
      constructor
      · rintro ⟨premises, rfl, telescope⟩
        obtain ⟨rest, rfl, later⟩ := (hyp shape).mp telescope
        exact ⟨rest, rfl, later⟩
      · rintro ⟨rest, rfl, telescope⟩
        exact ⟨_, rfl, (hyp shape).mpr ⟨rest, rfl, telescope⟩⟩
  | @argument state last peeked after pi domain range var headtrm holes runs count reads stands
      direct proper bound stays checked rest hyp =>
      obtain rfl := direct rfl
      have argument := keeps_shaped_checkArg (keeps_shaped_check fuel) _ _ _ _ _ _ _ _ _ checked
      have later : KeepsShape peeked.store.heap heap :=
        (KeepsShape.trans argument rest.shaped).trans shape
      have proper' : opOf heap domain ≠ some .run := by
        rwa [later.op domain stands.allocated]
      have moved : count + 1 + more = count + more + 1 := Nat.add_right_comm count 1 more
      rw [moved, telescope_argument (stands.keeps later) proper']
      exact hyp shape

/-- The type that an application is found to have. -/
def AppExit.classifier : AppExit → Ref
  | .ended _ classifier _ => classifier
  | .tail _ range _ => range

/-- Behind the last argument at most one side condition follows: once it is executed the type that
is left does not start with another. -/
def SingleRun (fuel : Nat) (left : Ref) (ending : Runtime) : Prop :=
  ∀ runs rest after, RunsOne fuel [] left ending runs rest after →
    ¬ StartsWithRun after.store.heap rest

theorem Executes.unique {fuel : Nat} {followed : Bool} {premise : Ref}
    {before after after' : Runtime} (executes : Executes fuel followed premise before after)
    (executes' : Executes fuel followed premise before after') : after = after' := by
  obtain ⟨code, expected, result, middle, store, ⟨kid, hasKid, isCode⟩, hasExpected, ran, equal,
    rfl⟩ := executes
  obtain ⟨code', expected', result', middle', store', ⟨kid', hasKid', isCode'⟩, hasExpected', ran',
    equal', rfl⟩ := executes'
  obtain rfl : kid = kid' := Option.some.inj (hasKid.symm.trans hasKid')
  obtain rfl : expected = expected' := Option.some.inj (hasExpected.symm.trans hasExpected')
  obtain rfl : code = code' := by
    cases followed with
    | true => exact Option.some.inj (isCode.symm.trans isCode')
    | false => exact isCode.symm.trans isCode'
  cases ran.symm.trans ran'
  cases equal.symm.trans equal'
  rfl

theorem singleRun_iff {fuel : Nat} {assigned : List (Ref × Option Ref)} {type left : Ref}
    {runs : List PremiseRun} {ending after : Runtime}
    (ran : RunsOne fuel assigned type ending runs left after) :
    SingleRun fuel type ending ↔ ¬ StartsWithRun after.store.heap left := by
  constructor
  · intro single
    cases ran with
    | none proper => exact single _ _ _ (.none proper)
    | one stands isRun executes => exact single _ _ _ (.one stands isRun executes)
  · intro ends runs' left' after' ran'
    cases ran with
    | none proper =>
        cases ran' with
        | none _ => exact ends
        | one stands' isRun' _ => exact (proper _ _ stands' isRun').elim
    | one stands isRun executes =>
        cases ran' with
        | none proper' => exact (proper' _ _ stands isRun).elim
        | one stands' _ executes' =>
            obtain ⟨rfl, rfl⟩ := stands.unique stands'
            obtain rfl := executes.unique executes'
            exact ends

theorem run_isTailArg_true {args : CheckArgs} {headtp range : Ref} {before after : Checker}
    (run : (isTailArg args headtp range).run before = .ok (true, after)) :
    args.create = false ∧ opOf before.store.heap range ≠ some .pi := by
  rw [isTailArg] at run
  obtain ⟨_, flag, flagRun, run⟩ := run_bind_ok.mp run
  obtain rfl := keeps_eq_liftM (keeps_eq_getFlag headtp) _ _ _ flagRun
  obtain ⟨_, checker, getRun, run⟩ := run_bind_ok.mp run
  cases getRun
  obtain ⟨_, op, opRun, run⟩ := run_bind_ok.mp run
  obtain ⟨-, found, rfl⟩ := run_liftGetop_ok.mp opRun
  obtain ⟨tail, -⟩ := run_pure_ok.mp run
  obtain ⟨-, noArg, notPi⟩ := of_decide_eq_true tail
  simp only [Bool.or_eq_true, not_or, Bool.not_eq_true] at noArg
  exact ⟨noArg.1, found ▸ notPi⟩

/-- The premises behind the last argument have all been executed where there is at most one. -/
theorem AppLeaves.telescope {fuel : Nat} {create : Bool} {state : AppState} {ending : Runtime}
    {runs : List PremiseRun} {more : Nat} {left : Ref} {exit : AppExit} {closed : Checker}
    (leaves : AppLeaves fuel create state ending runs more left exit closed) :
    Telescope closed.store.heap state.headtp more (runs.map PremiseRun.premise) exit.classifier ↔
      SingleRun fuel left ending := by
  cases leaves with
  | @closed read _ _ runtime token ran =>
      rw [singleRun_iff ran]
      cases ran with
      | none _ =>
          rw [List.map_nil, telescope_end]
          exact and_iff_right rfl
      | one stands isRun executes =>
          have shape := executes.keepsShape
          have isRun' := (shape.op _ (lt_length_of_opOf isRun)).trans isRun
          rw [telescope_run (stands.keeps shape) isRun']
          constructor
          · rintro ⟨rest, same, telescope⟩
            obtain rfl : [] = rest := (List.cons.inj same).2
            exact (telescope_end.mp telescope).2
          · exact fun ends => ⟨[], rfl, telescope_end.mpr ⟨rfl, ends⟩⟩
  | tail reads stands proper isTail =>
      have none : RunsOne fuel [] left closed.runtime [] left closed.runtime :=
        .none fun run range stands' _ => (run_isTailArg_true isTail).2 stands'.op
      rw [singleRun_iff none, List.map_nil, telescope_argument stands proper, telescope_end]
      exact and_iff_right rfl

theorem AppLeaves.shaped {fuel : Nat} {create : Bool} {state : AppState} {ending : Runtime}
    {runs : List PremiseRun} {more : Nat} {left : Ref} {exit : AppExit} {closed : Checker}
    (leaves : AppLeaves fuel create state ending runs more left exit closed) :
    Shaped state.checker closed := by
  cases leaves with
  | closed token ran =>
      have first := keeps_shaped_of_plain keeps_plain_nextToken _ _ _ token
      cases ran with
      | none _ => exact first
      | one _ _ executes => exact KeepsShape.trans first executes.keepsShape
  | tail reads _ _ _ => exact reads.shaped

/-! ## Accepted applications -/

/-- The beginning of an application: the parentheses open, the head and its type. -/
def openApp (fuel : Nat) (check : CheckArgs → CheckerM Checked) (create : Bool) (c : Token) :
    CheckerM (Int × Option Ref × Ref) := do
  reinsertToken c
  let prevo ← getOpenParens
  let head ← check { create, computed := true }
  eatExcess prevo
  let headtp ← follow (← deref head.computed)
  let headtp ←
    if ← getFlag headtp then onStore (clone fuel headtp)
    else do
      setFlag headtp true
      pure headtp
  return (prevo, head.term, headtp)

theorem appExit_eq (fuel : Nat) (check : CheckArgs → CheckerM Checked) (create : Bool) (c : Token) :
    appExit fuel check create c = openApp fuel check create c >>= fun parts =>
      appArgsExit fuel check create parts.1 fuel parts.2.1 parts.2.2 [] := by
  unfold appExit openApp
  simp only [bind_assoc]
  refine bind_congr fun _ => bind_congr fun _ => bind_congr fun _ => bind_congr fun _ =>
    bind_congr fun _ => bind_congr fun _ => bind_congr fun flag => ?_
  split
  · simp only [bind_assoc, pure_bind]
  · simp only [bind_assoc, pure_bind]

/-- An application up to the point where its type is known. -/
structure Application where
  /-- The type of its head. -/
  headtp : Ref
  /-- The run premises that were executed, first to last. -/
  runs : List PremiseRun
  /-- The number of its arguments. -/
  arguments : Nat
  /-- The type that is left after the last argument. -/
  left : Ref
  /-- The state of the evaluator there. -/
  ending : Runtime
  /-- How its argument loop ends, with its type. -/
  exit : AppExit
  /-- The checker at that point. -/
  closed : Checker

/-- The application that is read from a state on. -/
inductive Applies (fuel : Nat) (create : Bool) (c : Token) (before : Checker) : Application → Prop
  | intro {prevo : Int} {headtrm : Option Ref} {headtp left : Ref} {opened closed : Checker}
      {runs closing : List PremiseRun} {count more : Nat} {last : AppState} {ending : Runtime}
      {exit : AppExit}
      (head : (openApp fuel (check fuel) create c).run before =
        .ok ((prevo, headtrm, headtp), opened))
      (steps : AppSteps fuel create prevo false ⟨headtrm, headtp, [], [], opened⟩ runs count last)
      (leaves : AppLeaves fuel create last ending closing more left exit closed) :
      Applies fuel create c before
        { headtp, runs := runs ++ closing, arguments := count + more, left, ending, exit, closed }

/-- The run premises executed are exactly those of the type of the head that come before or directly
after the arguments, with the variables that they mention instantiated, and the type of the
application is what is left of the type of the head. -/
def Application.Complete (app : Application) : Prop :=
  Telescope app.closed.store.heap app.headtp app.arguments (app.runs.map PremiseRun.premise)
    app.exit.classifier ∧ ∀ ran ∈ app.runs, ran.Instantiated

/-- At most one run premise follows the last argument, and the variables that premises mention are
assigned and keep their values. -/
def Application.Regular (fuel : Nat) (app : Application) : Prop :=
  SingleRun fuel app.left app.ending ∧ ∀ ran ∈ app.runs, ran.Flagged ∧ ran.Kept

theorem Applies.complete_iff {fuel : Nat} {create : Bool} {c : Token} {before : Checker}
    {app : Application} (applies : Applies fuel create c before app) :
    app.Complete ↔ app.Regular fuel := by
  cases applies with
  | intro head steps leaves =>
      refine and_congr ?_ (forall₂_congr fun ran _ => ran.instantiated_iff)
      rw [steps.telescope leaves.shaped, ← leaves.telescope]
      simp only [List.map_append, List.append_cancel_left_eq, exists_eq_left']

/-! ## Applications that should be accepted -/

/-- A type whose parts exist. -/
def Sound (heap : List Node) (type : Ref) : Prop :=
  type < heap.length ∧
    (opOf heap type = some .pi → ∃ domain range, StandsForPi heap type type domain range)

/-- All side conditions that a type starts with succeed, one after the other. -/
inductive RunsAll (fuel : Nat) : Ref → Runtime → Ref → Runtime → Prop
  | done {type : Ref} {runtime : Runtime} (sound : Sound runtime.store.heap type)
      (ends : ¬ StartsWithRun runtime.store.heap type) : RunsAll fuel type runtime type runtime
  | premise {type pi run range left : Ref} {before middle after : Runtime}
      (stands : StandsForPi before.store.heap type pi run range)
      (isRun : opOf before.store.heap run = some .run)
      (executes : Executes fuel true run before middle)
      (rest : RunsAll fuel range middle left after) : RunsAll fuel type before left after

/-- The arguments of an application check and its side conditions all succeed, through definitions,
and its type passes the comparison with the expected one: the type left after the last argument, the
state of the evaluator there, and the result. -/
inductive Fulfils (fuel : Nat) (args : CheckArgs) (prevo : Int) (state : AppState) :
    Ref → Runtime → Checked → Checker → Prop
  | closed {runs : List PremiseRun} {count : Nat} {last : AppState} {read after : Checker}
      {classifier : Ref} {runtime : Runtime} {value : Checked}
      (steps : AppSteps fuel args.create prevo true state runs count last)
      (token : nextToken.run last.checker = .ok (.Close, read))
      (ran : RunsAll fuel last.headtp read.runtime classifier runtime)
      (finish : (finishApp fuel (check fuel) args (.ended last.headtrm classifier last.holes)).run
        { read with openParens := read.openParens + -1, runtime } = .ok (value, after)) :
      Fulfils fuel args prevo state last.headtp read.runtime value after
  | tail {runs : List PremiseRun} {count : Nat} {last : AppState} {peeked after : Checker}
      {pi domain range : Ref} {value : Checked}
      (steps : AppSteps fuel args.create prevo true state runs count last)
      (reads : ReadsOn last.checker peeked)
      (stands : StandsForPi peeked.store.heap last.headtp pi domain range)
      (proper : opOf peeked.store.heap domain ≠ some .run)
      (leaves : (isTailArg { create := args.create } pi range).run peeked = .ok (true, peeked))
      (ends : ¬ StartsWithRun peeked.store.heap range)
      (finish : (finishApp fuel (check fuel) args (.tail domain range last.holes)).run peeked =
        .ok (value, after)) :
      Fulfils fuel args prevo state range peeked.runtime value after

/-- While arguments follow, the types that the loop comes to are pi abstractions themselves and not
definitions of some. -/
def DirectTypes (fuel : Nat) (create : Bool) (prevo : Int) (state : AppState) : Prop :=
  ∀ runs count last peeked pi domain range,
    AppSteps fuel create prevo true state runs count last → ReadsOn last.checker peeked →
      StandsForPi peeked.store.heap last.headtp pi domain range → pi = last.headtp

theorem AppSteps.direct {fuel : Nat} {create : Bool} {prevo : Int} {state last : AppState}
    {runs : List PremiseRun} {count : Nat}
    (steps : AppSteps fuel create prevo true state runs count last)
    (direct : DirectTypes fuel create prevo state) :
    AppSteps fuel create prevo false state runs count last := by
  induction steps with
  | refl state => exact .refl state
  | premise reads stands through isRun executes rest hyp =>
      have here := direct _ _ _ _ _ _ _ (.refl _) reads stands
      refine .premise reads stands (fun _ => here) isRun executes (hyp ?_)
      intro runs count last peeked pi domain range steps
      exact direct _ _ _ _ _ _ _ (.premise reads stands through isRun executes steps)
  | argument reads stands through proper bound stays checked rest hyp =>
      have here := direct _ _ _ _ _ _ _ (.refl _) reads stands
      refine .argument reads stands (fun _ => here) proper bound stays checked (hyp ?_)
      intro runs count last peeked pi domain range steps
      exact direct _ _ _ _ _ _ _ (.argument reads stands through proper bound stays checked steps)

theorem Executes.run {fuel : Nat} {followed : Bool} {premise code expected : Ref}
    {before after : Runtime} (executes : Executes fuel followed premise before after)
    (isCode : CodeOf before.store.heap followed premise code)
    (hasExpected : (kidsAt before.store.heap premise)[1]? = some expected) :
    (runPremise fuel code expected).run before = .ok ((), after) := by
  obtain ⟨code', expected', result, middle, store, ⟨kid', hasKid', isCode'⟩, hasExpected', ran,
    equal, rfl⟩ := executes
  obtain ⟨kid, hasKid, isCode⟩ := isCode
  obtain rfl : kid = kid' := Option.some.inj (hasKid.symm.trans hasKid')
  obtain rfl : expected = expected' := Option.some.inj (hasExpected.symm.trans hasExpected')
  obtain rfl : code = code' := by
    cases followed with
    | true => exact Option.some.inj (isCode.symm.trans isCode')
    | false => exact isCode.symm.trans isCode'
  exact run_runPremise_ok.mpr ⟨result, middle, store, ran, equal, rfl⟩

/-- A type that does not start with a side condition is the type of the application. -/
theorem run_closeApp_none {fuel : Nat} {headtrm : Option Ref} {headtp : Ref}
    {holes : List (Option Ref)} {before : Checker} (sound : Sound before.store.heap headtp)
    (proper : ∀ run range, StandsForPi before.store.heap headtp headtp run range →
      opOf before.store.heap run ≠ some .run) :
    (closeApp fuel headtrm headtp holes).run before =
      .ok (.ended headtrm headtp holes, { before with openParens := before.openParens + -1 }) := by
  let opened : Checker := { before with openParens := before.openParens + -1 }
  have closing : (addOpenParens (-1)).run before = .ok ((), opened) := rfl
  obtain ⟨allocated, parts⟩ := sound
  have headOp : (liftM (getop headtp) : CheckerM (Option Op)).run opened =
      .ok (opOf before.store.heap headtp, opened) :=
    run_liftGetop_ok.mpr ⟨allocated, rfl, rfl⟩
  rw [closeApp, run_bind_of_ok closing, run_bind_of_ok headOp]
  by_cases isPi : opOf before.store.heap headtp = some .pi
  · obtain ⟨domain, range, stands⟩ := parts isPi
    have domainRun : (liftM (kid headtp 1) : CheckerM Ref).run opened = .ok (domain, opened) :=
      run_liftKid_ok.mpr ⟨stands.hasDomain, rfl⟩
    have domainOp : (liftM (getop domain) : CheckerM (Option Op)).run opened =
        .ok (opOf before.store.heap domain, opened) :=
      run_liftGetop_ok.mpr ⟨stands.allocated, rfl, rfl⟩
    rw [if_pos isPi, run_bind_of_ok domainRun, run_bind_of_ok domainOp,
      if_neg (proper _ _ stands)]
    rfl
  · rw [if_neg isPi]
    rfl

/-- A side condition that the type starts with is executed. -/
theorem run_closeApp_one {fuel : Nat} {headtrm : Option Ref} {headtp run range : Ref}
    {holes : List (Option Ref)} {before : Checker} {runtime : Runtime}
    (stands : StandsForPi before.store.heap headtp headtp run range)
    (isRun : opOf before.store.heap run = some .run)
    (executes : Executes fuel true run before.runtime runtime) :
    (closeApp fuel headtrm headtp holes).run before =
      .ok (.ended headtrm range holes,
        { before with openParens := before.openParens + -1, runtime }) := by
  let opened : Checker := { before with openParens := before.openParens + -1 }
  have closing : (addOpenParens (-1)).run before = .ok ((), opened) := rfl
  obtain ⟨code, expected, _, _, _, ⟨child, hasChild, followed⟩, hasExpected, -⟩ := id executes
  have ran := executes.run ⟨child, hasChild, followed⟩ hasExpected
  have headOp : (liftM (getop headtp) : CheckerM (Option Op)).run opened = .ok (some .pi, opened) :=
    run_liftGetop_ok.mpr ⟨lt_length_of_opOf stands.op, stands.op, rfl⟩
  have domainRun : (liftM (kid headtp 1) : CheckerM Ref).run opened = .ok (run, opened) :=
    run_liftKid_ok.mpr ⟨stands.hasDomain, rfl⟩
  have domainOp : (liftM (getop run) : CheckerM (Option Op)).run opened = .ok (some .run, opened) :=
    run_liftGetop_ok.mpr ⟨stands.allocated, isRun, rfl⟩
  have childRun : (liftM (kid run 0) : CheckerM Ref).run opened = .ok (child, opened) :=
    run_liftKid_ok.mpr ⟨hasChild, rfl⟩
  have codeRun : (liftM (follow child) : CheckerM Ref).run opened = .ok (code, opened) :=
    run_liftFollow_ok.mpr ⟨followed, rfl⟩
  have expectedRun : (liftM (kid run 1) : CheckerM Ref).run opened = .ok (expected, opened) :=
    run_liftKid_ok.mpr ⟨hasExpected, rfl⟩
  have premiseRun : (liftM (runPremise fuel code expected) : CheckerM Unit).run opened =
      .ok ((), { opened with runtime }) := run_liftRun_ok.mpr ⟨runtime, ran, rfl⟩
  have rangeRun : (onStore (kid headtp 2)).run { opened with runtime } =
      .ok (range, { opened with runtime }) :=
    run_liftKid_ok.mpr ⟨(stands.keeps executes.keepsShape).hasRange, rfl⟩
  rw [closeApp, run_bind_of_ok closing, run_bind_of_ok headOp, if_pos rfl,
    run_bind_of_ok domainRun, run_bind_of_ok domainOp, if_pos rfl, run_bind_of_ok childRun,
    run_bind_of_ok codeRun, run_bind_of_ok expectedRun, run_bind_of_ok premiseRun,
    run_bind_of_ok rangeRun]
  rfl

/-- Where at most one side condition follows the last argument, the closing executes all. -/
theorem RunsAll.run_closeApp {fuel : Nat} {headtrm : Option Ref} {headtp classifier : Ref}
    {holes : List (Option Ref)} {before : Checker} {runtime : Runtime}
    (ran : RunsAll fuel headtp before.runtime classifier runtime)
    (single : SingleRun fuel headtp before.runtime) :
    (closeApp fuel headtrm headtp holes).run before =
      .ok (.ended headtrm classifier holes,
        { before with openParens := before.openParens + -1, runtime }) := by
  generalize start : before.runtime = initial at ran single
  cases ran with
  | done sound ends =>
      subst start
      refine run_closeApp_none sound fun run range stands isRun => ?_
      exact ends ⟨_, _, _, stands, isRun⟩
  | @premise _ pi run range _ _ middle _ stands isRun executes rest =>
      subst start
      obtain same | other := eq_or_ne pi headtp
      · subst same
        have ends := single _ _ _ (.one stands isRun executes)
        cases rest with
        | done _ _ => exact run_closeApp_one stands isRun executes
        | premise stands' isRun' _ _ => exact (ends ⟨_, _, _, stands', isRun'⟩).elim
      · have none : RunsOne fuel [] headtp before.runtime [] headtp before.runtime := by
          refine .none fun run range stands' _ => ?_
          exact (other (Option.some.inj (stands.follows.symm.trans stands'.follows))).elim
        exact (single _ _ _ none ⟨_, _, _, stands, isRun⟩).elim

/-! ## Rounds of the loop -/

section Rounds

variable {fuel rounds : Nat} {create : Bool} {prevo : Int} {headtrm : Option Ref}
  {headtp domain range : Ref} {holes : List (Option Ref)} {before peeked : Checker}

/-- A round that finds another argument reads the type of the head. -/
theorem run_round (reads : ReadsOn before peeked)
    (stands : StandsForPi peeked.store.heap headtp headtp domain range) :
    (appArgsExit fuel (check fuel) create prevo (rounds + 1) headtrm headtp holes).run before =
      (if opOf peeked.store.heap domain = some .run then do
        runPremise fuel (← kid domain 0) (← kid domain 1)
        appArgsExit fuel (check fuel) create prevo rounds headtrm range holes
      else do
        if ← isTailArg { create } headtp range then return .tail domain range holes
        else
          let (headtrm, holes) ← checkArg (check fuel) { create } prevo headtp domain headtrm holes
          appArgsExit fuel (check fuel) create prevo rounds headtrm range holes
        : CheckerM AppExit).run peeked := by
  obtain ⟨token, read, tokenRun, more, pushed⟩ := reads
  have headOp : (liftM (getop headtp) : CheckerM (Option Op)).run peeked = .ok (some .pi, peeked) :=
    run_liftGetop_ok.mpr ⟨lt_length_of_opOf stands.op, stands.op, rfl⟩
  have domainRun : (liftM (kid headtp 1) : CheckerM Ref).run peeked = .ok (domain, peeked) :=
    run_liftKid_ok.mpr ⟨stands.hasDomain, rfl⟩
  have rangeRun : (liftM (kid headtp 2) : CheckerM Ref).run peeked = .ok (range, peeked) :=
    run_liftKid_ok.mpr ⟨stands.hasRange, rfl⟩
  have domainOp : (liftM (getop domain) : CheckerM (Option Op)).run peeked =
      .ok (opOf peeked.store.heap domain, peeked) :=
    run_liftGetop_ok.mpr ⟨stands.allocated, rfl, rfl⟩
  rw [appArgsExit, run_bind_of_ok tokenRun, if_neg more, run_bind_of_ok pushed,
    run_bind_of_ok headOp, if_neg (not_not.mpr rfl), run_bind_of_ok domainRun,
    run_bind_of_ok rangeRun, run_bind_of_ok domainOp]

theorem run_round_premise {runtime : Runtime} (reads : ReadsOn before peeked)
    (stands : StandsForPi peeked.store.heap headtp headtp domain range)
    (isRun : opOf peeked.store.heap domain = some .run)
    (executes : Executes fuel false domain peeked.runtime runtime) :
    (appArgsExit fuel (check fuel) create prevo (rounds + 1) headtrm headtp holes).run before =
      (appArgsExit fuel (check fuel) create prevo rounds headtrm range holes).run
        { peeked with runtime } := by
  obtain ⟨code, expected, _, _, _, hasCode, hasExpected, -⟩ := id executes
  have ran := executes.run hasCode hasExpected
  obtain ⟨child, hasChild, rfl⟩ := hasCode
  have codeRun : (liftM (kid domain 0) : CheckerM Ref).run peeked = .ok (child, peeked) :=
    run_liftKid_ok.mpr ⟨hasChild, rfl⟩
  have expectedRun : (liftM (kid domain 1) : CheckerM Ref).run peeked = .ok (expected, peeked) :=
    run_liftKid_ok.mpr ⟨hasExpected, rfl⟩
  have premiseRun : (liftM (runPremise fuel child expected) : CheckerM Unit).run peeked =
      .ok ((), { peeked with runtime }) := run_liftRun_ok.mpr ⟨runtime, ran, rfl⟩
  rw [run_round reads stands, if_pos isRun, run_bind_of_ok codeRun, run_bind_of_ok expectedRun,
    run_bind_of_ok premiseRun]

theorem run_round_argument {after : Checker} {headtrm' : Option Ref} {holes' : List (Option Ref)}
    (reads : ReadsOn before peeked)
    (stands : StandsForPi peeked.store.heap headtp headtp domain range)
    (proper : opOf peeked.store.heap domain ≠ some .run)
    (stays : (isTailArg { create } headtp range).run peeked = .ok (false, peeked))
    (checked : (checkArg (check fuel) { create } prevo headtp domain headtrm holes).run peeked =
      .ok ((headtrm', holes'), after)) :
    (appArgsExit fuel (check fuel) create prevo (rounds + 1) headtrm headtp holes).run before =
      (appArgsExit fuel (check fuel) create prevo rounds headtrm' range holes').run after := by
  rw [run_round reads stands, if_neg proper, run_bind_of_ok stays, if_neg (by simp),
    run_bind_of_ok checked]

theorem run_round_tail (reads : ReadsOn before peeked)
    (stands : StandsForPi peeked.store.heap headtp headtp domain range)
    (proper : opOf peeked.store.heap domain ≠ some .run)
    (leaves : (isTailArg { create } headtp range).run peeked = .ok (true, peeked)) :
    (appArgsExit fuel (check fuel) create prevo (rounds + 1) headtrm headtp holes).run before =
      .ok (.tail domain range holes, peeked) := by
  rw [run_round reads stands, if_neg proper, run_bind_of_ok leaves]
  rfl

theorem run_round_close {read : Checker} (token : nextToken.run before = .ok (.Close, read)) :
    (appArgsExit fuel (check fuel) create prevo (rounds + 1) headtrm headtp holes).run before =
      (closeApp fuel headtrm headtp holes).run read := by
  rw [appArgsExit, run_bind_of_ok token, if_pos rfl]

end Rounds

/-- Rounds of the loop, as many as there are, are run before the rest of it. -/
theorem AppSteps.run {fuel : Nat} {create : Bool} {prevo : Int} {state last : AppState}
    {runs : List PremiseRun} {count : Nat}
    (steps : AppSteps fuel create prevo false state runs count last) :
    ∃ passed, ∀ rounds,
      (appArgsExit fuel (check fuel) create prevo (rounds + passed) state.headtrm state.headtp
        state.holes).run state.checker =
      (appArgsExit fuel (check fuel) create prevo rounds last.headtrm last.headtp last.holes).run
        last.checker := by
  induction steps with
  | refl state => exact ⟨0, fun _ => rfl⟩
  | premise reads stands direct isRun executes rest hyp =>
      obtain rfl := direct rfl
      obtain ⟨passed, same⟩ := hyp
      exact ⟨passed + 1, fun rounds =>
        (run_round_premise reads stands isRun executes).trans (same rounds)⟩
  | argument reads stands direct proper bound stays checked rest hyp =>
      obtain rfl := direct rfl
      obtain ⟨passed, same⟩ := hyp
      exact ⟨passed + 1, fun rounds =>
        (run_round_argument reads stands proper stays checked).trans (same rounds)⟩

/-! ## Run premises are executed -/

theorem extends_openApp {fuel more : Nat} (le : fuel ≤ more) (create : Bool) (c : Token) :
    Extends (openApp fuel (check fuel) create c) (openApp more (check more) create c) := by
  unfold openApp
  repeat' first
    | with_reducible exact extends_refl _
    | with_reducible exact extends_check le _
    | with_reducible exact extends_onStore (extends_clone le _)
    | with_reducible refine extends_bind ?_ fun _ => ?_
    | with_reducible refine extends_ite ?_ ?_

theorem extends_finishApp {fuel more : Nat} (le : fuel ≤ more) (args : CheckArgs) (exit : AppExit) :
    Extends (finishApp fuel (check fuel) args exit) (finishApp more (check more) args exit) := by
  unfold finishApp
  repeat' first
    | with_reducible exact extends_refl _
    | with_reducible exact extends_liftChecker (extends_defeq le _ _)
    | with_reducible exact extends_checkTailArg (fun _ => extends_check le _) le _ _ _ _
    | with_reducible refine extends_bind ?_ fun _ => ?_
    | with_reducible refine extends_ite ?_ ?_
    | split

/-- A run of an application, given its parts. -/
theorem run_checkApp_of {fuel rounds more : Nat} {args : CheckArgs} {c : Token} {prevo : Int}
    {headtrm : Option Ref} {headtp : Ref} {exit : AppExit} {value : Checked}
    {before opened closed after : Checker} (le : fuel ≤ more) (le' : rounds ≤ more)
    (head : (openApp fuel (check fuel) args.create c).run before =
      .ok ((prevo, headtrm, headtp), opened))
    (loop : (appArgsExit fuel (check fuel) args.create prevo rounds headtrm headtp []).run opened =
      .ok (exit, closed))
    (finish : (finishApp fuel (check fuel) args exit).run closed = .ok (value, after)) :
    (checkApp more (check more) args c).run before = .ok (value, after) := by
  have head' := extends_openApp le _ _ _ _ _ head
  have loop' := extends_appArgsExit le le' _ _ _ _ _ _ _ _ loop
  have finish' := extends_finishApp le _ _ _ _ _ finish
  rw [checkApp_eq, appExit_eq, bind_assoc, run_bind_of_ok head', run_bind_of_ok loop']
  exact finish'

/-- A run premise that wants the variable to be a constant, before the rest of a type. -/
def premiseThen (result : String) (rest : List String) : List String :=
  ["(", "!", "u", "(", "^", "(", "same", "x", ")", result, ")"] ++ rest ++ [")"]

/-- A file that declares a rule over one argument, with this range, and goes on with some
command. -/
def ruleThen (range commands : List String) : List Lexeme := scan
  (["(", "declare", "A", "type", ")", "(", "declare", "a", "A", ")", "(", "declare", "b", "A", ")",
    "(", "program", "same", "(", "(", "x", "A", ")", ")", "A", "x", ")",
    "(", "declare", "r", "(", "!", "x", "A"] ++ range ++ [")", ")"] ++ commands)

/-- The checker after a file of commands. -/
def afterFile (lexemes : List Lexeme) : Except Stop Checker := do
  let (_, after) ← (checkFile 30 40).run
    { initChecker (fun _ _ => false) (fun _ => false) with input := lexemes }
  return after

/-- The checker before some term. -/
def reading (signature : Checker) (term : List String) : Checker :=
  { signature with input := scan term, peeked := [] }

/-- Whether a type starts with a side condition. -/
def startsWithRun (heap : List Node) (type : Ref) : Bool :=
  match followDefs heap type with
  | none => false
  | some pi =>
      match (kidsAt heap pi)[1]?, (kidsAt heap pi)[2]? with
      | some run, some _ => opOf heap pi = some .pi ∧ opOf heap run = some .run
      | _, _ => false

theorem startsWithRun_of_eq_true {heap : List Node} {type : Ref}
    (starts : startsWithRun heap type = true) : StartsWithRun heap type := by
  unfold startsWithRun at starts
  split at starts
  · cases starts
  · rename_i pi follows
    split at starts
    · rename_i run range hasDomain hasRange
      obtain ⟨isPi, isRun⟩ := of_decide_eq_true starts
      exact ⟨pi, run, range, ⟨follows, isPi, hasDomain, hasRange, lt_length_of_opOf isRun⟩, isRun⟩
    · cases starts

/-- Whether the type of an application of the rule starts with a side condition. -/
def appliedRule (range : List String) : Except Stop Bool := do
  let signature ← afterFile (ruleThen range [])
  let (value, after) ← (check 13 (synthesising true true)).run
    (reading signature ["(", "r", "a", ")"])
  return value.computed.any (startsWithRun after.store.heap)

theorem exists_of_appliedRule {range : List String} {starts : Bool}
    (ran : appliedRule range = .ok starts) :
    ∃ signature value after,
      (check 13 (synthesising true true)).run (reading signature ["(", "r", "a", ")"]) =
        .ok (value, after) ∧
        value.computed.any (startsWithRun after.store.heap) = starts := by
  unfold appliedRule at ran
  cases read : afterFile (ruleThen range []) with
  | error why => simp [read, bind, Except.bind] at ran
  | ok signature =>
      cases run : (check 13 (synthesising true true)).run
        (reading signature ["(", "r", "a", ")"]) with
      | error why => simp [read, run, bind, Except.bind] at ran
      | ok result =>
          simp only [read, run, bind, Except.bind, pure_eq_ok] at ran
          exact ⟨signature, result.1, result.2, run, ran⟩

theorem opens_reading (signature : Checker) :
    ∃ before, Opens .Ident (reading signature ["(", "r", "a", ")"]) before :=
  ⟨_, _, rfl, rfl⟩

end Lfsc
