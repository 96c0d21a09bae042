import Lfsc.SymbolFrame

/-!
# The frame of a command

Every accepted command leaves the symbol table as it was, except for the identifier it declares, as
long as no identifier is bound for the remainder of a command without saving the pair that it had
when the command started.
-/

namespace Lfsc

open Exec

/-! ## Statements -/

/-- The identifier that a command declares or defines in the symbol table: the text read first. -/
def declaredName (token : Token) (start : Checker) : Option String :=
  match token with
  | .Define | .Declare | .DeclareRule | .DeclareType | .DefineConst | .Opaque =>
      match prefixId.run start with
      | .ok (id, _) => some id
      | .error _ => none
  | _ => none

/-- The identifier that the command starting at the next parenthesis declares or defines. -/
def commandName (before : Checker) : Option String :=
  match (do let _ ← nextToken; nextToken : CheckerM Token).run before with
  | .ok (token, start) => declaredName token start
  | .error _ => none

/-- The table is unchanged except for one identifier, which was unbound. -/
structure TableFrame (identifier : Option String) (before after : Checker) : Prop where
  unchanged : ∀ name, identifier ≠ some name → after.symbols name = before.symbols name
  fresh : ∀ name, identifier = some name → before.symbols name = Binding.none

/-- The frame of a command that starts after its token. -/
abbrev FrameOf (token : Token) (start after : Checker) : Prop :=
  TableFrame (declaredName token start) start after

/-- The bindings that a command makes for its remainder: the first one of each identifier saves the
pair that the identifier had when the command started, and `opaque` makes none. -/
def Tidy (token : Token) (start after : Checker) : Prop :=
  let events := after.trace.drop start.trace.length
  (token = .Opaque → events = []) ∧
    ∀ name event, events.find? (fun event => event.name = name) = some event →
      event = .saved name (start.symbols name)

/-- Between two commands no pair is saved, and an identifier without an expression has no type. -/
structure Settled (checker : Checker) : Prop where
  saved : checker.localSymNames = []
  bound : ∀ name, (checker.symbols name).expr = none → checker.symbols name = Binding.none

/-! ## Scopes without remaining bindings -/

theorem Scoped.trace_eq {before after : Checker} (frame : Scoped False before after) :
    after.trace = before.trace := by
  obtain ⟨events, scopedBy, none⟩ := frame
  rw [scopedBy.trace, none not_false, List.append_nil]

theorem Scoped.saved_eq {before after : Checker} (frame : Scoped False before after) :
    after.localSymNames = before.localSymNames := by
  obtain ⟨events, scopedBy, none⟩ := frame
  rw [scopedBy.saved, none not_false]
  exact List.append_nil _

theorem Scoped.symbols_eq {before after : Checker} (frame : Scoped False before after) :
    after.symbols = before.symbols := by
  obtain ⟨events, scopedBy, none⟩ := frame
  funext name
  exact scopedBy.symbols name (by simp [none not_false])

/-- Events that the trace does not show did not happen. -/
theorem Scoped.of_trace_eq {outlive : Prop} {before after : Checker}
    (frame : Scoped outlive before after) (trace : after.trace = before.trace) :
    Scoped False before after := by
  obtain ⟨events, scopedBy, -⟩ := frame
  have none : events = [] := by simpa [trace] using scopedBy.trace
  exact ⟨events, scopedBy, fun _ => none⟩

theorem Settled.of_scoped {before after : Checker} (settled : Settled before)
    (frame : Scoped False before after) : Settled after := by
  constructor
  · rw [frame.saved_eq, settled.saved]
  · rw [frame.symbols_eq]
    exact settled.bound

theorem frameOf_of_scoped {token : Token} {start after : Checker}
    (none : declaredName token start = none) (frame : Scoped False start after) :
    FrameOf token start after := by
  constructor
  · intro name _
    rw [frame.symbols_eq]
  · intro name declared
    simp [none] at declared

/-! ## Declarations -/

theorem run_rejectRebind_ok {prev : Binding} {value : Unit} {before after : Checker}
    (run : (rejectRebind prev).run before = .ok (value, after)) :
    prev = Binding.none ∧ before = after := by
  rw [rejectRebind] at run
  split at run
  · exact (run_stop_ok.mp run).elim
  · rename_i unbound
    obtain ⟨-, rfl⟩ := run_pure_ok.mp run
    obtain ⟨expr, type⟩ := prev
    simp only [not_or, not_not] at unbound
    obtain ⟨rfl, rfl⟩ := unbound
    exact ⟨rfl, rfl⟩

/-- Binding an identifier at the end of a command succeeds only if it was unbound. -/
theorem run_bindNew_ok {id : String} {pair : Binding} {value : Unit} {placed after : Checker}
    (run : (symbolsInsert id pair >>= rejectRebind).run placed = .ok (value, after)) :
    placed.symbols id = Binding.none ∧
      { placed with symbols := Function.update placed.symbols id pair } = after := by
  simp only [run_bind_ok, run_symbolsInsert_ok] at run
  obtain ⟨_, _, ⟨rfl, rfl⟩, rejectRun⟩ := run
  exact run_rejectRebind_ok rejectRun

/-- The end of a command that declares an identifier. -/
theorem frameOf_declare {token : Token} {id : String} {symbol : Ref} {type : Option Ref}
    {value : Unit} {start placed after : Checker} (settled : Settled start)
    (declared : declaredName token start = some id) (frame : Scoped False start placed)
    (run : (symbolsInsert id ⟨some symbol, type⟩ >>= rejectRebind).run placed =
      .ok (value, after)) :
    FrameOf token start after ∧ Settled after := by
  obtain ⟨unbound, rfl⟩ := run_bindNew_ok run
  rw [frame.symbols_eq] at unbound
  refine ⟨⟨fun name other => ?_, fun name same => ?_⟩, ⟨?_, fun name => ?_⟩⟩
  · have name_ne : name ≠ id := by
      rintro rfl
      exact other declared
    rw [← frame.symbols_eq]
    exact Function.update_of_ne name_ne _ _
  · obtain rfl : id = name := by simpa [declared] using same
    exact unbound
  · exact frame.saved_eq.trans settled.saved
  · by_cases name_eq : name = id
    · subst name_eq
      simp
    · simp only [Function.update_of_ne name_eq, frame.symbols_eq]
      exact settled.bound name

/-- The end of a command that defines an identifier. -/
theorem frameOf_define {token : Token} {fuel : Nat} {id : String} {symbol e : Ref}
    {type : Option Ref} {value : Unit} {start placed after : Checker} (settled : Settled start)
    (declared : declaredName token start = some id) (frame : Scoped False start placed)
    (run : (insertAndBindSymbol fuel id symbol e type >>= rejectRebind).run placed =
      .ok (value, after)) :
    FrameOf token start after ∧ Settled after := by
  rw [insertAndBindSymbol, bind_assoc] at run
  obtain ⟨defined, _, bindRun, rest⟩ := run_bind_ok.mp run
  exact frameOf_declare settled declared (frame.trans (keeps_liftM _ _ _ _ bindRun)) rest

/-- A call of `check` whose term is created leaves nothing behind. -/
theorem keeps_check_create (fuel : Nat) {args : CheckArgs} (inside : ¬ MayOutlive args) :
    Keeps (Scoped False) (check fuel args) :=
  (keeps_check fuel args).mono fun _ _ => Scoped.imp inside

@[simp]
theorem keeps_isTypeOrKind {outlive : Prop} (classifier : Ref) :
    Keeps (Scoped outlive) (liftM (isTypeOrKind classifier) : CheckerM Bool) := keeps_liftM _

attribute [local simp] declaredName in
theorem cmdDefine_frame {fuel : Nat} {value : Unit} {start after : Checker}
    (settled : Settled start) (run : (cmdDefine fuel).run start = .ok (value, after)) :
    FrameOf .Define start after ∧ Settled after := by
  simp only [cmdDefine, run_bind_ok] at run
  obtain ⟨named, id, idRun, s1, prevo, openRun, s2, t, checkRun, s3, _, eatRun, s4, type, typeRun,
    s5, final, finalRun, s6, op, opRun, rest⟩ := run
  have declared : declaredName .Define start = some id := by simp [declaredName, idRun]
  have first : Scoped False start s2 :=
    (keeps_prefixId _ _ _ idRun).trans ((keeps_getOpenParens _ _ _ openRun).trans
      (keeps_check_create fuel (by simp [MayOutlive]) _ _ _ checkRun))
  have second : Scoped False s2 s6 :=
    ((keeps_eatExcess _ _ _ _ eatRun).trans (keeps_deref _ _ _ _ typeRun)).trans
      ((keeps_liftM _ _ _ _ finalRun).trans (keeps_liftM _ _ _ _ opRun))
  split at rest
  · exact (run_report_bind_ok.mp rest).elim
  obtain ⟨s7, s, symRun, rest⟩ := run_bind_ok.mp rest
  obtain ⟨s8, term, termRun, rest⟩ := run_bind_ok.mp rest
  have third : Scoped False s6 s8 :=
    (keeps_liftM _ _ _ _ symRun).trans (keeps_deref _ _ _ _ termRun)
  exact frameOf_define settled declared ((first.trans second).trans third) rest

theorem cmdDeclare_frame {fuel : Nat} {value : Unit} {start after : Checker}
    (settled : Settled start) (run : (cmdDeclare fuel).run start = .ok (value, after)) :
    FrameOf .Declare start after ∧ Settled after := by
  simp only [cmdDeclare, run_bind_ok] at run
  obtain ⟨named, id, idRun, s1, prevo, openRun, s2, t, checkRun, s3, _, eatRun, s4, type, typeRun,
    s5, sort, sortRun, rest⟩ := run
  have declared : declaredName .Declare start = some id := by simp [declaredName, idRun]
  have first : Scoped False start s2 :=
    (keeps_prefixId _ _ _ idRun).trans ((keeps_getOpenParens _ _ _ openRun).trans
      (keeps_check_create fuel (by simp [MayOutlive]) _ _ _ checkRun))
  have second : Scoped False s2 s5 :=
    (keeps_eatExcess _ _ _ _ eatRun).trans
      ((keeps_deref _ _ _ _ typeRun).trans (keeps_liftM _ _ _ _ sortRun))
  split at rest
  · exact (run_report_bind_ok.mp rest).elim
  obtain ⟨s6, s, symRun, rest⟩ := run_bind_ok.mp rest
  exact frameOf_declare settled declared
    ((first.trans second).trans (keeps_liftM _ _ _ _ symRun)) rest

theorem cmdOpaque_frame {fuel : Nat} {value : Unit} {start after : Checker}
    (settled : Settled start) (run : (cmdOpaque fuel).run start = .ok (value, after))
    (quiet : after.trace.drop start.trace.length = []) :
    FrameOf .Opaque start after ∧ Settled after := by
  simp only [cmdOpaque, run_bind_ok] at run
  obtain ⟨named, id, idRun, s1, prevo, openRun, s2, t, checkRun, s3, _, eatRun, s4, type, typeRun,
    s5, final, finalRun, s6, op, opRun, rest⟩ := run
  have declared : declaredName .Opaque start = some id := by simp [declaredName, idRun]
  have first : Scoped False start s1 :=
    (keeps_prefixId _ _ _ idRun).trans (keeps_getOpenParens _ _ _ openRun)
  have third : Scoped False s2 s6 :=
    ((keeps_eatExcess _ _ _ _ eatRun).trans (keeps_deref _ _ _ _ typeRun)).trans
      ((keeps_liftM _ _ _ _ finalRun).trans (keeps_liftM _ _ _ _ opRun))
  split at rest
  · exact (run_report_bind_ok.mp rest).elim
  obtain ⟨s7, s, symRun, rest⟩ := run_bind_ok.mp rest
  have fourth : Scoped False s2 s7 := third.trans (keeps_liftM _ _ _ _ symRun)
  have inner := keeps_check fuel _ _ _ _ checkRun
  have trace : s2.trace = s1.trace := by
    obtain ⟨events, scopedBy, -⟩ := inner
    obtain ⟨-, rfl⟩ := run_bindNew_ok rest
    have trace_eq : s7.trace = start.trace ++ events := by
      rw [fourth.trace_eq, scopedBy.trace, first.trace_eq]
    have none : events = [] := by simpa [trace_eq] using quiet
    rw [scopedBy.trace, none, List.append_nil]
  have second : Scoped False s1 s2 := inner.of_trace_eq trace
  exact frameOf_declare settled declared ((first.trans second).trans fourth) rest

theorem checkDeclList_frame {fuel : Nat} {create : Bool} {result : DeclList}
    {before after : Checker}
    (run : (checkDeclList fuel create (check fuel)).run before = .ok (result, after)) :
    Scoped False before (undo result.oldBindings after) := checkDeclList_undo (keeps_check fuel) run

theorem cmdDeclareRule_frame {fuel : Nat} {value : Unit} {start after : Checker}
    (settled : Settled start) (run : (cmdDeclareRule fuel).run start = .ok (value, after)) :
    FrameOf .DeclareRule start after ∧ Settled after := by
  rw [cmdDeclareRule] at run
  obtain ⟨named, id, idRun, rest⟩ := run_bind_ok.mp run
  have declared : declaredName .DeclareRule start = some id := by simp [declaredName, idRun]
  obtain ⟨s1, decls, declsRun, rest⟩ := run_bind_ok.mp rest
  obtain ⟨s2, ret, retRun, rest⟩ := run_bind_ok.mp rest
  obtain ⟨_, _, restored, rest⟩ := run_bind_ok.mp rest
  cases (run_restoreBindings _ _).symm.trans restored
  obtain ⟨s3, kind, kindRun, rest⟩ := run_bind_ok.mp rest
  obtain ⟨s4, ⟨type, _⟩, buildRun, rest⟩ := run_bind_ok.mp rest
  obtain ⟨s5, s, symRun, rest⟩ := run_bind_ok.mp rest
  have first : Scoped False start (undo decls.oldBindings s1) :=
    (keeps_prefixId _ _ _ idRun).trans (checkDeclList_frame declsRun)
  have second : Scoped False s1 s2 :=
    keeps_check_create fuel (by simp [MayOutlive]) _ _ _ retRun
  have third : Scoped False (undo decls.oldBindings s2) s5 :=
    (keeps_deref _ _ _ _ kindRun).trans
      ((keeps_liftM _ _ _ _ buildRun).trans (keeps_liftM _ _ _ _ symRun))
  exact frameOf_declare settled declared ((first.trans (second.undo _)).trans third) rest

theorem cmdDeclareType_frame {fuel : Nat} {value : Unit} {start after : Checker}
    (settled : Settled start) (run : (cmdDeclareType fuel).run start = .ok (value, after)) :
    FrameOf .DeclareType start after ∧ Settled after := by
  rw [cmdDeclareType] at run
  obtain ⟨named, id, idRun, rest⟩ := run_bind_ok.mp run
  have declared : declaredName .DeclareType start = some id := by simp [declaredName, idRun]
  obtain ⟨s1, decls, declsRun, rest⟩ := run_bind_ok.mp rest
  obtain ⟨_, _, restored, rest⟩ := run_bind_ok.mp rest
  cases (run_restoreBindings _ _).symm.trans restored
  obtain ⟨s2, ⟨type, _⟩, buildRun, rest⟩ := run_bind_ok.mp rest
  obtain ⟨s3, s, symRun, rest⟩ := run_bind_ok.mp rest
  have first : Scoped False start (undo decls.oldBindings s1) :=
    (keeps_prefixId _ _ _ idRun).trans (checkDeclList_frame declsRun)
  have second : Scoped False (undo decls.oldBindings s1) s3 :=
    (keeps_liftM _ _ _ _ buildRun).trans (keeps_liftM _ _ _ _ symRun)
  exact frameOf_declare settled declared (first.trans second) rest

theorem cmdDefineConst_frame {fuel : Nat} {value : Unit} {start after : Checker}
    (settled : Settled start) (run : (cmdDefineConst fuel).run start = .ok (value, after)) :
    FrameOf .DefineConst start after ∧ Settled after := by
  rw [cmdDefineConst] at run
  obtain ⟨named, id, idRun, rest⟩ := run_bind_ok.mp run
  have declared : declaredName .DefineConst start = some id := by simp [declaredName, idRun]
  obtain ⟨s1, decls, declsRun, rest⟩ := run_bind_ok.mp rest
  obtain ⟨s2, ret, retRun, rest⟩ := run_bind_ok.mp rest
  obtain ⟨s3, ⟨term, type⟩, buildRun, rest⟩ := run_bind_ok.mp rest
  obtain ⟨_, _, restored, rest⟩ := run_bind_ok.mp rest
  cases (run_restoreBindings _ _).symm.trans restored
  obtain ⟨s4, s, symRun, rest⟩ := run_bind_ok.mp rest
  obtain ⟨s5, e, termRun, rest⟩ := run_bind_ok.mp rest
  have first : Scoped False start (undo decls.oldBindings s1) :=
    (keeps_prefixId _ _ _ idRun).trans (checkDeclList_frame declsRun)
  have second : Scoped False s1 s3 :=
    (keeps_check_create fuel (by simp [MayOutlive]) _ _ _ retRun).trans
      (keeps_liftM _ _ _ _ buildRun)
  have third : Scoped False (undo decls.oldBindings s3) s5 :=
    (keeps_liftM _ _ _ _ symRun).trans (keeps_deref _ _ _ _ termRun)
  exact frameOf_define settled declared ((first.trans (second.undo _)).trans third) rest

theorem cmdRun_frame {fuel : Nat} {value : Unit} {start after : Checker}
    (settled : Settled start) (run : (cmdRun fuel).run start = .ok (value, after)) :
    FrameOf .Run start after ∧ Settled after := by
  have kept : Keeps (Scoped False) (cmdRun fuel) := by
    rw [cmdRun]
    repeat' first
      | with_reducible refine keeps_bind ?_ fun _ => ?_
      | simp
  have frame := kept _ _ _ run
  exact ⟨frameOf_of_scoped rfl frame, settled.of_scoped frame⟩

/-! ## Checks -/

theorem rebound_cons (symbols : SymbolTable) (binding : String × Binding)
    (old : List (String × Binding)) :
    rebound symbols (binding :: old) =
      Function.update (rebound symbols old) binding.1 binding.2 := rfl

theorem rebound_of_none {events : List Event} {name : String} (symbols : SymbolTable)
    (none : events.find? (fun event => event.name = name) = none) :
    rebound symbols (savedPairs events) name = symbols name := by
  induction events with
  | nil => rfl
  | cons event events hyp =>
      simp only [List.find?_cons] at none
      split at none
      · contradiction
      · rename_i name_ne
        cases event with
        | leaked other => exact hyp none
        | saved other pair =>
            have different : name ≠ other := fun same => by simp [Event.name, same] at name_ne
            rw [savedPairs, rebound_cons, Function.update_of_ne different]
            exact hyp none

/-- Among the pairs saved for an identifier the first one is restored last. -/
theorem rebound_of_first {events : List Event} {name : String} {old : Binding}
    (symbols : SymbolTable)
    (first : events.find? (fun event => event.name = name) = some (.saved name old)) :
    rebound symbols (savedPairs events) name = old := by
  induction events with
  | nil => simp at first
  | cons event events hyp =>
      simp only [List.find?_cons] at first
      split at first
      · obtain rfl : event = .saved name old := by simpa using first
        rw [savedPairs, rebound_cons]
        exact Function.update_self _ _ _
      · rename_i name_ne
        cases event with
        | leaked other => exact hyp first
        | saved other pair =>
            have different : name ≠ other := fun same => by simp [Event.name, same] at name_ne
            rw [savedPairs, rebound_cons, Function.update_of_ne different]
            exact hyp first

theorem run_cleanUp_ok {prev : Int} {value : Unit} {before after : Checker}
    (run : (cleanUp prev).run before = .ok (value, after)) :
    after.symbols = rebound before.symbols before.localSymNames ∧ after.localSymNames = [] ∧
      after.trace = before.trace := by
  simp only [cleanUp, run_bind_ok] at run
  obtain ⟨_, checker, getRun, _, _, restored, cleared, _, clearRun, eatRun⟩ := run
  cases getRun
  cases (run_restoreBindings _ _).symm.trans restored
  cases clearRun
  have frame : Scoped False _ after := keeps_eatExcess _ _ _ _ eatRun
  exact ⟨frame.symbols_eq, frame.saved_eq, frame.trace_eq⟩

/-- Cleaning up after a check restores the table if the first pair saved for each identifier is the
one it had at the start. -/
theorem frameOf_cleanUp {token : Token} {outlive : Prop} {prev : Int} {value : Unit}
    {start checked after : Checker} (settled : Settled start)
    (none : declaredName token start = none) (frame : Scoped outlive start checked)
    (run : (cleanUp prev).run checked = .ok (value, after)) (tidy : Tidy token start after) :
    FrameOf token start after ∧ Settled after := by
  obtain ⟨events, scopedBy, -⟩ := frame
  obtain ⟨symbols_eq, saved_eq, trace_eq⟩ := run_cleanUp_ok run
  have events_eq : after.trace.drop start.trace.length = events := by
    rw [trace_eq, scopedBy.trace, List.drop_left]
  have saved : checked.localSymNames = savedPairs events := by
    rw [scopedBy.saved, settled.saved, List.nil_append]
  have unchanged : ∀ name, after.symbols name = start.symbols name := by
    intro name
    rw [symbols_eq, saved]
    cases first : events.find? (fun event => event.name = name) with
    | none =>
        rw [rebound_of_none _ first]
        exact scopedBy.symbols name fun event mem => by
          simpa using List.find?_eq_none.mp first event mem
    | some event =>
        have event_eq := tidy.2 name event (by rw [events_eq]; exact first)
        subst event_eq
        exact rebound_of_first _ first
  refine ⟨⟨fun name _ => unchanged name, fun name declared => ?_⟩, saved_eq, fun name => ?_⟩
  · simp [none] at declared
  · rw [unchanged name]
    exact settled.bound name

theorem cmdCheck_frame {fuel : Nat} {value : Unit} {start after : Checker}
    (settled : Settled start) (run : (cmdCheck fuel).run start = .ok (value, after))
    (tidy : Tidy .Check start after) : FrameOf .Check start after ∧ Settled after := by
  simp only [cmdCheck, run_bind_ok] at run
  obtain ⟨s1, prev, openRun, s2, _, bigRun, s3, t, checkRun, s4, _, holesRun, s5, computed,
    computedRun, cleanRun⟩ := run
  have big : Scoped True s1 s2 := scoped_modify bigRun rfl rfl rfl
  have holes : Scoped True s3 s4 := scoped_modify holesRun rfl rfl rfl
  have first : Scoped True start s3 :=
    (keeps_getOpenParens _ _ _ openRun).trans
      (big.trans ((keeps_check fuel _ _ _ _ checkRun).imp fun _ => trivial))
  have second : Scoped True s3 s5 := holes.trans (keeps_deref _ _ _ _ computedRun)
  exact frameOf_cleanUp settled rfl (first.trans second) cleanRun tidy

theorem cmdCheckAssuming_frame {fuel : Nat} {value : Unit} {start after : Checker}
    (settled : Settled start) (run : (cmdCheckAssuming fuel).run start = .ok (value, after))
    (tidy : Tidy .CheckAssuming start after) :
    FrameOf .CheckAssuming start after ∧ Settled after := by
  rw [cmdCheckAssuming] at run
  obtain ⟨s1, prev, openRun, rest⟩ := run_bind_ok.mp run
  obtain ⟨s2, decls, declsRun, rest⟩ := run_bind_ok.mp rest
  obtain ⟨s3, type, typeRun, rest⟩ := run_bind_ok.mp rest
  obtain ⟨s4, expected, expectedRun, rest⟩ := run_bind_ok.mp rest
  obtain ⟨s5, body, bodyRun, rest⟩ := run_bind_ok.mp rest
  obtain ⟨_, _, restored, cleanRun⟩ := run_bind_ok.mp rest
  cases (run_restoreBindings _ _).symm.trans restored
  have first : Scoped False start (undo decls.oldBindings s2) :=
    (keeps_getOpenParens _ _ _ openRun).trans (checkDeclList_frame declsRun)
  have second : Scoped False s2 s4 :=
    (keeps_check_create fuel (by simp [MayOutlive]) _ _ _ typeRun).trans
      (keeps_deref _ _ _ _ expectedRun)
  have third : Scoped False s4 s5 :=
    keeps_check_create fuel (by simp [MayOutlive]) _ _ _ bodyRun
  exact frameOf_cleanUp settled rfl (first.trans ((second.trans third).undo _)) cleanRun tidy

/-! ## Programs -/

/-- The parameters read so far with the pair they are bound to afterwards. -/
def unbound (params : List (String × Ref × Ref)) : List (String × Binding) :=
  params.map fun param => (param.1, Binding.none)

theorem rebound_unbound_update (symbols : SymbolTable) (params : List (String × Ref × Ref))
    (name : String) :
    rebound (Function.update symbols name Binding.none) (unbound params) =
      Function.update (rebound symbols (unbound params)) name Binding.none := by
  induction params with
  | nil => rfl
  | cons param params hyp =>
      simp only [unbound, List.map_cons, rebound_cons] at hyp ⊢
      rw [hyp]
      by_cases same : param.1 = name
      · rw [same]
      · exact (Function.update_comm same _ _ _).symm

theorem run_unbindParams (params : List (String × Ref × Ref)) (before : Checker) :
    (unbindParams params).run before = .ok ((), undo (unbound params) before) := by
  rw [unbindParams]
  induction params generalizing before with
  | nil => rfl
  | cons param params hyp =>
      have step : (List.forM (param :: params) fun param => do
          let _ ← symbolsInsert param.1 Binding.none : CheckerM Unit).run before =
          (params.forM fun param => do let _ ← symbolsInsert param.1 Binding.none).run
            { before with symbols := Function.update before.symbols param.1 Binding.none } := rfl
      rw [step, hyp]
      simp only [undo, rebound_unbound_update]
      rfl

/-- An identifier without an expression has no type. -/
def Bound (symbols : SymbolTable) : Prop :=
  ∀ name, (symbols name).expr = none → symbols name = Binding.none

theorem bound_update {symbols : SymbolTable} (bound : Bound symbols) (name : String)
    (symbol : Ref) (type : Option Ref) :
    Bound (Function.update symbols name ⟨some symbol, type⟩) := by
  intro other
  by_cases same : other = name
  · subst same
    simp
  · rw [Function.update_of_ne same]
    exact bound other

/-- Reading the parameters of a program leaves nothing behind once they are unbound. -/
theorem readParams_undo {fuel rounds : Nat} {acc result : List (String × Ref × Ref)}
    {before after : Checker} (bound : Bound before.symbols)
    (run : (readParams fuel rounds acc).run before = .ok (result, after)) :
    Scoped False (undo (unbound acc) before) (undo (unbound result) after) := by
  induction rounds generalizing acc before with
  | zero => exact (run_stop_ok.mp run).elim
  | succ rounds hyp =>
      rw [readParams] at run
      obtain ⟨peeked, token, tokenRun, rest⟩ := run_bind_ok.mp run
      have first : Scoped False before peeked := keeps_nextToken _ _ _ tokenRun
      split at rest
      · obtain ⟨rfl, rfl⟩ := run_pure_ok.mp rest
        exact first.undo _
      simp only [run_bind_ok] at rest
      obtain ⟨s1, _, reinsertRun, s2, _, openRun, s3, name, nameRun, s4, pair, pairRun, rest⟩ :=
        rest
      have second : Scoped False peeked s3 :=
        (keeps_reinsertToken _ _ _ _ reinsertRun).trans
          ((keeps_eatToken _ _ _ _ openRun).trans (keeps_prefixId _ _ _ nameRun))
      have pair_eq : s3.symbols name = pair := by
        simp only [symbolsGet, run_bind_ok, run_pure_ok] at pairRun
        obtain ⟨_, checker, getRun, rfl, -⟩ := pairRun
        cases getRun
        rfl
      have third : Scoped False s3 s4 := keeps_symbolsGet _ _ _ _ pairRun
      split at rest
      · exact (run_report_bind_ok.mp rest).elim
      rename_i undeclared
      simp only [run_bind_ok, run_symbolsInsert_ok] at rest
      obtain ⟨s5, var, varRun, s6, prev, prevRun, s7, checked, checkRun, s8, type, typeRun, s9, _,
        properRun, s10, _, eatRun, s11, _, closeRun, _, _, ⟨rfl, rfl⟩, loopRun⟩ := rest
      have fourth : Scoped False s4 s7 :=
        (keeps_liftM _ _ _ _ varRun).trans ((keeps_getOpenParens _ _ _ prevRun).trans
          (keeps_check_create fuel (by simp [MayOutlive]) _ _ _ checkRun))
      have fifth : Scoped False s7 s9 :=
        (keeps_deref _ _ _ _ typeRun).trans (keeps_checkProper _ _ _ _ _ _ properRun)
      have sixth : Scoped False s9 s11 :=
        (keeps_eatExcess _ _ _ _ eatRun).trans (keeps_eatToken _ _ _ _ closeRun)
      have inner : Scoped False before s11 :=
        ((first.trans second).trans third).trans ((fourth.trans fifth).trans sixth)
      have table : s3.symbols = s11.symbols := by
        rw [inner.symbols_eq, (first.trans second).symbols_eq]
      have old : s11.symbols name = Binding.none := by
        have missing : (s11.symbols name).expr = none := by
          rw [← table, pair_eq]
          exact not_not.mp undeclared
        rw [inner.symbols_eq] at missing ⊢
        exact bound name missing
      have last := hyp (bound_update (inner.symbols_eq ▸ bound) name var (some type)) loopRun
      have cancelled : undo (unbound (acc ++ [(name, var, type)]))
          { s11 with symbols := Function.update s11.symbols name ⟨some var, some type⟩ } =
          undo (unbound acc) s11 := by
        rw [unbound, List.map_append, undo_append]
        have single := undo_insert s11 name ⟨some var, some type⟩
        rw [old] at single
        exact congrArg (undo (unbound acc)) single
      rw [cancelled] at last
      exact (inner.undo _).trans last

theorem keeps_declareProg {outlive : Prop} (progstr : String) (isFunction : Bool) :
    Keeps (Scoped outlive) (declareProg progstr isFunction) := by
  rw [declareProg]
  repeat' first
    | exact keeps_modify (fun _ => rfl) (fun _ => rfl) fun _ => rfl
    | with_reducible refine keeps_bind ?_ fun _ => ?_
    | split
    | simp

theorem keeps_readProgram (fuel : Nat) (prog : Ref) (params : List (String × Ref × Ref)) :
    Keeps (Scoped False) (readProgram fuel prog params) := by
  rw [readProgram]
  repeat' first
    | exact keeps_check_create fuel (by simp [MayOutlive])
    | with_reducible refine keeps_bind ?_ fun _ => ?_
    | split
    | simp

theorem cmdProgram_frame {fuel : Nat} {isFunction : Bool} {value : Unit} {token : Token}
    {start after : Checker} (settled : Settled start) (none : declaredName token start = none)
    (run : (cmdProgram fuel isFunction).run start = .ok (value, after)) :
    FrameOf token start after ∧ Settled after := by
  rw [cmdProgram] at run
  obtain ⟨s1, progstr, nameRun, rest⟩ := run_bind_ok.mp run
  obtain ⟨s2, prog, declareRun, rest⟩ := run_bind_ok.mp rest
  obtain ⟨s3, _, openRun, rest⟩ := run_bind_ok.mp rest
  obtain ⟨s4, params, paramsRun, rest⟩ := run_bind_ok.mp rest
  have first : Scoped False start s3 :=
    (keeps_prefixId _ _ _ nameRun).trans ((keeps_declareProg _ _ _ _ _ declareRun).trans
      (keeps_eatToken _ _ _ _ openRun))
  have bound : Bound s3.symbols := first.symbols_eq ▸ settled.bound
  have second : Scoped False s3 (undo (unbound params) s4) := readParams_undo bound paramsRun
  split at rest
  · exact (run_report_bind_ok.mp rest).elim
  obtain ⟨s5, body, bodyRun, rest⟩ := run_bind_ok.mp rest
  obtain ⟨_, _, unbindRun, setRun⟩ := run_bind_ok.mp rest
  cases (run_unbindParams _ _).symm.trans unbindRun
  have third := (keeps_readProgram _ _ _ _ _ _ bodyRun).undo (unbound params)
  have frame : Scoped False start after :=
    ((first.trans second).trans third).trans (keeps_liftM _ _ _ _ setRun)
  exact ⟨frameOf_of_scoped none frame, settled.of_scoped frame⟩

/-! ## Runs -/

/-- The command is run with every binding for its remainder saved. -/
theorem command_frame {fuel : Nat} {token : Token} {value : Unit} {start after : Checker}
    (settled : Settled start) (run : (command fuel token).run start = .ok (value, after))
    (tidy : Tidy token start after) : FrameOf token start after ∧ Settled after := by
  cases token with
  | Define => exact cmdDefine_frame settled run
  | Declare => exact cmdDeclare_frame settled run
  | DeclareRule => exact cmdDeclareRule_frame settled run
  | DeclareType => exact cmdDeclareType_frame settled run
  | DefineConst => exact cmdDefineConst_frame settled run
  | Check => exact cmdCheck_frame settled run tidy
  | CheckAssuming => exact cmdCheckAssuming_frame settled run tidy
  | Opaque => exact cmdOpaque_frame settled run (tidy.1 rfl)
  | Run => exact cmdRun_frame settled run
  | Program => exact cmdProgram_frame settled rfl run
  | Function => exact cmdProgram_frame settled rfl run
  | _ => exact (run_stop_ok.mp run).elim

/-- The condition on a run: its commands are tidy. -/
def TidyStep (before : Checker) (action : Action) (after : Checker) : Prop :=
  ∀ token, action = .command token → Tidy token before after

theorem settled_init (before : Ref → Ref → Bool) (fewer : Nat → Bool) :
    Settled (initChecker before fewer) := by
  refine ⟨rfl, fun name => ?_⟩
  simp only [initChecker]
  repeat' split
  all_goals simp [Binding.none]

theorem nextToken_scoped {token : Token} {before after : Checker}
    (run : nextToken.run before = .ok (token, after)) : Scoped False before after :=
  keeps_nextToken _ _ _ run

/-- A tidy step keeps the table settled; if it is a command, it has its frame. -/
theorem step_frame {action : Action} {before after : Checker} (settled : Settled before)
    (step : Step before action after) (tidy : TidyStep before action after) :
    Settled after ∧
      ∀ token, action = .command token → TableFrame (commandName before) before after := by
  cases step with
  | openFile lexemes tailCalls eof =>
      refine ⟨?_, fun token same => by cases same⟩
      have ended := settled.of_scoped (nextToken_scoped eof)
      exact ⟨ended.saved, ended.bound⟩
  | skip close =>
      exact ⟨settled.of_scoped (nextToken_scoped close), fun token same => by cases same⟩
  | command fuel openRun nameRun accepted =>
      rename_i opened start token
      have frame : Scoped False before start :=
        (nextToken_scoped openRun).trans (nextToken_scoped nameRun)
      have name_eq : commandName before = declaredName token start := by
        have read : (do let _ ← nextToken; nextToken : CheckerM Token).run before =
            .ok (token, start) := run_bind_ok.mpr ⟨opened, .Open, openRun, nameRun⟩
        rw [commandName, read]
      have tidyStart : Tidy token start after := by
        have tidy := tidy token rfl
        unfold Tidy at tidy ⊢
        rwa [frame.trace_eq, frame.symbols_eq]
      obtain ⟨inner, settledAfter⟩ :=
        command_frame (settled.of_scoped frame) accepted tidyStart
      refine ⟨settledAfter, fun _ _ => ⟨fun name other => ?_, fun name same => ?_⟩⟩
      · rw [← frame.symbols_eq]
        exact inner.unchanged name (name_eq ▸ other)
      · rw [← frame.symbols_eq]
        exact inner.fresh name (name_eq ▸ same)

theorem settled_of_run {state : Checker} (run : RunWith TidyStep state) : Settled state := by
  induction run with
  | init before fewer => exact settled_init before fewer
  | step run step meets hyp => exact (step_frame hyp step meets).1

/-- The checker with a first file opened. -/
def openedFile (lexemes : List Lexeme) : Checker :=
  { initChecker (fun _ _ => false) (fun _ => false) with input := lexemes, tailCalls := true }

theorem run_openedFile (condition : Checker → Action → Checker → Prop) (lexemes : List Lexeme)
    (meets : condition (initChecker (fun _ _ => false) (fun _ => false)) (.openFile lexemes true)
      (openedFile lexemes)) : RunWith condition (openedFile lexemes) :=
  .step (.init _ _) (.openFile lexemes true rfl) meets

/-- What is left of a run of `check`: the branches taken and the pair of an identifier. -/
def leftIn (name : String) (outcome : Except Stop (Unit × Checker)) :
    Option (List Event × Binding) :=
  match outcome with
  | .ok (_, after) => some (after.trace, after.symbols name)
  | .error _ => none

theorem exists_of_leftIn {name : String} {outcome : Except Stop (Unit × Checker)}
    {trace : List Event} {pair : Binding} (found : leftIn name outcome = some (trace, pair)) :
    ∃ after, outcome = .ok ((), after) ∧ after.trace = trace ∧ after.symbols name = pair := by
  cases outcome with
  | error why => simp [leftIn] at found
  | ok result =>
      obtain ⟨_, after⟩ := result
      obtain ⟨rfl, rfl⟩ : after.trace = trace ∧ after.symbols name = pair := by
        simpa [leftIn] using found
      exact ⟨after, rfl, rfl, rfl⟩

/-- A file whose first command is a check of some tokens. -/
def checkOf (lexemes : List Lexeme) : Checker := openedFile (scan ["(", "check"] ++ lexemes)

end Lfsc
