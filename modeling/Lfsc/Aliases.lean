import Lfsc.CommandFrame
import Lfsc.HoleFilling
import Lfsc.Marks

/-!
# Type aliases

`ifequal` compares the types of its two operands as objects.  Two constants, one declared with an
alias and one with the type that the alias stands for, can therefore never be compared, while two
constants declared with the alias can.
-/

namespace Lfsc

open Exec

/-! ## Identifiers that are not in use -/

/-- Two tables differ at short identifiers only. -/
def TablesNear (before after : Checker) : Prop :=
  ∃ bound, ∀ name : String, bound < name.length → after.symbols name = before.symbols name

instance : Std.Refl TablesNear := ⟨fun _ => ⟨0, fun _ _ => rfl⟩⟩

theorem TablesNear.trans {first second third : Checker} (left : TablesNear first second)
    (right : TablesNear second third) : TablesNear first third := by
  obtain ⟨bound, left⟩ := left
  obtain ⟨bound', right⟩ := right
  refine ⟨max bound bound', fun name long => ?_⟩
  rw [right name (by omega), left name (by omega)]

instance : IsTrans Checker TablesNear := ⟨fun _ _ _ => TablesNear.trans⟩

theorem exists_length_bound (events : List Event) :
    ∃ bound, ∀ event ∈ events, event.name.length ≤ bound := by
  induction events with
  | nil => exact ⟨0, by simp⟩
  | cons event events hyp =>
      obtain ⟨bound, short⟩ := hyp
      refine ⟨max event.name.length bound, fun other mem => ?_⟩
      rcases List.mem_cons.mp mem with rfl | mem
      · exact Nat.le_max_left _ _
      · exact Nat.le_trans (short other mem) (Nat.le_max_right _ _)

theorem Scoped.near {outlive : Prop} {before after : Checker}
    (frame : Scoped outlive before after) : TablesNear before after := by
  obtain ⟨events, scopedBy, -⟩ := frame
  obtain ⟨bound, short⟩ := exists_length_bound events
  refine ⟨bound, fun name long => scopedBy.symbols name fun event mem same => ?_⟩
  have le := short event mem
  rw [same] at le
  omega

theorem keeps_near {α : Type} {m : CheckerM α} (kept : Keeps (Scoped True) m) :
    Keeps TablesNear m :=
  kept.mono fun _ _ => Scoped.near

theorem keeps_near_check (fuel : Nat) (args : CheckArgs) : Keeps TablesNear (check fuel args) :=
  (keeps_check fuel args).mono fun _ _ => Scoped.near

theorem keeps_near_insert (name : String) (pair : Binding) :
    Keeps TablesNear (symbolsInsert name pair) := by
  intro before prev after run
  obtain ⟨-, rfl⟩ := run_symbolsInsert_ok.mp run
  refine ⟨name.length, fun other long => ?_⟩
  have other_ne : other ≠ name := by
    rintro rfl
    omega
  simp [Function.update_of_ne other_ne]

theorem keeps_near_insertAndBind (fuel : Nat) (name : String) (symbol e : Ref)
    (type : Option Ref) : Keeps TablesNear (insertAndBindSymbol fuel name symbol e type) :=
  keeps_bind (keeps_near (by simp)) fun _ => keeps_near_insert _ _

theorem keeps_near_forM {α : Type} {f : α → CheckerM Unit}
    (each : ∀ item, Keeps TablesNear (f item)) (items : List α) :
    Keeps TablesNear (items.forM f) := by
  induction items with
  | nil => exact keeps_pure _
  | cons item items hyp => exact keeps_bind (each item) fun _ => hyp

theorem keeps_near_restoreBindings (old : List (String × Binding)) :
    Keeps TablesNear (restoreBindings old) :=
  keeps_near_forM (fun _ => keeps_bind (keeps_near_insert _ _) fun _ => keeps_pure _) _

theorem keeps_near_rejectRebind (prev : Binding) : Keeps TablesNear (rejectRebind prev) :=
  keeps_near (keeps_ite (keeps_report _) (keeps_pure _))

theorem keeps_near_checkDeclItems (fuel : Nat) (create : Bool) (rounds : Nat) (acc : DeclList) :
    Keeps TablesNear (checkDeclItems create (check fuel) rounds acc) := by
  induction rounds generalizing acc with
  | zero => exact keeps_stop _
  | succ rounds hyp =>
      refine keeps_bind (keeps_near keeps_nextToken) fun token => keeps_ite (keeps_pure _) ?_
      refine keeps_bind (keeps_near (keeps_reinsertToken _)) fun _ => ?_
      refine keeps_bind (keeps_near (keeps_checkDeclListItem ?_)) fun item => ?_
      · exact keeps_check fuel
      refine keeps_bind ?_ fun _ => hyp _
      rw [bindDecl]
      refine keeps_ite (keeps_bind (keeps_near (by simp)) fun _ => ?_) (keeps_near ?_)
      · exact keeps_bind (keeps_near_insert _ _) fun _ => keeps_pure _
      · exact keeps_bind (by simp) fun _ => keeps_pure _

theorem keeps_near_checkDeclList (fuel : Nat) (create : Bool) :
    Keeps TablesNear (checkDeclList fuel create (check fuel)) :=
  keeps_bind (keeps_near (by simp)) fun _ => keeps_near_checkDeclItems _ _ _ _

theorem keeps_near_readParams (fuel rounds : Nat) (acc : List (String × Ref × Ref)) :
    Keeps TablesNear (readParams fuel rounds acc) := by
  induction rounds generalizing acc with
  | zero => exact keeps_stop _
  | succ rounds hyp =>
      rw [readParams]
      repeat' first
        | exact hyp _
        | exact keeps_near_insert _ _
        | exact keeps_near_check _ _
        | with_reducible refine keeps_bind ?_ fun _ => ?_
        | split
        | exact keeps_near (by simp)

theorem keeps_near_readProgram (fuel : Nat) (prog : Ref) (params : List (String × Ref × Ref)) :
    Keeps TablesNear (readProgram fuel prog params) :=
  (keeps_readProgram fuel prog params).mono fun _ _ => Scoped.near

theorem keeps_near_unbindParams (params : List (String × Ref × Ref)) :
    Keeps TablesNear (unbindParams params) :=
  keeps_near_forM (fun _ => keeps_bind (keeps_near_insert _ _) fun _ => keeps_pure _) _

theorem keeps_near_cleanUp (prev : Int) : Keeps TablesNear (cleanUp prev) := by
  refine keeps_bind (keeps_near keeps_get) fun _ => ?_
  refine keeps_bind (keeps_near_restoreBindings _) fun _ => ?_
  refine keeps_bind ?_ fun _ => keeps_near (keeps_eatExcess _)
  intro before value after run
  obtain rfl := run_modify_ok.mp run
  exact ⟨0, fun _ _ => rfl⟩

theorem keeps_near_modify {f : Checker → Checker}
    (symbols : ∀ checker, (f checker).symbols = checker.symbols) :
    Keeps TablesNear (modify f : CheckerM Unit) := by
  intro before value after run
  obtain rfl := run_modify_ok.mp run
  exact ⟨0, fun name _ => by rw [symbols]⟩

/-- A command changes the table at short identifiers only. -/
theorem keeps_near_command (fuel : Nat) (token : Token) :
    Keeps TablesNear (command fuel token) := by
  cases token with
  | Define | Declare | DeclareRule | DeclareType | DefineConst | Check | CheckAssuming | Opaque
  | Run | Program | Function =>
      rw [command]
      first
        | rw [cmdDefine] | rw [cmdDeclare] | rw [cmdDeclareRule] | rw [cmdDeclareType]
        | rw [cmdDefineConst] | rw [cmdCheck] | rw [cmdCheckAssuming] | rw [cmdOpaque]
        | rw [cmdRun] | rw [cmdProgram]
      repeat' first
        | with_reducible refine keeps_bind ?_ fun _ => ?_
        | with_reducible exact keeps_near_insert _ _
        | with_reducible exact keeps_near_insertAndBind _ _ _ _ _
        | with_reducible exact keeps_near_check _ _
        | with_reducible exact keeps_near_checkDeclList _ _
        | with_reducible exact keeps_near_restoreBindings _
        | with_reducible exact keeps_near_rejectRebind _
        | with_reducible exact keeps_near_cleanUp _
        | with_reducible exact keeps_near_readParams _ _ _
        | with_reducible exact keeps_near_readProgram _ _ _
        | with_reducible exact keeps_near_unbindParams _
        | with_reducible exact keeps_near (keeps_declareProg _ _)
        | with_reducible exact keeps_near_modify fun _ => rfl
        | split
        | exact keeps_near (by simp)
  | _ => exact keeps_stop _

theorem Step.near {action : Action} {before after : Checker} (step : Step before action after) :
    TablesNear before after := by
  cases step with
  | openFile lexemes tailCalls eof =>
      refine (keeps_near keeps_nextToken _ _ _ eof).trans ?_
      exact ⟨0, fun _ _ => rfl⟩
  | skip close => exact keeps_near keeps_nextToken _ _ _ close
  | command fuel open_ name accepted =>
      exact (keeps_near keeps_nextToken _ _ _ open_).trans
        ((keeps_near keeps_nextToken _ _ _ name).trans (keeps_near_command _ _ _ _ _ accepted))

/-- The table of a state reached binds short identifiers only. -/
theorem short_of_reachable {state : Checker} (reached : Reachable state) :
    ∃ bound, ∀ name : String, bound < name.length → state.symbols name = Binding.none := by
  induction reached with
  | init before fewer =>
      refine ⟨4, fun name long => ?_⟩
      have other : name ≠ "type" ∧ name ≠ "mpz" ∧ name ≠ "mpq" := by
        refine ⟨?_, ?_, ?_⟩ <;> rintro rfl <;> exact absurd long (by decide)
      simp [initChecker, other]
  | step run step _ hyp =>
      obtain ⟨bound, short⟩ := hyp
      obtain ⟨bound', near⟩ := step.near
      exact ⟨max bound bound', fun name long => by
        rw [near name (by omega), short name (by omega)]⟩

theorem tokenOf_of_head {text : String} (head : text.toList.head? = some 'z') :
    tokenOf text = .Ident := by
  obtain ⟨rest, chars⟩ : ∃ rest, text.toList = 'z' :: rest := by
    cases split : text.toList with
    | nil => simp [split] at head
    | cons first rest => exact ⟨rest, by simpa [split] using head⟩
  unfold tokenOf
  split
  all_goals first | exact absurd head (by decide) | simp [chars, isDigits]

/-- There are two identifiers that are not in use. -/
theorem exists_unused {state : Checker} (reached : Reachable state) :
    ∃ first second : String, first ≠ second ∧ tokenOf first = .Ident ∧ tokenOf second = .Ident ∧
      state.symbols first = Binding.none ∧ state.symbols second = Binding.none := by
  obtain ⟨bound, short⟩ := short_of_reachable reached
  have length (count : Nat) : (String.ofList (List.replicate count 'z')).length = count := by simp
  refine ⟨String.ofList (List.replicate (bound + 1) 'z'),
    String.ofList (List.replicate (bound + 2) 'z'), fun same => ?_, ?_, ?_, ?_, ?_⟩
  · have lengths := congrArg String.length same
    rw [length, length] at lengths
    omega
  · exact tokenOf_of_head (by simp [List.replicate_succ])
  · exact tokenOf_of_head (by simp [List.replicate_succ])
  · exact short _ (by rw [length]; omega)
  · exact short _ (by rw [length]; omega)

/-! ## Reading files -/

/-- Nothing of the files read so far is left. -/
structure ReadUp (state : Checker) : Prop where
  input : state.input = []
  peeked : state.peeked = []

/-- The file with these texts is accepted when it is read next. -/
def AcceptsNext (state : Checker) (texts : List String) : Prop :=
  ∃ fuel rounds after,
    (checkFile fuel rounds).run { state with input := scan texts } = .ok ((), after)

/-- A state that has just read a text and reads on with others. -/
def Checker.reading (state : Checker) (text : String) (rest : List String) : Checker :=
  { state with input := scan rest, text }

theorem run_nextToken_scan {state : Checker} {text : String} {rest : List String}
    (input : state.input = scan (text :: rest)) (peeked : state.peeked = []) :
    nextToken.run state =
      .ok (desugar (tokenOf text), state.reading text rest) := by
  have same : state = { state with input := scan (text :: rest), peeked := [] } := by
    rw [← input, ← peeked]
  rw [same]
  rfl

theorem run_nextToken_reading {state : Checker} {text current : String} {rest : List String}
    (peeked : state.peeked = []) : nextToken.run (state.reading current (text :: rest)) =
      .ok (desugar (tokenOf text), state.reading text rest) := by
  have input : (state.reading current (text :: rest)).input = scan (text :: rest) := rfl
  have none : (state.reading current (text :: rest)).peeked = [] := peeked
  exact run_nextToken_scan input none

theorem run_checkFile_command {fuel rounds : Nat} {state opened start : Checker} {token : Token}
    (open_ : nextToken.run state = .ok (.Open, opened))
    (name : nextToken.run opened = .ok (token, start)) :
    (checkFile fuel (rounds + 1)).run state =
      (command fuel token >>= fun _ => checkFile fuel rounds).run start := by
  rw [checkFile, run_bind_of_ok open_]
  exact run_bind_of_ok name

theorem run_checkFile_skip {fuel rounds : Nat} {state after : Checker}
    (close : nextToken.run state = .ok (.Close, after)) :
    (checkFile fuel (rounds + 1)).run state = (checkFile fuel rounds).run after := by
  rw [checkFile, run_bind_of_ok close]

theorem run_prefixId_reading {state : Checker} {text current : String} {rest : List String}
    (peeked : state.peeked = []) : prefixId.run (state.reading current (text :: rest)) =
      .ok (text, state.reading text rest) := by
  rw [prefixId, run_bind_of_ok (run_nextToken_reading peeked)]
  rfl

theorem run_eatExcess_none {state : Checker} :
    (eatExcess state.openParens).run state = .ok ((), state) := by
  have read : getOpenParens.run state = .ok (state.openParens, state) := rfl
  rw [eatExcess, run_bind_of_ok read, Int.sub_self]
  rfl

theorem run_tokenStr (state : Checker) : tokenStr.run state = .ok (state.text, state) := rfl

theorem run_symbolsGet (name : String) (state : Checker) :
    (symbolsGet name).run state = .ok (state.symbols name, state) := rfl

theorem run_mapM_cons {α β : Type} {f : α → CheckerM β} {item : α} {items : List α} {value : β}
    {values : List β} {before middle after : Checker}
    (first : (f item).run before = .ok (value, middle))
    (others : (items.mapM f).run middle = .ok (values, after)) :
    ((item :: items).mapM f).run before = .ok (value :: values, after) := by
  rw [List.mapM_cons, run_bind_of_ok first, run_bind_of_ok others]
  rfl

/-! ## Declarations -/

/-- The tokens that `check` reads as an identifier. -/
def Token.isName (token : Token) : Bool :=
  desugar token ∉ [.Open, .Eof, .Hole, .Natural, .Rational]

/-- A state with one more object. -/
def Checker.allocated (state : Checker) (node : Node) : Checker :=
  { state with
    runtime := { state.runtime with
      store := { state.store with heap := state.store.heap ++ [node] } } }

/-- A state in which a constant is declared with a type. -/
def Checker.declared (state : Checker) (id : String) (type : Ref) : Checker :=
  { state.allocated (.sym id none) with
    symbols := Function.update state.symbols id ⟨some state.store.heap.length, some type⟩ }

theorem length_declared (state : Checker) (id : String) (type : Ref) :
    (state.declared id type).store.heap.length = state.store.heap.length + 1 := by
  simp [Checker.declared, Checker.allocated]

section Declare

variable {fuel : Nat} {start after : Checker} {id name : String} {rest : List String}
  {symbol kind : Ref} {current : String}

/-- An accepted declaration binds its identifier, which was unbound, to a new symbol. -/
theorem run_cmdDeclare_binds (peeked : start.peeked = [])
    (run : (cmdDeclare fuel).run (start.reading current (id :: rest)) = .ok ((), after)) :
    start.symbols id = Binding.none ∧ ∃ constant type,
      after.symbols = Function.update start.symbols id ⟨some constant, type⟩ ∧
        after.store.heap[constant]? = some (.sym id none) := by
  simp only [cmdDeclare, run_bind_ok] at run
  obtain ⟨named, id', idRun, s1, prevo, openRun, s2, t, checkRun, s3, _, eatRun, s4, type, typeRun,
    s5, sort, sortRun, run⟩ := run
  rw [run_prefixId_reading peeked] at idRun
  cases idRun
  have frame : Scoped False (start.reading id rest) s5 :=
    (keeps_getOpenParens _ _ _ openRun).trans
      ((keeps_check_create fuel (by simp [MayOutlive]) _ _ _ checkRun).trans
        ((keeps_eatExcess _ _ _ _ eatRun).trans
          ((keeps_deref _ _ _ _ typeRun).trans (keeps_liftM _ _ _ _ sortRun))))
  split at run
  · exact (run_report_bind_ok.mp run).elim
  obtain ⟨s6, constant, symRun, run⟩ := run_bind_ok.mp run
  obtain ⟨store, inner, rfl⟩ := run_onStore_ok.mp symRun
  obtain ⟨rfl, rfl⟩ := run_new_ok.mp inner
  obtain ⟨unbound, rfl⟩ := run_bindNew_ok run
  have symbols : s5.symbols = start.symbols := frame.symbols_eq
  refine ⟨by rw [← symbols]; exact unbound, s5.store.heap.length, t.term, ?_, ?_⟩
  · simp only [symbols]
  · simp

/-- A declaration with an identifier as its type. -/
theorem run_cmdDeclare_name (peeked : start.peeked = []) (readable : (tokenOf name).isName)
    (bound : start.symbols name = ⟨some symbol, some kind⟩) :
    (cmdDeclare (fuel + 1)).run (start.reading current (id :: name :: rest)) = .ok ((), after) ↔
      DenotesSort start.store.heap kind ∧ start.symbols id = Binding.none ∧
        (start.declared id symbol).reading name rest = after := by
  have named : prefixId.run (start.reading current (id :: name :: rest)) =
    .ok (id, start.reading id (name :: rest)) := run_prefixId_reading peeked
  have read : nextToken.run (start.reading id (name :: rest)) =
    .ok (desugar (tokenOf name), start.reading name rest) := run_nextToken_reading peeked
  have checked : (check (fuel + 1) { create := true, computed := true, returnPos := true }).run
      (start.reading id (name :: rest)) =
        .ok (⟨some symbol, some kind, false⟩, start.reading name rest) := by
    rw [check_ident read (by simpa [Token.isName] using readable), checkIdent]
    refine (run_bind_of_ok (run_tokenStr _)).trans ((run_bind_of_ok (run_symbolsGet _ _)).trans ?_)
    have found : (start.reading name rest).symbols (start.reading name rest).text =
      ⟨some symbol, some kind⟩ := bound
    rw [found]
    rfl
  have parens : getOpenParens.run (start.reading id (name :: rest)) =
    .ok (start.openParens, start.reading id (name :: rest)) := rfl
  have eaten : (eatExcess start.openParens).run (start.reading name rest) =
    .ok ((), start.reading name rest) := run_eatExcess_none
  rw [cmdDeclare, run_bind_of_ok named, run_bind_of_ok parens, run_bind_of_ok checked,
    run_bind_of_ok eaten]
  constructor
  · intro run
    obtain ⟨s4, type, typeRun, run⟩ := run_bind_ok.mp run
    obtain ⟨same, rfl⟩ := run_deref_ok.mp typeRun
    cases same
    obtain ⟨s5, sort, sortRun, run⟩ := run_bind_ok.mp run
    obtain ⟨store, inner, rfl⟩ := run_onStore_ok.mp sortRun
    obtain ⟨rfl, holds⟩ := run_isTypeOrKind_ok inner
    split at run
    · exact (run_report_bind_ok.mp run).elim
    · rename_i accepted
      obtain ⟨s6, constant, symRun, run⟩ := run_bind_ok.mp run
      obtain ⟨store, inner, rfl⟩ := run_onStore_ok.mp symRun
      obtain ⟨rfl, rfl⟩ := run_new_ok.mp inner
      obtain ⟨unbound, rfl⟩ := run_bindNew_ok run
      exact ⟨holds (by simpa using accepted), unbound, rfl⟩
  · rintro ⟨sort, unbound, rfl⟩
    have sorted : (liftM (isTypeOrKind kind) : CheckerM Bool).run (start.reading name rest) =
        .ok (true, start.reading name rest) :=
      run_onStore_ok.mpr ⟨_, run_isTypeOrKind_sort sort, rfl⟩
    have typed : (deref (some kind) : CheckerM Ref).run (start.reading name rest) =
        .ok (kind, start.reading name rest) := rfl
    rw [run_bind_of_ok typed, run_bind_of_ok sorted]
    change (match start.symbols id with
      | prev => (rejectRebind prev).run ((start.declared id symbol).reading name rest)) = _
    rw [unbound]
    rfl

end Declare

/-! ## Comparisons in code -/

section Code

variable {fuel : Nat} {start after : Checker} {first second : String} {rest : List String}
  {left right e leftType rightType : Ref} {flag : Bool}

theorem run_readCode_name {name : String} {symbol : Ref}
    (input : start.input = scan (name :: rest)) (peeked : start.peeked = [])
    (ident : tokenOf name = .Ident) (bound : (start.symbols name).expr = some symbol) :
    (readCode (fuel + 1)).run start = .ok (some symbol, start.reading name rest) := by
  have read := run_nextToken_scan input peeked
  rw [ident] at read
  rw [readCode, run_bind_of_ok read]
  refine (run_bind_of_ok (run_tokenStr _)).trans ((run_bind_of_ok (run_symbolsGet _ _)).trans ?_)
  have found : ((start.reading name rest).symbols (start.reading name rest).text).expr =
    some symbol := bound
  rw [found]
  rfl

theorem run_readCode_ifequal
    (input : start.input =
      scan (["(", "ifequal", first, second, first, second, ")"] ++ rest))
    (peeked : start.peeked = []) (ident : tokenOf first = .Ident)
    (ident' : tokenOf second = .Ident) (bound : (start.symbols first).expr = some left)
    (bound' : (start.symbols second).expr = some right) :
    (readCode (fuel + 2)).run start = .ok (some start.store.heap.length,
      (start.allocated (.cexpr .ifequal [left, right, left, right] false)).reading ")" rest) := by
  have open_ := run_nextToken_scan input peeked
  have name : nextToken.run
      (start.reading "(" (["ifequal", first, second, first, second, ")"] ++ rest)) =
        .ok (.IfEqual, start.reading "ifequal" ([first, second, first, second, ")"] ++ rest)) :=
    run_nextToken_reading peeked
  have one (text : String) (others : List String) :
      (readCode (fuel + 1)).run (start.reading text (first :: others)) =
        .ok (some left, start.reading first others) := run_readCode_name rfl peeked ident bound
  have two (text : String) (others : List String) :
      (readCode (fuel + 1)).run (start.reading text (second :: others)) =
        .ok (some right, start.reading second others) := run_readCode_name rfl peeked ident' bound'
  have kids : ((List.replicate 4 ()).mapM fun _ => readCode (fuel + 1)).run
      (start.reading "ifequal" ([first, second, first, second, ")"] ++ rest)) =
        .ok ([some left, some right, some left, some right], start.reading second (")" :: rest)) :=
    run_mapM_cons (one _ _) (run_mapM_cons (two _ _) (run_mapM_cons (one _ _)
      (run_mapM_cons (two _ _) rfl)))
  have made : (onStore (newCExpr .ifequal [some left, some right, some left, some right])).run
      (start.reading second (")" :: rest)) = .ok (start.store.heap.length,
        (start.allocated (.cexpr .ifequal [left, right, left, right] false)).reading second
          (")" :: rest)) :=
    run_onStore_ok.mpr ⟨_, run_new_ok.mpr ⟨rfl, rfl⟩, rfl⟩
  have close : (eatToken .Close).run
      ((start.allocated (.cexpr .ifequal [left, right, left, right] false)).reading second
          (")" :: rest)) =
        .ok ((),
          (start.allocated (.cexpr .ifequal [left, right, left, right] false)).reading ")" rest) :=
    run_eatToken_ok.mpr (run_nextToken_reading peeked)
  rw [readCode, run_bind_of_ok open_]
  refine (run_bind_of_ok name).trans ?_
  change (readFixed (readCode (fuel + 1)) .ifequal 4).run _ = _
  rw [readFixed, run_bind_of_ok kids]
  exact (run_bind_of_ok made).trans ((run_bind_of_ok close).trans rfl)

/-- The type of a symbol in code is the one in the table. -/
theorem run_checkCode_symbol {name : String} {val : Option Ref}
    (found : start.store.heap[e]? = some (.sym name val))
    (bound : (start.symbols name).type = some leftType) :
    (checkCode (fuel + 1) e).run start = .ok (some leftType, start) := by
  rw [checkCode, run_bind_of_ok (run_load_found found)]
  refine (run_bind_of_ok (run_symbolsGet _ _)).trans ?_
  rw [bound]
  rfl

theorem run_checkCode_ifequal
    (found : start.store.heap[e]? = some (.cexpr .ifequal [left, right, left, right] flag))
    (symbol : start.store.heap[left]? = some (.sym first none))
    (symbol' : start.store.heap[right]? = some (.sym second none))
    (bound : (start.symbols first).type = some leftType)
    (bound' : (start.symbols second).type = some rightType) :
    (checkCode (fuel + 2) e).run start =
      (if some leftType ≠ some rightType then
        report "\"ifequal\" used with compare expressions that do not have equal types\n"
      else
        sameBranchType (some leftType) (some rightType)
          ("\"ifequal\" used with return expressions that do not " ++
            "have equal datatypes\nfor their types.\n") : CheckerM (Option Ref)).run start := by
  have kid (index : Nat) (child : Ref) (same : [left, right, left, right][index]? = some child) :=
    run_kid_found found same
  have typed : (checkCode (fuel + 1) left).run start = .ok (some leftType, start) :=
    run_checkCode_symbol symbol bound
  have typed' : (checkCode (fuel + 1) right).run start = .ok (some rightType, start) :=
    run_checkCode_symbol symbol' bound'
  rw [checkCode, run_bind_of_ok (run_load_found found)]
  change (checkIfEqual (checkCode (fuel + 1)) e).run start = _
  rw [checkIfEqual]
  refine (run_bind_of_ok (kid 0 left rfl)).trans ((run_bind_of_ok typed).trans ?_)
  refine (run_bind_of_ok (kid 1 right rfl)).trans ((run_bind_of_ok typed').trans ?_)
  by_cases same : some leftType = some rightType
  · rw [if_neg (not_not_intro same), if_neg (not_not_intro same), checkBranches]
    refine (run_bind_of_ok (kid 2 left rfl)).trans ((run_bind_of_ok typed).trans ?_)
    refine (run_bind_of_ok (kid 3 right rfl)).trans ((run_bind_of_ok typed').trans ?_)
    rfl
  · rw [if_pos same, if_pos same]
    rfl

/-- An operand without a type is not accepted. -/
theorem run_checkCode_untyped {kids : List Ref} {type : Option Ref}
    (found : start.store.heap[e]? = some (.cexpr .ifequal (left :: kids) flag))
    (symbol : start.store.heap[left]? = some (.sym first none))
    (unbound : (start.symbols first).type = none)
    (run : (checkCode (fuel + 2) e).run start = .ok (type, after)) : False := by
  rw [checkCode, run_bind_of_ok (run_load_found found)] at run
  change (checkIfEqual (checkCode (fuel + 1)) e).run start = _ at run
  have first_kid : (left :: kids)[0]? = some left := rfl
  rw [checkIfEqual, run_bind_of_ok (run_kid_found found first_kid)] at run
  obtain ⟨_, _, operand, -⟩ := run_bind_ok.mp run
  rw [checkCode, run_bind_of_ok (run_load_found symbol)] at operand
  obtain ⟨_, binding, got, operand⟩ := run_bind_ok.mp operand
  cases got
  rw [unbound] at operand
  exact run_stop_ok.mp operand

theorem run_sameBranchType {type value : Ref} {message : String}
    (followed : followDefs start.store.heap type = some value) :
    (sameBranchType (some type) (some type) message).run start = .ok (some value, start) := by
  have read : (followType (some type)).run start = .ok (value, start) :=
    run_bind_ok.mpr ⟨_, _, rfl, run_onStore_ok.mpr ⟨_, run_follow_ok.mpr ⟨followed, rfl⟩, rfl⟩⟩
  rw [sameBranchType, run_bind_of_ok read, run_bind_of_ok read, if_neg (not_not_intro rfl)]
  rfl

/-- Two symbols that have no values are equal if they are the same. -/
theorem run_defeq_symbols {store : Store} (symbol : store.heap[left]? = some (.sym first none))
    (symbol' : store.heap[right]? = some (.sym second none)) :
    (defeq (fuel + 1) left right).run store = .ok (decide (left = right), store) := by
  rw [defeq]
  by_cases same : left = right
  · rw [if_pos same]
    simp [same]
  · have op : (getop left).run store = .ok (none, store) :=
      run_getop_ok.mpr ⟨(List.getElem?_eq_some_iff.mp symbol).1, by simp [opOf, symbol], rfl⟩
    have op' : (getop right).run store = .ok (none, store) :=
      run_getop_ok.mpr ⟨(List.getElem?_eq_some_iff.mp symbol').1, by simp [opOf, symbol'], rfl⟩
    have undecided : (defeqLeft fuel (defeq fuel) left right).run store = .ok (none, store) :=
      run_bind_ok.mpr ⟨_, _, run_load_ok.mpr ⟨symbol, rfl⟩, rfl⟩
    have undecided' : (defeqRight fuel (defeq fuel) left right).run store = .ok (none, store) :=
      run_bind_ok.mpr ⟨_, _, run_load_ok.mpr ⟨symbol', rfl⟩, rfl⟩
    rw [if_neg same, run_bind_of_ok undecided]
    refine (run_bind_of_ok undecided').trans ((run_bind_of_ok op).trans ?_)
    refine (run_bind_of_ok op').trans ?_
    rw [if_neg (not_not_intro rfl), defeqSame]
    refine (run_bind_of_ok op).trans ?_
    refine (run_bind_of_ok (run_load_ok.mpr ⟨symbol, rfl⟩)).trans ?_
    exact (run_bind_of_ok (run_load_ok.mpr ⟨symbol', rfl⟩)).trans rfl

theorem run_runCode_ifequal {runtime : Runtime}
    (found : runtime.store.heap[e]? = some (.cexpr .ifequal [left, right, left, right] flag))
    (symbol : runtime.store.heap[left]? = some (.sym first none))
    (symbol' : runtime.store.heap[right]? = some (.sym second none)) (other : left ≠ right) :
    (runCode (fuel + 2) e).run runtime = .ok (some right, { runtime with cache := [] }) := by
  have load {r : Ref} {node : Node} (loaded : runtime.store.heap[r]? = some node) :
      (liftM (load r) : RunM Node).run { runtime with cache := [] } =
        .ok (node, { runtime with cache := [] }) :=
    run_lift_ok.mpr ⟨_, run_load_ok.mpr ⟨loaded, rfl⟩, rfl⟩
  have kid (index : Nat) (child : Ref) (same : [left, right, left, right][index]? = some child) :
      (liftM (kid e index) : RunM Ref).run { runtime with cache := [] } =
        .ok (child, { runtime with cache := [] }) :=
    run_lift_ok.mpr ⟨_, run_kid_ok.mpr ⟨⟨_, _, _, found, same⟩, rfl⟩, rfl⟩
  have leaf {r : Ref} {text : String} (loaded : runtime.store.heap[r]? = some (.sym text none)) :
      (runCodeInternal (fuel + 1) r false).run { runtime with cache := [] } =
        .ok (some r, { runtime with cache := [] }) := by
    rw [runCodeInternal, run_bind_of_ok (load loaded)]
    have followed : followDefs runtime.store.heap r = some r := by
      simp [followDefs, followFor, valOf, loaded]
    refine run_lift_ok.mpr ⟨_, ?_, rfl⟩
    rw [runLeaf, run_bind_of_ok (run_load_ok.mpr ⟨loaded, rfl⟩)]
    exact (run_bind_of_ok (run_follow_ok.mpr ⟨followed, rfl⟩)).trans rfl
  have compared : (liftM (defeq (fuel + 1) left right) : RunM Bool).run
      { runtime with cache := [] } = .ok (decide (left = right), { runtime with cache := [] }) :=
    run_lift_ok.mpr ⟨_, run_defeq_symbols symbol symbol', rfl⟩
  have cleared : (modify fun runtime => { runtime with cache := [] } : RunM Unit).run runtime =
      .ok ((), { runtime with cache := [] }) := rfl
  rw [runCode, run_bind_of_ok cleared]
  rw [runCodeInternal, run_bind_of_ok (load found)]
  change (runIfEqual (fuel + 1) (runCodeInternal (fuel + 1) · false) e).run _ = _
  rw [runIfEqual, run_bind_of_ok (kid 0 left rfl), run_bind_of_ok (leaf symbol)]
  refine (run_bind_of_ok (kid 1 right rfl)).trans ((run_bind_of_ok (leaf symbol')).trans ?_)
  refine (run_bind_of_ok compared).trans ?_
  rw [runBranch, decide_eq_false other, if_neg Bool.false_ne_true]
  exact (run_bind_of_ok (kid 3 right rfl)).trans (leaf symbol')

/-- Two constants are at hand: identifiers bound to symbols without values, with types. -/
structure TwoConstants (state : Checker) (first second : String) (left right : Ref)
    (leftType : Option Ref) (rightType : Ref) : Prop where
  peeked : state.peeked = []
  idents : tokenOf first = .Ident ∧ tokenOf second = .Ident
  bound : state.symbols first = ⟨some left, leftType⟩
  bound' : state.symbols second = ⟨some right, some rightType⟩
  symbol : state.store.heap[left]? = some (.sym first none)
  symbol' : state.store.heap[right]? = some (.sym second none)

/-- A `run` that compares two constants. -/
def comparison (first second : String) : List String :=
  ["(", "run", "(", "ifequal", first, second, first, second, ")", ")"]

section Constants

variable {leftType : Option Ref}

theorem TwoConstants.allocated (constants : TwoConstants start first second left right leftType
    rightType) (node : Node) (text : String) (rest : List String) :
    TwoConstants ((start.allocated node).reading text rest) first second left right leftType
      rightType where
  peeked := constants.peeked
  idents := constants.idents
  bound := constants.bound
  bound' := constants.bound'
  symbol := by
    refine (List.getElem?_append_left ?_).trans constants.symbol
    exact (List.getElem?_eq_some_iff.mp constants.symbol).1
  symbol' := by
    refine (List.getElem?_append_left ?_).trans constants.symbol'
    exact (List.getElem?_eq_some_iff.mp constants.symbol').1

/-- A state in which the code of a comparison has just been read. -/
def Checker.compared (state : Checker) (left right : Ref) (rest : List String) : Checker :=
  (state.allocated (.cexpr .ifequal [left, right, left, right] false)).reading ")" (")" :: rest)

theorem run_readCode_comparison (constants : TwoConstants start first second left right leftType
    rightType) (rest : List String) :
    (readCode (fuel + 2)).run (start.reading "run" ((comparison first second).drop 2 ++ rest)) =
      .ok (some start.store.heap.length, start.compared left right rest) := by
  refine run_readCode_ifequal ?_ ?_ constants.idents.1 constants.idents.2 ?_ ?_
  · simp [comparison, Checker.reading]
  · exact constants.peeked
  · exact congrArg Binding.expr constants.bound
  · exact congrArg Binding.expr constants.bound'

theorem getElem_compared (start : Checker) (left right : Ref) (rest : List String) :
    (start.compared left right rest).store.heap[start.store.heap.length]? =
      some (.cexpr .ifequal [left, right, left, right] false) := by
  simp [Checker.compared, Checker.allocated, Checker.reading]

/-- Constants of the same type are compared. -/
theorem run_cmdRun_comparison {type value : Ref}
    (constants : TwoConstants start first second left right (some type) type)
    (other : left ≠ right) (allocated : value < start.store.heap.length)
    (followed : followDefs start.store.heap type = some value) (rest : List String) :
    ∃ after, (cmdRun 2).run (start.reading "run" ((comparison first second).drop 2 ++ rest)) =
      .ok ((), after) ∧ after.input = scan (")" :: rest) ∧ after.peeked = [] := by
  have placed : TwoConstants (start.compared left right rest) first second left right
    (some type) type := constants.allocated _ _ _
  have found := getElem_compared start left right rest
  have read : (readCode 2).run (start.reading "run" ((comparison first second).drop 2 ++ rest)) =
    .ok (some start.store.heap.length, start.compared left right rest) :=
      run_readCode_comparison constants rest
  have followed' : followDefs (start.compared left right rest).store.heap type = some value :=
    followDefs_append followed allocated
  have typed : (checkCode 2 start.store.heap.length).run (start.compared left right rest) =
      .ok (some value, start.compared left right rest) := by
    rw [run_checkCode_ifequal found placed.symbol placed.symbol'
      (congrArg Binding.type placed.bound) (congrArg Binding.type placed.bound'),
      if_neg (not_not_intro rfl), run_sameBranchType followed']
  have ran : (runCode 2 start.store.heap.length).run (start.compared left right rest).runtime =
    .ok (some right, { (start.compared left right rest).runtime with cache := [] }) :=
      run_runCode_ifequal found placed.symbol placed.symbol' other
  refine ⟨{ start.compared left right rest with
    runtime := { (start.compared left right rest).runtime with cache := [] } }, ?_, rfl,
    constants.peeked⟩
  rw [cmdRun, run_bind_of_ok read]
  refine (run_bind_of_ok (run_deref_ok.mpr ⟨rfl, rfl⟩)).trans ?_
  refine (run_bind_of_ok typed).trans ?_
  exact (run_bind_of_ok (run_zoom_ok.mpr ⟨_, ran, rfl⟩)).trans rfl

/-- Constants that are compared are of the same type. -/
theorem same_of_cmdRun_comparison (constants : TwoConstants start first second left right leftType
    rightType) {rest : List String}
    (run : (cmdRun fuel).run (start.reading "run" ((comparison first second).drop 2 ++ rest)) =
      .ok ((), after)) : leftType = some rightType := by
  have placed : TwoConstants (start.compared left right rest) first second left right leftType
    rightType := constants.allocated _ _ _
  have found := getElem_compared start left right rest
  simp only [cmdRun, run_bind_ok] at run
  obtain ⟨s1, code, readRun, s2, e', derefRun, s3, type, typeRun, -⟩ := run
  have readRun' := extends_readCode (Nat.le_add_right fuel 2) _ _ _ readRun
  rw [run_readCode_comparison constants rest] at readRun'
  cases readRun'
  obtain ⟨same, rfl⟩ := run_deref_ok.mp derefRun
  cases same
  have typeRun' := extends_checkCode (Nat.le_add_right fuel 2) _ _ _ _ typeRun
  cases leftType with
  | none => exact (run_checkCode_untyped found placed.symbol
      (congrArg Binding.type placed.bound) typeRun').elim
  | some leftType =>
      by_contra differ
      rw [run_checkCode_ifequal found placed.symbol placed.symbol'
        (congrArg Binding.type placed.bound) (congrArg Binding.type placed.bound'),
        if_pos differ] at typeRun'
      exact (run_stop_ok.mp typeRun').elim

end Constants

end Code

/-! ## Aliases are told from their types -/

/-- An identifier that stands for a type: its symbol is defined as another expression, and its
classifier is `type`. -/
structure TypeAlias (state : Checker) (name : String) (symbol : Ref) : Prop where
  readable : (tokenOf name).isName
  classified : ∃ kind last, state.symbols name = ⟨some symbol, some kind⟩ ∧
    followDefs state.store.heap kind = some last ∧ opOf state.store.heap last = some .type
  defined : ∃ value, value ≠ symbol ∧ value < state.store.heap.length ∧
    followDefs state.store.heap symbol = some value

/-- The declaration of a constant. -/
def declaration (id : String) (type : List String) : List String :=
  ["(", "declare", id] ++ type ++ [")"]

/-- A text that stands for an expression other than a symbol: whatever follows it, a declaration
with it reads just the text, and the constant declared does not have the symbol as its type. -/
def StandsForOther (state : Checker) (symbol : Ref) (text : List String) : Prop :=
  ∀ (fuel : Nat) (id : String) (rest : List String) (after : Checker),
    (cmdDeclare fuel).run (state.reading "declare" (id :: text ++ ")" :: rest)) =
      .ok ((), after) →
        after.input = scan (")" :: rest) ∧ after.peeked = [] ∧
          (after.symbols id).type ≠ some symbol

/-- An identifier of another symbol is such a text. -/
theorem standsForOther_name {state : Checker} {symbol type kind : Ref} {name : String}
    (peeked : state.peeked = []) (readable : (tokenOf name).isName)
    (bound : state.symbols name = ⟨some type, some kind⟩) (other : type ≠ symbol) :
    StandsForOther state symbol [name] := by
  intro fuel id rest after declared
  rcases fuel with _ | fuel
  · simp only [cmdDeclare, run_bind_ok] at declared
    obtain ⟨_, _, -, _, _, -, _, _, checkRun, -⟩ := declared
    exact (run_stop_ok.mp checkRun).elim
  obtain ⟨-, -, rfl⟩ := (run_cmdDeclare_name peeked readable bound).mp declared
  refine ⟨rfl, peeked, fun same => other ?_⟩
  simpa [Checker.declared, Checker.reading] using same

section Transparency

variable {state : Checker} {name first second : String} {symbol : Ref} {text : List String}

theorem run_checkFile_declaration {fuel rounds : Nat} {current id : String}
    {type rest : List String} (peeked : state.peeked = []) :
    (checkFile fuel (rounds + 1)).run (state.reading current (declaration id type ++ rest)) =
      (cmdDeclare fuel >>= fun _ => checkFile fuel rounds).run
        (state.reading "declare" (id :: type ++ ")" :: rest)) := by
  have texts : declaration id type ++ rest = "(" :: "declare" :: (id :: type ++ ")" :: rest) := by
    simp [declaration]
  rw [texts]
  have open_ : nextToken.run
      (state.reading current ("(" :: "declare" :: (id :: type ++ ")" :: rest))) =
    .ok (.Open, state.reading "(" ("declare" :: (id :: type ++ ")" :: rest))) :=
      run_nextToken_reading peeked
  have command : nextToken.run (state.reading "(" ("declare" :: (id :: type ++ ")" :: rest))) =
    .ok (.Declare, state.reading "declare" (id :: type ++ ")" :: rest)) :=
      run_nextToken_reading peeked
  exact run_checkFile_command open_ command

theorem run_checkFile_comparison {fuel rounds : Nat} {current : String}
    (peeked : state.peeked = []) :
    (checkFile fuel (rounds + 1)).run (state.reading current (comparison first second)) =
      (cmdRun fuel >>= fun _ => checkFile fuel rounds).run
        (state.reading "run" ((comparison first second).drop 2 ++ [])) := by
  have open_ : nextToken.run (state.reading current (comparison first second)) =
    .ok (.Open, state.reading "(" ((comparison first second).drop 1)) :=
      run_nextToken_reading peeked
  have command : nextToken.run (state.reading "(" ((comparison first second).drop 1)) =
    .ok (.Run, state.reading "run" ((comparison first second).drop 2 ++ [])) :=
      run_nextToken_reading peeked
  exact run_checkFile_command open_ command

theorem run_checkFile_end {fuel rounds : Nat} {current : String} (peeked : state.peeked = []) :
    (checkFile fuel (rounds + 1)).run (state.reading current []) =
      .ok ((), state.reading "" []) := by
  have ended : nextToken.run (state.reading current []) = .ok (.Eof, state.reading "" []) := by
    have none : state = { state with peeked := [] } := by rw [← peeked]
    rw [none]
    rfl
  rw [checkFile, run_bind_of_ok ended]
  rfl

/-- A declaration with an identifier as its type, among other commands. -/
theorem run_checkFile_declares {fuel rounds : Nat} {current id : String} {rest : List String}
    {kind : Ref} (peeked : state.peeked = []) (readable : (tokenOf name).isName)
    (bound : state.symbols name = ⟨some symbol, some kind⟩)
    (sort : DenotesSort state.store.heap kind) (unused : state.symbols id = Binding.none) :
    (checkFile (fuel + 1) (rounds + 2)).run
        (state.reading current (declaration id [name] ++ rest)) =
      (checkFile (fuel + 1) rounds).run ((state.declared id symbol).reading ")" rest) := by
  have declared : (cmdDeclare (fuel + 1)).run
      (state.reading "declare" (id :: [name] ++ ")" :: rest)) =
        .ok ((), (state.declared id symbol).reading name (")" :: rest)) :=
    (run_cmdDeclare_name peeked readable bound).mpr ⟨sort, unused, rfl⟩
  rw [run_checkFile_declaration peeked, run_bind_of_ok declared]
  exact run_checkFile_skip (run_nextToken_reading peeked)

/-- Two constants declared with the alias are compared. -/
theorem acceptsNext_alias (readUp : ReadUp state) (aliased : TypeAlias state name symbol)
    (other : first ≠ second) (ident : tokenOf first = .Ident) (ident' : tokenOf second = .Ident)
    (unused : state.symbols first = Binding.none) (unused' : state.symbols second = Binding.none) :
    AcceptsNext state (declaration first [name] ++
      (declaration second [name] ++ comparison first second)) := by
  obtain ⟨kind, last, bound, followed, op⟩ := aliased.classified
  obtain ⟨value, -, allocated, unfolded⟩ := aliased.defined
  have sort : DenotesSort state.store.heap kind := ⟨last, followed, .inl op⟩
  have name_ne : name ≠ first := by
    rintro rfl
    rw [unused] at bound
    cases bound
  have once : (state.declared first symbol).symbols name = ⟨some symbol, some kind⟩ :=
    (Function.update_of_ne name_ne _ _).trans bound
  have unused'' : (state.declared first symbol).symbols second = Binding.none :=
    (Function.update_of_ne other.symm _ _).trans unused'
  have constants : TwoConstants ((state.declared first symbol).declared second symbol) first second
      state.store.heap.length (state.store.heap.length + 1) symbol symbol := by
    refine ⟨readUp.peeked, ⟨ident, ident'⟩, ?_, ?_, ?_, ?_⟩
    · simp [Checker.declared, Function.update_of_ne other]
    · simp [Checker.declared, Checker.allocated]
    · simp [Checker.declared, Checker.allocated]
    · simp [Checker.declared, Checker.allocated]
  have allocated' : value < (state.declared first symbol).store.heap.length := by
    rw [length_declared]
    exact Nat.lt_succ_of_lt allocated
  have allocated'' : value <
      ((state.declared first symbol).declared second symbol).store.heap.length := by
    rw [length_declared]
    exact Nat.lt_succ_of_lt allocated'
  have unfolded' : followDefs
      ((state.declared first symbol).declared second symbol).store.heap symbol = some value :=
    followDefs_append (followDefs_append unfolded allocated) allocated'
  obtain ⟨after, compared, input, peeked⟩ := run_cmdRun_comparison constants
    (Nat.ne_of_lt (Nat.lt_succ_self _)) allocated'' unfolded' []
  have closed : nextToken.run after = .ok (.Close, after.reading ")" []) :=
    run_nextToken_scan input peeked
  refine ⟨2, 7, after.reading "" [], ?_⟩
  have start : { state with input := scan (declaration first [name] ++
      (declaration second [name] ++ comparison first second)) } =
    state.reading state.text (declaration first [name] ++
      (declaration second [name] ++ comparison first second)) := rfl
  have second_declared : (checkFile 2 5).run ((state.declared first symbol).reading ")"
      (declaration second [name] ++ comparison first second)) = (checkFile 2 3).run
        (((state.declared first symbol).declared second symbol).reading ")"
          (comparison first second)) :=
    run_checkFile_declares (show (state.declared first symbol).peeked = [] from readUp.peeked)
      aliased.readable once (denotesSort_append sort) unused''
  rw [start, run_checkFile_declares readUp.peeked aliased.readable bound sort unused,
    second_declared, run_checkFile_comparison constants.peeked, run_bind_of_ok compared,
    run_checkFile_skip closed]
  exact run_checkFile_end peeked

/-- Two constants, the first of which is not declared with the alias, are not. -/
theorem not_acceptsNext_text (readUp : ReadUp state) (aliased : TypeAlias state name symbol)
    (stands : StandsForOther state symbol text) (other : first ≠ second)
    (ident : tokenOf first = .Ident) (ident' : tokenOf second = .Ident)
    (unused : state.symbols first = Binding.none) :
    ¬ AcceptsNext state (declaration first text ++
      (declaration second [name] ++ comparison first second)) := by
  rintro ⟨fuel, rounds, after, run⟩
  obtain ⟨kind, last, bound, -, -⟩ := aliased.classified
  have name_ne : name ≠ first := by
    rintro rfl
    rw [unused] at bound
    cases bound
  have start : { state with input := scan (declaration first text ++
      (declaration second [name] ++ comparison first second)) } =
    state.reading state.text (declaration first text ++
      (declaration second [name] ++ comparison first second)) := rfl
  rw [start] at run
  -- The first declaration reads the text, and its constant has another type.
  rcases rounds with _ | rounds
  · exact run_stop_ok.mp run
  rw [run_checkFile_declaration readUp.peeked] at run
  obtain ⟨one, _, declared, run⟩ := run_bind_ok.mp run
  obtain ⟨input, peeked, type_ne⟩ := stands _ _ _ _ declared
  obtain ⟨-, constant, type, symbols, found⟩ := run_cmdDeclare_binds readUp.peeked declared
  rcases rounds with _ | rounds
  · exact run_stop_ok.mp run
  rw [run_checkFile_skip (run_nextToken_scan input peeked)] at run
  -- The second one has the alias as its type.
  rcases rounds with _ | rounds
  · exact run_stop_ok.mp run
  rw [run_checkFile_declaration peeked] at run
  obtain ⟨two, _, declared', run⟩ := run_bind_ok.mp run
  have bound' : one.symbols name = ⟨some symbol, some kind⟩ := by
    rw [symbols]
    exact (Function.update_of_ne name_ne _ _).trans bound
  rcases fuel with _ | fuel
  · simp only [cmdDeclare, run_bind_ok] at declared'
    obtain ⟨_, _, -, _, _, -, _, _, checkRun, -⟩ := declared'
    exact run_stop_ok.mp checkRun
  obtain ⟨-, -, rfl⟩ := (run_cmdDeclare_name peeked aliased.readable bound').mp declared'
  rcases rounds with _ | rounds
  · exact run_stop_ok.mp run
  have closed : nextToken.run ((one.declared second symbol).reading name
      (")" :: comparison first second)) =
        .ok (.Close, (one.declared second symbol).reading ")" (comparison first second)) :=
    run_nextToken_reading peeked
  change (checkFile (fuel + 1) (rounds + 1)).run ((one.declared second symbol).reading name
    (")" :: comparison first second)) = _ at run
  rw [run_checkFile_skip closed] at run
  -- So the two constants are not compared.
  rcases rounds with _ | rounds
  · exact run_stop_ok.mp run
  have peeked' : (one.declared second symbol).peeked = [] := peeked
  rw [run_checkFile_comparison peeked'] at run
  obtain ⟨three, _, compared, -⟩ := run_bind_ok.mp run
  have allocated : constant < one.store.heap.length := (List.getElem?_eq_some_iff.mp found).1
  have constants : TwoConstants (one.declared second symbol) first second constant
      one.store.heap.length type symbol := by
    refine ⟨peeked, ⟨ident, ident'⟩, ?_, ?_, ?_, ?_⟩
    · refine (Function.update_of_ne other _ _).trans ?_
      rw [symbols, Function.update_self]
    · exact Function.update_self _ _ _
    · exact (List.getElem?_append_left allocated).trans found
    · simp [Checker.declared, Checker.allocated]
  rw [symbols, Function.update_self] at type_ne
  exact type_ne (same_of_cmdRun_comparison constants compared)

end Transparency

/-! ## An alias of a declared type -/

/-- A file that declares a type and defines an alias of it. -/
def aliasFile : List Lexeme := scan
  ["(", "declare", "A", "type", ")", "(", "define", "n", "A", ")"]

/-- The state after a file as far as it matters for its types. -/
def readingOf (lexemes : List Lexeme) :
    Except Stop (List Node × List Token × Binding × Binding) := do
  let (_, read) ← (checkFile 30 40).run (openedFile lexemes)
  return (read.store.heap, read.peeked, read.symbols "A", read.symbols "n")

theorem exists_of_readingOf {lexemes : List Lexeme} {heap : List Node} {peeked : List Token}
    {type name : Binding} (found : readingOf lexemes = .ok (heap, peeked, type, name)) :
    ∃ read, (checkFile 30 40).run (openedFile lexemes) = .ok ((), read) ∧ read.store.heap = heap ∧
      read.peeked = peeked ∧ read.symbols "A" = type ∧ read.symbols "n" = name := by
  unfold readingOf at found
  cases ran : (checkFile 30 40).run (openedFile lexemes) with
  | error why => simp [ran, bind, Except.bind] at found
  | ok result =>
      simp only [ran, bind, Except.bind, pure_eq_ok, Prod.mk.injEq] at found
      exact ⟨result.2, rfl, found⟩

/-- The alias, two constants, the first of the given type and the second of the alias, and a side
condition that compares them. -/
def comparedWith (type : String) : List Lexeme :=
  aliasFile ++ scan (declaration "c" [type] ++ (declaration "d" ["n"] ++ comparison "c" "d"))

end Lfsc
