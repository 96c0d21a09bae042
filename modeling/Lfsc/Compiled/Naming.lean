import Lfsc.Compiled.Writer

/-!
# Names in compiled side conditions

Which programs the writer can compile: no two variables that are visible at once are mapped to one
name, no variable is mapped to a name that the writer makes up, and the symbols of the signature are
found under the names that they are mapped to.  Whatever the writer is given, its lists and counters
only grow.
-/

namespace Lfsc

open Exec

namespace Compiled

/-! ## Generated names -/

theorem exprName_injective : Function.Injective exprName := by
  intro m n same
  have digits : Nat.toDigits 10 m = Nat.toDigits 10 n := by
    have lists := congrArg String.toList same
    simpa [exprName] using lists
  rw [← Nat.ofDigitChars_ten_toDigits (n := m), digits, Nat.ofDigitChars_ten_toDigits]

theorem numberName_injective : Function.Injective numberName := by
  intro m n same
  have digits : Nat.toDigits 10 m = Nat.toDigits 10 n := by
    have lists := congrArg String.toList same
    simpa [numberName] using lists
  rw [← Nat.ofDigitChars_ten_toDigits (n := m), digits, Nat.ofDigitChars_ten_toDigits]

theorem globalName_injective : Function.Injective globalName := by
  intro left right same
  have lists := congrArg String.toList same
  exact String.toList_inj.mp (by simpa [globalName] using lists)

theorem getFunctionName_injective : Function.Injective getFunctionName := by
  intro left right same
  have lists := congrArg String.toList same
  exact String.toList_inj.mp (by simpa [getFunctionName] using lists)

theorem exprName_ne_numberName (m n : Nat) : exprName m ≠ numberName n := by
  intro same
  have lists := congrArg String.toList same
  simp [exprName, numberName] at lists

theorem exprName_ne_getFunctionName (number : Nat) (name : String) :
    exprName number ≠ getFunctionName name := by
  intro same
  have lists := congrArg String.toList same
  simp [exprName, getFunctionName] at lists

theorem exprName_ne_globalName (number : Nat) (name : String) :
    exprName number ≠ globalName name := by
  intro same
  have lists := congrArg String.toList same
  simp only [exprName, globalName, String.toList_append, Nat.toList_repr] at lists
  have digits : Nat.toDigits 10 number = '_' :: name.toList := by simpa using lists
  exact Nat.underscore_not_in_toDigits (n := number) (by simp [digits])

theorem numberName_ne_getFunctionName (number : Nat) (name : String) :
    numberName number ≠ getFunctionName name := by
  intro same
  have lists := congrArg String.toList same
  simp [numberName, getFunctionName] at lists

theorem numberName_ne_globalName (number : Nat) (name : String) :
    numberName number ≠ globalName name := by
  intro same
  have lists := congrArg String.toList same
  simp [numberName, globalName] at lists

theorem getFunctionName_ne_globalName (left right : String) :
    getFunctionName left ≠ globalName right := by
  intro same
  have lists := congrArg String.toList same
  simp [getFunctionName, globalName] at lists

/-- A name that the writer does not make up. -/
structure Proper (text : Ref → String) (progs : List Ref) (name : String) : Prop where
  /-- It is no numbered variable. -/
  expr : ∀ number, name ≠ exprName number
  /-- It is no numbered number. -/
  number : ∀ number, name ≠ numberName number
  /-- It is no global variable. -/
  global : ∀ symbol, name ≠ globalName symbol
  /-- It is no function. -/
  function : ∀ prog ∈ progs, name ≠ getFunctionName (text prog)

/-- The names that the writer makes up start with one of three letters. -/
theorem proper_of_head {text : Ref → String} {progs : List Ref} {name : String} {first : Char}
    {rest : List Char} (chars : name.toList = first :: rest)
    (other : first ≠ 'e' ∧ first ≠ 'r' ∧ first ≠ 'f') : Proper text progs name := by
  obtain ⟨not_e, not_r, not_f⟩ := other
  constructor
  · rintro number rfl
    exact not_e (by simpa [exprName, eq_comm] using congrArg List.head? chars)
  · rintro number rfl
    exact not_r (by simpa [numberName, eq_comm] using congrArg List.head? chars)
  · rintro symbol rfl
    exact not_e (by simpa [globalName, eq_comm] using congrArg List.head? chars)
  · rintro prog - rfl
    exact not_f (by simpa [getFunctionName, eq_comm] using congrArg List.head? chars)

/-! ## Code that can be compiled -/

section Admissible

variable (sig : Signature) (text : Ref → String) (progs : List Ref) (symbols : String → Pointer)
  (bound : List String)

mutual

/-- The names that code declares in the block in which it is written, for variables of `let`. -/
def blockNames : Code → List String
  | .apply _ args => blockNamesAll args
  | .do_ first second => blockNames first ++ blockNames second
  | .let_ var value body => getVarName (text var) :: (blockNames value ++ blockNames body)
  | .arith _ left right => blockNames left ++ blockNames right
  | .neg operand | .mpzToMpq operand | .ifNumeral _ operand _ _ => blockNames operand
  | .match_ scrutinee _ => blockNames scrutinee
  | _ => []

/-- The names that arguments declare. -/
def blockNamesAll : List Code → List String
  | [] => []
  | arg :: rest => blockNames arg ++ blockNamesAll rest

end

/-- A variable of the program, whose name is not taken. -/
structure Fresh (taken : List String) (var : Ref) : Prop where
  /-- It is a variable. -/
  role : sig var = .var
  /-- It is one of the variables of the program. -/
  bound : text var ∈ bound
  /-- No visible variable has its name. -/
  untaken : getVarName (text var) ∉ taken

/-- A symbol of the signature that the compiled code finds, and that is not mistaken for a
variable. -/
structure Found (name : Ref) : Prop where
  /-- The symbol table has it under its mapped name. -/
  entry : symbols (getVarName (text name)) = some (.sym name)
  /-- No variable of the program has its text. -/
  unbound : text name ∉ bound
  /-- No numbered variable has its text. -/
  unnumbered : ∀ number, text name ≠ exprName number

mutual

/-- Code that uses neither marks nor comparisons nor division, in which constructors and programs
are fully applied, numerals fit a `signed long`, and no variable hides one of the taken names. -/
def Admissible (taken : List String) : Code → Prop
  | .int value => getSi value = value
  | .rat value => getSi value.num = value.num ∧ getSi value.den = value.den
  | .sym name =>
      sig name = .var ∨ sig name = .constructor 0 ∧ Found text symbols bound name
  | .apply head args =>
      AdmissibleAll taken args ∧
        match sig head with
        | .var => False
        | .constructor arity => arity = args.length ∧ Found text symbols bound head
        | .program params _ => params.length = args.length ∧ head ∈ progs
  | .fail => True
  | .do_ first second =>
      Admissible taken first ∧ Admissible (blockNames text first ++ taken) second
  | .let_ var value body =>
      Fresh sig text bound taken var ∧ Admissible (getVarName (text var) :: taken) value ∧
        Admissible (blockNames text value ++ getVarName (text var) :: taken) body
  | .arith op left right =>
      (op = .add ∨ op = .mul) ∧ Admissible taken left ∧
        Admissible (blockNames text left ++ taken) right
  | .neg operand | .mpzToMpq operand => Admissible taken operand
  | .ifNumeral _ operand yes no =>
      Admissible taken operand ∧ Admissible (blockNames text operand ++ taken) yes ∧
        Admissible (blockNames text operand ++ taken) no
  | .match_ scrutinee branches =>
      Admissible taken scrutinee ∧ branches.head?.map Prod.fst ≠ some .default ∧
        AdmissibleBranches (blockNames text scrutinee ++ taken) branches
  | .ifMarked _ _ _ _ | .compare _ _ _ _ | .ifEqual _ _ _ _ | .markVar _ _ => False

/-- Arguments that can be compiled one after the other. -/
def AdmissibleAll (taken : List String) : List Code → Prop
  | [] => True
  | arg :: rest => Admissible taken arg ∧ AdmissibleAll (blockNames text arg ++ taken) rest

/-- Cases that can be compiled. -/
def AdmissibleBranches (taken : List String) : List (Pattern × Code) → Prop
  | [] => True
  | (.default, body) :: rest => Admissible taken body ∧ AdmissibleBranches taken rest
  | (.ctor ctor vars, body) :: rest =>
      (sig ctor = .constructor vars.length ∧ Found text symbols bound ctor) ∧
        (∀ var ∈ vars, Fresh sig text bound taken var) ∧
        (vars.map fun var => getVarName (text var)).Nodup ∧
        Admissible ((vars.map fun var => getVarName (text var)) ++ taken) body ∧
        AdmissibleBranches taken rest

end

end Admissible

/-! ## Growth -/

/-- What the writer may do to its lists and counters. -/
structure Grown (bound : List String) (before after : Writer) : Prop where
  /-- Variables stay variables. -/
  vars : before.vars ⊆ after.vars
  /-- Symbols stay. -/
  globalSyms : before.globalSyms ⊆ after.globalSyms
  /-- Numbers of variables are not used again. -/
  exprCount : before.exprCount ≤ after.exprCount
  /-- Numbers of numbers are not used again. -/
  rnumCount : before.rnumCount ≤ after.rnumCount
  /-- New variables are variables of the program or numbered. -/
  within : ∀ name ∈ after.vars,
    name ∈ before.vars ∨ name ∈ bound ∨ ∃ number, name = exprName number

section Growth

variable {sig : Signature} {text : Ref → String} {progs : List Ref} {symbols : String → Pointer}
  {bound : List String}

instance : Std.Refl (Grown bound) where
  refl _ := ⟨List.Subset.refl _, List.Subset.refl _, le_rfl, le_rfl, fun _ member => .inl member⟩

instance : IsTrans Writer (Grown bound) where
  trans _ _ _ first second :=
    { vars := List.Subset.trans first.vars second.vars
      globalSyms := List.Subset.trans first.globalSyms second.globalSyms
      exprCount := first.exprCount.trans second.exprCount
      rnumCount := first.rnumCount.trans second.rnumCount
      within := by
        intro name member
        rcases second.within name member with inner | new
        · exact first.within name inner
        · exact .inr new }

theorem keeps_demand (condition : Prop) [Decidable condition] :
    Keeps (Grown bound) (demand condition) :=
  keeps_ite (keeps_pure _) (keeps_stop _)

theorem run_demand {condition : Prop} [Decidable condition] {result : Unit} {before after : Writer}
    (run : (demand condition).run before = .ok (result, after)) : condition ∧ before = after := by
  unfold demand at run
  split at run
  · rename_i holds
    exact ⟨holds, (run_pure_ok.mp run).2⟩
  · exact (run_stop_ok.mp run).elim

theorem run_isVar {name : String} {known : Bool} {before after : Writer}
    (run : (isVar name).run before = .ok (known, after)) :
    before = after ∧ known = decide (name ∈ before.vars) := by
  obtain ⟨_, _, stateRun, rest⟩ := run_bind_ok.mp run
  cases stateRun
  obtain ⟨same, rfl⟩ := run_pure_ok.mp rest
  exact ⟨rfl, same.symm⟩

theorem run_newExpr {name : String} {before after : Writer}
    (run : newExpr.run before = .ok (name, after)) :
    name = exprName before.exprCount ∧
      after = { before with exprCount := before.exprCount + 1 } := by
  cases run
  exact ⟨rfl, rfl⟩

theorem run_newNumber {name : String} {before after : Writer}
    (run : newNumber.run before = .ok (name, after)) :
    name = numberName before.rnumCount ∧
      after = { before with rnumCount := before.rnumCount + 1 } := by
  cases run
  exact ⟨rfl, rfl⟩

/-- Both ways in which an expression is written: a variable is used as it is, anything else is
assigned to the next numbered variable. -/
theorem run_writeExprWith {check : Bool} {code : Code} {write : String → WriteM (List Stmt)}
    {stmts : List Stmt} {expr : String} {before after : Writer}
    (run : (writeExprWith text check code write).run before = .ok ((stmts, expr), after)) :
    (∃ name, code = .sym name ∧ text name ∈ before.vars ∧
      stmts = [.inc (getVarName (text name))] ∧ expr = getVarName (text name) ∧ after = before) ∨
    ((∀ name, code = .sym name → text name ∉ before.vars) ∧
      ∃ written middle,
        (write (exprName before.exprCount)).run
          { before with exprCount := before.exprCount + 1 } = .ok (written, middle) ∧
        expr = exprName before.exprCount ∧ after = { middle with vars := middle.vars ++ [expr] } ∧
        stmts = .declare (isSym code) expr :: written ++
          if check then [.checkSym expr] else []) := by
  have numbered :
      (do
        let target ← newExpr
        let written ← write target
        addVar target
        return (Stmt.declare (isSym code) target :: written ++
          if check then [.checkSym target] else [], target) :
        WriteM (List Stmt × String)).run before = .ok ((stmts, expr), after) →
      ∃ written middle,
        (write (exprName before.exprCount)).run
          { before with exprCount := before.exprCount + 1 } = .ok (written, middle) ∧
        expr = exprName before.exprCount ∧ after = { middle with vars := middle.vars ++ [expr] } ∧
        stmts = .declare (isSym code) expr :: written ++
          if check then [.checkSym expr] else [] := by
    intro run
    obtain ⟨_, target, exprRun, rest⟩ := run_bind_ok.mp run
    obtain ⟨rfl, rfl⟩ := run_newExpr exprRun
    obtain ⟨middle, written, writeRun, rest⟩ := run_bind_ok.mp rest
    obtain ⟨_, _, addRun, rest⟩ := run_bind_ok.mp rest
    obtain rfl := run_modify_ok.mp addRun
    obtain ⟨same, rfl⟩ := run_pure_ok.mp rest
    cases same
    exact ⟨written, middle, writeRun, rfl, rfl, rfl⟩
  unfold writeExprWith at run
  obtain ⟨_, known, knownRun, rest⟩ := run_bind_ok.mp run
  cases code with
  | sym name =>
      obtain ⟨rfl, rfl⟩ := run_isVar knownRun
      by_cases member : text name ∈ before.vars
      · simp only [member, decide_true] at rest
        obtain ⟨same, rfl⟩ := run_pure_ok.mp rest
        cases same
        exact .inl ⟨name, rfl, member, rfl, rfl, rfl⟩
      · simp only [member, decide_false] at rest
        refine .inr ⟨?_, numbered rest⟩
        rintro _ ⟨⟩
        exact member
  | _ =>
      obtain ⟨rfl, rfl⟩ := run_pure_ok.mp knownRun
      exact .inr ⟨by simp, numbered rest⟩

/-- Both ways in which a symbol is written. -/
theorem run_writeSym (bound : List String) {target : String} {name : Ref} {stmts : List Stmt}
    {before after : Writer} (run : (writeSym text target name).run before = .ok (stmts, after)) :
    (text name ∈ before.vars ∧ after = before ∧
      stmts = [.copy target (getVarName (text name)), .inc target]) ∨
    (text name ∉ before.vars ∧ getVarName (text name) ∈ after.globalSyms ∧
      Grown bound before after ∧ after.vars = before.vars ∧ after.exprCount = before.exprCount ∧
      stmts = [.copy target (globalName (getVarName (text name))), .inc target]) := by
  obtain ⟨_, known, knownRun, rest⟩ := run_bind_ok.mp run
  obtain ⟨rfl, rfl⟩ := run_isVar knownRun
  by_cases member : text name ∈ before.vars
  · simp only [member, decide_true, if_true] at rest
    obtain ⟨rfl, rfl⟩ := run_pure_ok.mp rest
    exact .inl ⟨member, rfl, rfl⟩
  · simp only [member, decide_false, Bool.false_eq_true, if_false] at rest
    obtain ⟨_, _, addRun, rest⟩ := run_bind_ok.mp rest
    obtain rfl := run_modify_ok.mp addRun
    obtain ⟨rfl, rfl⟩ := run_pure_ok.mp rest
    refine .inr ⟨member, ?_⟩
    by_cases old : getVarName (text name) ∈ before.globalSyms
    · rw [if_pos old]
      exact ⟨old, Std.Refl.refl _, rfl, rfl, rfl⟩
    · rw [if_neg old]
      refine ⟨by simp, ⟨List.Subset.refl _, ?_, le_rfl, le_rfl, fun _ member => .inl member⟩, rfl,
        rfl, rfl⟩
      exact List.subset_append_left _ _

theorem keeps_writeSym (target : String) (name : Ref) :
    Keeps (Grown bound) (writeSym text target name) := by
  intro before stmts after run
  rcases run_writeSym bound run with ⟨-, rfl, -⟩ | ⟨-, -, grown, -⟩
  · exact Std.Refl.refl _
  · exact grown

theorem keeps_newNumber : Keeps (Grown bound) newNumber := by
  intro before name after run
  obtain ⟨-, rfl⟩ := run_newNumber run
  exact ⟨List.Subset.refl _, List.Subset.refl _, le_rfl, Nat.le_succ _,
    fun _ member => .inl member⟩

theorem grown_newExpr (before : Writer) :
    Grown bound before { before with exprCount := before.exprCount + 1 } :=
  ⟨List.Subset.refl _, List.Subset.refl _, Nat.le_succ _, le_rfl, fun _ member => .inl member⟩

theorem keeps_newExpr : Keeps (Grown bound) newExpr := by
  intro before name after run
  obtain ⟨-, rfl⟩ := run_newExpr run
  exact grown_newExpr before

theorem grown_addVar (before : Writer) {name : String}
    (allowed : name ∈ bound ∨ ∃ number, name = exprName number) :
    Grown bound before { before with vars := before.vars ++ [name] } := by
  refine ⟨List.subset_append_left _ _, List.Subset.refl _, le_rfl, le_rfl, ?_⟩
  intro other member
  rcases List.mem_append.mp member with old | new
  · exact .inl old
  · obtain rfl : other = name := by simpa using new
    exact .inr allowed

theorem keeps_addVar {name : String} (member : name ∈ bound) :
    Keeps (Grown bound) (addVar name) := by
  intro before result after run
  obtain rfl := run_modify_ok.mp run
  exact grown_addVar before (.inl member)

theorem keeps_writeExprWith {check : Bool} {code : Code} {write : String → WriteM (List Stmt)}
    (each : ∀ target, Keeps (Grown bound) (write target)) :
    Keeps (Grown bound) (writeExprWith text check code write) := by
  rintro before ⟨stmts, expr⟩ after run
  rcases run_writeExprWith run with
    ⟨name, -, -, -, -, rfl⟩ | ⟨-, written, middle, writeRun, rfl, rfl, -⟩
  · exact Std.Refl.refl _
  · exact IsTrans.trans _ _ _ (grown_newExpr before) (IsTrans.trans _ _ _
      (each _ _ _ _ writeRun) (grown_addVar middle (.inr ⟨_, rfl⟩)))

theorem keeps_writeHead (head : Ref) : Keeps (Grown bound) (writeHead sig text head) := by
  unfold writeHead
  split
  · rintro before ⟨stmts, expr⟩ after run
    obtain ⟨_, target, exprRun, rest⟩ := run_bind_ok.mp run
    obtain ⟨rfl, rfl⟩ := run_newExpr exprRun
    obtain ⟨_, _, addRun, rest⟩ := run_bind_ok.mp rest
    obtain rfl := run_modify_ok.mp addRun
    obtain ⟨-, rfl⟩ := run_pure_ok.mp rest
    exact IsTrans.trans _ _ _ (grown_newExpr before) (grown_addVar _ (.inr ⟨_, rfl⟩))
  · exact keeps_writeExprWith fun target => keeps_writeSym target head

/-- The constructor of a case is written as an expression that is no symbol. -/
theorem writeCtor_eq (ctor : Ref) :
    writeCtor text ctor =
      writeExprWith text false .fail fun target => writeSym text target ctor := by
  simp [writeCtor, writeExprWith, isKnown, isSym]

theorem keeps_writeCtor (ctor : Ref) : Keeps (Grown bound) (writeCtor text ctor) := by
  rw [writeCtor_eq]
  exact keeps_writeExprWith fun target => keeps_writeSym target ctor

theorem keeps_writeCtors (branches : List (Pattern × Code)) :
    Keeps (Grown bound) (writeCtors text branches) := by
  induction branches with
  | nil => exact keeps_pure _
  | cons branch rest hyp =>
      obtain ⟨pattern, body⟩ := branch
      cases pattern with
      | default => exact keeps_pure _
      | ctor name vars =>
          exact keeps_bind (keeps_writeCtor name) fun _ => keeps_bind hyp fun _ => keeps_pure _

theorem keeps_writePattern {scrutinee : String} {index : Nat} {vars : List Ref}
    (each : ∀ var ∈ vars, text var ∈ bound) :
    Keeps (Grown bound) (writePattern text scrutinee index vars) := by
  induction vars generalizing index with
  | nil => exact keeps_pure _
  | cons var vars hyp =>
      rw [List.forall_mem_cons] at each
      exact keeps_bind (keeps_addVar each.1) fun _ => keeps_bind (hyp each.2) fun _ => keeps_pure _

mutual

/-- Whatever admissible code is written, the lists and counters grow. -/
theorem keeps_writeCode : ∀ (code : Code) (taken : List String) (target : String),
    Admissible sig text progs symbols bound taken code →
    Keeps (Grown bound) (writeCode sig text progs target code)
  | .int _, _, _, _ | .rat _, _, _, _ | .fail, _, _, _ => by
      rw [writeCode]
      exact keeps_pure _
  | .sym name, _, target, _ => by
      rw [writeCode]
      exact keeps_writeSym target name
  | .apply head args, taken, target, admissible => by
      rw [Admissible] at admissible
      rw [writeCode]
      refine keeps_bind (keeps_writeArgs args taken admissible.1) fun written => ?_
      simp only
      split
      · exact keeps_pure _
      · exact keeps_bind (keeps_writeHead head) fun _ =>
          keeps_bind (keeps_demand _) fun _ => keeps_pure _
  | .do_ first second, taken, target, admissible => by
      rw [Admissible] at admissible
      rw [writeCode]
      exact keeps_bind
        (keeps_writeExprWith fun inner => keeps_writeCode first taken inner admissible.1)
        fun _ => keeps_bind (keeps_writeCode second _ target admissible.2) fun _ => keeps_pure _
  | .let_ var value body, taken, target, admissible => by
      rw [Admissible] at admissible
      obtain ⟨fresh, first, second⟩ := admissible
      rw [writeCode]
      exact keeps_bind (keeps_writeCode value _ _ first) fun _ =>
        keeps_bind (keeps_addVar fresh.bound) fun _ =>
          keeps_bind (keeps_writeCode body _ target second) fun _ => keeps_pure _
  | .arith op left right, taken, target, admissible => by
      rw [Admissible] at admissible
      obtain ⟨-, first, second⟩ := admissible
      rw [writeCode]
      exact keeps_bind (keeps_writeExprWith fun inner => keeps_writeCode left taken inner first)
        fun _ => keeps_bind
          (keeps_writeExprWith fun inner => keeps_writeCode right _ inner second)
          fun _ => keeps_bind keeps_newNumber fun _ => keeps_pure _
  | .neg operand, taken, target, admissible => by
      rw [Admissible] at admissible
      rw [writeCode]
      exact keeps_bind
        (keeps_writeExprWith fun inner => keeps_writeCode operand taken inner admissible)
        fun _ => keeps_bind keeps_newNumber fun _ => keeps_pure _
  | .mpzToMpq operand, taken, target, admissible => by
      rw [Admissible] at admissible
      rw [writeCode]
      exact keeps_bind
        (keeps_writeExprWith fun inner => keeps_writeCode operand taken inner admissible)
        fun _ => keeps_bind keeps_newNumber fun _ => keeps_pure _
  | .ifNumeral op operand yes no, taken, target, admissible => by
      rw [Admissible] at admissible
      obtain ⟨first, second, third⟩ := admissible
      have left := keeps_writeCode yes _ target second
      have right := keeps_writeCode no _ target third
      rw [writeCode]
      exact keeps_bind (keeps_writeExprWith fun inner => keeps_writeCode operand taken inner first)
        fun _ => keeps_bind left fun _ => keeps_bind right fun _ => keeps_bind left fun _ =>
          keeps_bind right fun _ => keeps_pure _
  | .match_ scrutinee branches, taken, target, admissible => by
      rw [Admissible] at admissible
      obtain ⟨first, headed, others⟩ := admissible
      rw [writeCode]
      refine keeps_bind (keeps_demand _) fun _ => keeps_bind
        (keeps_writeExprWith fun inner => keeps_writeCode scrutinee taken inner first)
        fun _ => keeps_bind keeps_newExpr fun _ => keeps_bind ?_ fun _ => keeps_bind
          (keeps_writeBranches branches _ _ _ _ others) fun _ => keeps_pure _
      rw [writeMatchArgs]
      · exact keeps_writeCtors branches
      · rintro body rfl
        exact headed rfl
  | .ifMarked _ _ _ _, _, _, admissible | .compare _ _ _ _, _, _, admissible
  | .ifEqual _ _ _ _, _, _, admissible | .markVar _ _, _, _, admissible => by
      rw [Admissible] at admissible
      exact admissible.elim

theorem keeps_writeArgs : ∀ (args : List Code) (taken : List String),
    AdmissibleAll sig text progs symbols bound taken args →
    Keeps (Grown bound) (writeArgs sig text progs args)
  | [], _, _ => by
      rw [writeArgs]
      exact keeps_pure _
  | arg :: rest, taken, admissible => by
      rw [AdmissibleAll] at admissible
      rw [writeArgs]
      exact keeps_bind
        (keeps_writeExprWith fun inner => keeps_writeCode arg taken inner admissible.1)
        fun _ => keeps_bind (keeps_writeArgs rest _ admissible.2) fun _ => keeps_pure _

theorem keeps_writeBranches : ∀ (branches : List (Pattern × Code)) (taken : List String)
    (target scrutinee : String) (exprs : List String),
    AdmissibleBranches sig text progs symbols bound taken branches →
    Keeps (Grown bound) (writeBranches sig text progs target scrutinee exprs branches)
  | [], _, _, _, _, _ => by
      rw [writeBranches]
      exact keeps_pure _
  | (.default, body) :: rest, taken, target, _, _, admissible => by
      rw [AdmissibleBranches] at admissible
      rw [writeBranches]
      exact keeps_bind (keeps_writeCode body taken target admissible.1) fun _ => keeps_pure _
  | (.ctor ctor vars, body) :: rest, taken, target, scrutinee, exprs, admissible => by
      rw [AdmissibleBranches] at admissible
      obtain ⟨-, fresh, -, inner, others⟩ := admissible
      rw [writeBranches]
      exact keeps_bind (keeps_writePattern fun var member => (fresh var member).bound) fun _ =>
        keeps_bind (keeps_writeCode body _ target inner) fun _ =>
          keeps_bind (keeps_writeBranches rest taken target scrutinee exprs.tail others) fun _ =>
            keeps_pure _

end

/-- `write_expr` on admissible code. -/
theorem keeps_writeExpr {check : Bool} {code : Code} {taken : List String}
    (admissible : Admissible sig text progs symbols bound taken code) :
    Keeps (Grown bound) (writeExprWith text check code (writeCode sig text progs · code)) :=
  keeps_writeExprWith fun target => keeps_writeCode code taken target admissible

end Growth

end Compiled

end Lfsc
