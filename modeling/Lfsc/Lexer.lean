import Lfsc.RunCode

/-!
# Tokens and the state of the checker

The scanner is given as the list of tokens it will produce, each with its text.  Two tokens can be
pushed back; the text of the last token scanned stays what `YYText` returns meanwhile.
-/

namespace Lfsc

/-- The tokens of `token.h`, less the sentinel `TokenErr` of an empty slot. -/
inductive Token
  | Eof | Declare | Define | Check | Program | Function | Opaque | Run
  | Type | Percent | Bang | At | Colon | ReverseSolidus | Pound | Caret | Hole
  | Let | Tilde | Do | Match | Default | Mpz | Mpq | MpAdd | MpNeg | MpDiv | MpMul
  | MpIfNeg | MpIfZero | MpzToMpq | Compare | IfEqual | Fail | MarkVar | IfMarked
  | Open | Close | Natural | Rational | Ident | Provided | Forall | Lam
  | DeclareRule | DefineConst | DeclareType | Arrow | CheckAssuming
  deriving DecidableEq, Repr

/-- A token of the input with its text. -/
structure Lexeme where
  /-- What `yylex` returns. -/
  token : Token
  /-- What `YYText` returns afterwards. -/
  text : String
  deriving DecidableEq, Repr

/-- The symbol table as the map from identifiers to pairs that its trie implements. -/
abbrev SymbolTable := String → Binding

/-- Branches of the checker that later results refer to.  The program itself keeps no such record
and nothing in the model reads it. -/
inductive Event
  /-- A shadowed pair was pushed on `local_sym_names`. -/
  | saved (name : String) (old : Binding)
  /-- An `@` binding was made on the tail-call path. -/
  | leaked (name : String)
  deriving DecidableEq, Repr

/-- Holes that an application is left with unfilled.  Like the branches above they are recorded for
later results only. -/
inductive HoleEvent
  /-- A tail call was made although the hole is unfilled, since it occurs in the domain of the last
  argument. -/
  | deferred (hole : Ref)
  /-- The hole was pushed on `ascHoles`, being an argument of the type of an ascription. -/
  | ascribed (hole : Ref)
  deriving DecidableEq, Repr

/-- The global variables of the checker. -/
structure Checker where
  /-- Expressions, marks and the state of the evaluator. -/
  runtime : Runtime
  /-- `symbols`. -/
  symbols : SymbolTable
  /-- `progs`: no entry, the entry `NULL` that a lookup creates, or a program symbol. -/
  progs : String → Option (Option Ref)
  /-- `local_sym_names`, first pushed first. -/
  localSymNames : List (String × Binding)
  /-- `ascHoles`. -/
  ascHoles : List Ref
  /-- `open_parens`. -/
  openParens : Int
  /-- `allow_run`. -/
  allowRun : Bool
  /-- `tail_calls`. -/
  tailCalls : Bool
  /-- `big_check`. -/
  bigCheck : Bool
  /-- The tokens not scanned yet. -/
  input : List Lexeme
  /-- The text of the last token scanned. -/
  text : String
  /-- `s_peeked`, topmost first. -/
  peeked : List Token
  /-- The branches taken, latest last. -/
  trace : List Event
  /-- The holes that applications were left with unfilled, latest last. -/
  holeTrace : List HoleEvent

/-- Computations of the checker. -/
abbrev CheckerM (α : Type) : Type := Exec Checker Stop α

/-- The expressions. -/
abbrev Checker.store (checker : Checker) : Store := checker.runtime.store

/-- Run a computation of the evaluator. -/
def onRuntime {α : Type} (m : RunM α) : CheckerM α :=
  Exec.zoom Checker.runtime (fun runtime checker => { checker with runtime }) m

instance : MonadLift (Exec Runtime Stop) (Exec Checker Stop) := ⟨onRuntime⟩

/-- Run a computation on the expressions. -/
abbrev onStore {α : Type} (m : StoreM α) : CheckerM α := onRuntime (inStore m)

theorem run_onStore_ok {α : Type} {m : StoreM α} {before after : Checker} {value : α} :
    (onStore m).run before = .ok (value, after) ↔
      ∃ store, m.run before.store = .ok (value, store) ∧
        { before with runtime := { before.runtime with store } } = after := by
  rw [onStore, onRuntime, Exec.run_zoom_ok]
  simp only [inStore, Exec.run_zoom_ok]
  constructor
  · rintro ⟨_, ⟨store, run, rfl⟩, rfl⟩
    exact ⟨store, run, rfl⟩
  · rintro ⟨store, run, rfl⟩
    exact ⟨_, ⟨store, run, rfl⟩, rfl⟩

@[simp]
theorem liftM_eq_onStore {α : Type} (m : StoreM α) : (liftM m : CheckerM α) = onStore m := rfl

theorem run_load_found {state : Checker} {r : Ref} {node : Node}
    (found : state.store.heap[r]? = some node) :
    (liftM (load r) : CheckerM Node).run state = .ok (node, state) :=
  run_onStore_ok.mpr ⟨_, run_load_ok.mpr ⟨found, rfl⟩, rfl⟩

theorem run_kid_found {state : Checker} {r child : Ref} {op : Op} {kids : List Ref}
    {flag : Bool} {index : Nat} (found : state.store.heap[r]? = some (.cexpr op kids flag))
    (same : kids[index]? = some child) :
    (liftM (kid r index) : CheckerM Ref).run state = .ok (child, state) :=
  run_onStore_ok.mpr ⟨_, run_kid_ok.mpr ⟨⟨_, _, _, found, same⟩, rfl⟩, rfl⟩

/-! ## Tokens -/

/-- `yylex`: scan the next token, or report the end of the file again and again. -/
def yylex : CheckerM Token := do
  let checker ← get
  match checker.input with
  | [] =>
      set { checker with text := "" }
      return .Eof
  | lexeme :: rest =>
      set { checker with input := rest, text := lexeme.text }
      return lexeme.token

/-- The sugared spellings of four tokens. -/
def desugar : Token → Token
  | .Provided => .Caret
  | .Forall => .Bang
  | .Lam => .ReverseSolidus
  | .Let => .At
  | token => token

theorem desugar_desugar (token : Token) : desugar (desugar token) = desugar token := by
  cases token <;> rfl

/-- `next_token`. -/
def nextToken : CheckerM Token := do
  let checker ← get
  match checker.peeked with
  | [] => return desugar (← yylex)
  | token :: rest =>
      set { checker with peeked := rest }
      return desugar token

/-- `reinsert_token`.  With both slots occupied the token is lost: the assertion that excludes this
is not compiled into a release build. -/
def reinsertToken (token : Token) : CheckerM Unit :=
  modify fun checker =>
    if checker.peeked.length < 2 then { checker with peeked := token :: checker.peeked }
    else checker

/-- `token_str`. -/
def tokenStr : CheckerM String := do return (← get).text

/-- `prefix_id`: the text of the next token, whatever it is. -/
def prefixId : CheckerM String := do
  let _ ← nextToken
  tokenStr

/-- `eat_token`. -/
def eatToken (token : Token) : CheckerM Unit := do
  if token ≠ (← nextToken) then report "Scanned token is invalid in this position"

/-! ## The symbol table -/

/-- `symbols->get`. -/
def symbolsGet (name : String) : CheckerM Binding := do return (← get).symbols name

/-- `symbols->insert`, which returns the pair stored before. -/
def symbolsInsert (name : String) (pair : Binding) : CheckerM Binding := do
  let checker ← get
  set { checker with symbols := Function.update checker.symbols name pair }
  return checker.symbols name

/-- Bind an identifier while a computation runs, and insert the old pair again afterwards. -/
def withBinding {α : Type} (name : String) (pair : Binding) (body : CheckerM α) :
    CheckerM α := do
  let prev ← symbolsInsert name pair
  let result ← body
  let _ ← symbolsInsert name prev
  return result

/-- Insert old bindings, the last one first. -/
def restoreBindings (old : List (String × Binding)) : CheckerM Unit :=
  old.reverse.forM fun binding => do let _ ← symbolsInsert binding.1 binding.2

/-- Record a branch. -/
def record (event : Event) : CheckerM Unit :=
  modify fun checker => { checker with trace := checker.trace ++ [event] }

/-- Record a hole. -/
def recordHole (event : HoleEvent) : CheckerM Unit :=
  modify fun checker => { checker with holeTrace := checker.holeTrace ++ [event] }

/-! ## Texts -/

/-- Whether a text consists of digits. -/
def isDigits (text : List Char) : Bool := text ≠ [] && text.all Char.isDigit

/-- The token of a text that a rule of the scanner matches as a whole. -/
def tokenOf (text : String) : Token :=
  match text with
  | "declare" => .Declare
  | "define" => .Define
  | "check" => .Check
  | "program" => .Program
  | "function" => .Function
  | "opaque" => .Opaque
  | "run" => .Run
  | "type" => .Type
  | "%" => .Percent
  | "!" => .Bang
  | "#" => .Pound
  | "@" => .At
  | ":" => .Colon
  | "\\" => .ReverseSolidus
  | "^" => .Caret
  | "_" => .Hole
  | "let" => .Let
  | "~" => .Tilde
  | "do" => .Do
  | "match" => .Match
  | "default" => .Default
  | "mpz" => .Mpz
  | "mpq" => .Mpq
  | "mp_add" => .MpAdd
  | "mp_neg" => .MpNeg
  | "mp_div" => .MpDiv
  | "mp_mul" => .MpMul
  | "mp_ifneg" => .MpIfNeg
  | "mp_ifzero" => .MpIfZero
  | "mpz_to_mpq" => .MpzToMpq
  | "compare" => .Compare
  | "ifequal" => .IfEqual
  | "fail" => .Fail
  | "(" => .Open
  | ")" => .Close
  | "provided" => .Provided
  | "declare-rule" => .DeclareRule
  | "declare-type" => .DeclareType
  | "define-const" => .DefineConst
  | "pi" => .Forall
  | "->" => .Arrow
  | "lam" => .Lam
  | "check-assuming" => .CheckAssuming
  | _ =>
      let chars := text.toList
      if chars.take 7 = "markvar".toList ∧ (chars.drop 7).all Char.isDigit then .MarkVar
      else if chars.take 8 = "ifmarked".toList ∧ (chars.drop 8).all Char.isDigit then .IfMarked
      else if isDigits chars then .Natural
      else if isDigits (chars.takeWhile (· ≠ '/')) ∧
          isDigits ((chars.dropWhile (· ≠ '/')).drop 1) then .Rational
      else .Ident

/-- A sequence of texts as the scanner reports it. -/
def scan (texts : List String) : List Lexeme := texts.map fun text => ⟨tokenOf text, text⟩

/-! ## Numerals -/

/-- The value of a string of decimal digits. -/
def digitsValue (digits : List Char) : Option Nat :=
  digits.foldl
    (fun value digit =>
      match value with
      | some n => if digit.isDigit then some (10 * n + (digit.toNat - '0'.toNat)) else none
      | none => none)
    (if digits = [] then none else some 0)

/-- `mpz_init_set_str` on the text of a token. -/
def naturalValue (text : String) : Option Nat := digitsValue text.toList

/-- `mpq_set_str` on the text of a token: numerator and denominator. -/
def rationalValue (text : String) : Option (Nat × Nat) := do
  let chars := text.toList
  let numerator ← digitsValue (chars.takeWhile (· ≠ '/'))
  let denominator ←
    if '/' ∈ chars then digitsValue ((chars.dropWhile (· ≠ '/')).drop 1) else some 1
  return (numerator, denominator)

/-- `atoi` on the digits that follow the keyword of a mark operation. -/
def markIndex (text : String) (keyword : Nat) : Nat :=
  if text.length > keyword then (digitsValue (text.toList.drop keyword)).getD 0 else 1

/-- The `RatExpr` constructor: canonicalizing a zero denominator divides by zero. -/
def newRat (numerator denominator : Nat) : StoreM Ref :=
  if denominator = 0 then Exec.stop .undefined
  else new (.rat ((numerator : Rat) / (denominator : Rat)))

end Lfsc
