import Mathlib.Data.List.Infix
import Lfsc.CheckFile
import Lfsc.CodeWrites
import Lfsc.Exec.Traced

/-!
# Calls of the scanner

The functions that read tokens are given again with their calls of the scanner as events.  A ledger
numbers the tokens in the order in which they are scanned, and is kept along with the calls: it
knows which tokens were returned and not put back, which ones wait to be returned again, which one
was returned last, and with which text the latest one was scanned.
-/

namespace Lfsc

namespace Lookahead

open Exec Traced

/-! ## Calls -/

/-- A call of the scanner. -/
inductive Call
  /-- `next_token` scanned a token with its text and returned it. -/
  | scanned (token : Token) (text : String)
  /-- `next_token` returned a token from the slots. -/
  | popped (token : Token)
  /-- `reinsert_token` was called with so many slots occupied. -/
  | reinserted (token : Token) (occupied : Nat)
  /-- `YYText` was read, which was this text. -/
  | read (text : String)
  /-- `prefix_id` read this text as a name, after it returned a token. -/
  | named (token : Token) (text : String)
  deriving DecidableEq, Repr

/-- Computations of the checker with their calls of the scanner. -/
abbrev CallsM (α : Type) : Type := Traced Call Checker Stop α

/-- `next_token`. -/
def nextToken : CallsM Token :=
  emitting
    (fun checker =>
      match checker.peeked, checker.input with
      | token :: _, _ => .popped (desugar token)
      | [], lexeme :: _ => .scanned (desugar lexeme.token) lexeme.text
      | [], [] => .scanned .Eof "")
    Lfsc.nextToken

/-- `reinsert_token`. -/
def reinsertToken (token : Token) : CallsM Unit :=
  emitting (fun checker => .reinserted token checker.peeked.length) (Lfsc.reinsertToken token)

/-- `token_str`, and `YYText` wherever it is read. -/
def tokenStr : CallsM String := emitting (fun checker => .read checker.text) Lfsc.tokenStr

/-- Stop with an error message. -/
def report {α : Type} (message : String) : CallsM α := silent (Lfsc.report message)

/-- Dereference a pointer that may be null. -/
def deref {α : Type} (pointer : Option α) : CallsM α := silent (Lfsc.deref pointer)

/-- Stop because the recursion depth is used up. -/
def outOfFuel {α : Type} : CallsM α := silent Lfsc.outOfFuel

/-- `prefix_id`. -/
def prefixId : CallsM String := do
  let token ← nextToken
  emitting (fun checker => .named token checker.text) Lfsc.tokenStr

/-- `unexpected_token_error`, whose message contains the text. -/
def unexpectedTokenError {α : Type} (message : String) : CallsM α := do
  let _ ← tokenStr
  report message

/-- `eat_token`, whose message contains the text, too. -/
def eatToken (token : Token) : CallsM Unit := do
  if token ≠ (← nextToken) then
    let _ ← tokenStr
    unexpectedTokenError "Scanned token is invalid in this position"

/-- Bind an identifier while a computation runs, and insert the old pair again afterwards. -/
def withBinding {α : Type} (name : String) (pair : Binding) (body : CallsM α) : CallsM α := do
  let prev ← symbolsInsert name pair
  let result ← body
  let _ ← symbolsInsert name prev
  return result

/-! ## Ledgers -/

/-- What is known of the tokens of a file, numbered in the order of the file. -/
structure Ledger where
  /-- How many tokens were scanned. -/
  scanned : Nat
  /-- The tokens that were returned and not put back, the latest first. -/
  returned : List (Nat × Token)
  /-- The tokens that were put back and not returned again, the latest first. -/
  waiting : List (Nat × Token)
  /-- The token that `next_token` returned last. -/
  last : Option Nat
  /-- The text of the token that was scanned last. -/
  text : Option String
  deriving DecidableEq, Repr

/-- The ledger of a file of which nothing was read. -/
def Ledger.start : Ledger := ⟨0, [], [], none, none⟩

/-- Enter a call in the ledger, unless it is improper.  A token is scanned only where none waits, and
those that wait are returned in the reverse order of the calls that put them back; a token is put
back only into a free slot, and only the latest one that was returned; and the text is read only
where the token returned last is the one scanned last, and is the text of that token. -/
def Ledger.record (book : Ledger) : Call → Option Ledger
  | .scanned token text =>
      if book.waiting = [] then
        some
          { scanned := book.scanned + 1
            returned := (book.scanned, token) :: book.returned
            waiting := []
            last := some book.scanned
            text := some text }
      else none
  | .popped token =>
      match book.waiting with
      | (number, waits) :: waiting =>
          if waits = token then
            some { book with
              returned := (number, token) :: book.returned, waiting, last := some number }
          else none
      | [] => none
  | .reinserted token occupied =>
      match book.returned with
      | (number, latest) :: returned =>
          if latest = token ∧ occupied < 2 then
            some { book with returned, waiting := (number, token) :: book.waiting }
          else none
      | [] => none
  | .read text | .named _ text =>
      if book.last.map (· + 1) = some book.scanned ∧ book.text = some text then some book else none

/-- The calls are proper, from the first one of a file on. -/
def Proper (calls : List Call) : Prop := (calls.foldlM Ledger.record Ledger.start).isSome

/-! ## Situations -/

/-- What may wait in the slots: nothing, one token, or an opening parenthesis before another one. -/
inductive Slots
  | free
  | single
  | ahead
  deriving DecidableEq, Repr

/-- The tokens that may wait. -/
def Slots.Allow : Slots → List Token → Prop
  | .free, waiting => waiting = []
  | .single, waiting => waiting.length ≤ 1
  | .ahead, waiting => waiting.length ≤ 1 ∨ ∃ token, waiting = [.Open, token]

/-- What may wait after a token was returned. -/
def Slots.next : Slots → Token → Slots
  | .ahead => fun token => if token = .Open then .single else .free
  | _ => fun _ => .free

/-- How many tokens may wait. -/
def Slots.count : Slots → Nat
  | .free => 0
  | .single => 1
  | .ahead => 2

/-- Where a computation stands: what may wait, the tokens that it may put back, the latest first, and
whether nothing was put back since the latest one was returned. -/
structure Situation where
  /-- What may wait. -/
  slots : Slots
  /-- The tokens that may be put back. -/
  held : List Token
  /-- Whether the latest of them was returned last. -/
  fresh : Bool

/-- Between two expressions, with so much waiting. -/
def between (slots : Slots) : Situation := ⟨slots, [], false⟩

/-- The ledger and the checker are in a situation. -/
structure Stands (situation : Situation) (book : Ledger) (checker : Checker) : Prop where
  waiting : checker.peeked = book.waiting.map Prod.snd
  slots : situation.slots.Allow checker.peeked
  numbers : (book.returned.reverse ++ book.waiting).map Prod.fst = List.range book.scanned
  desugared : ∀ entry ∈ book.returned ++ book.waiting, desugar entry.2 = entry.2
  held : situation.held <+: book.returned.map Prod.snd
  last : situation.fresh = true → book.last = book.returned.head?.map Prod.fst
  text : book.scanned ≠ 0 → book.text = some checker.text

/-- A traced computation makes proper calls from one situation to another one, and is the plain one
but for them. -/
abbrev Follows {α : Type} (situation : Situation) (m : CallsM α) (plain : CheckerM α)
    (post : α → Situation) : Prop :=
  Records Ledger.record (Stands situation) m plain fun value => Stands (post value)

theorem stands_start {checker : Checker} (empty : checker.peeked = []) :
    Stands (between .free) .start checker := by
  constructor
  case waiting => exact empty
  case slots => exact empty
  case numbers => rfl
  case desugared => simp [Ledger.start]
  case held => exact List.nil_prefix
  case last => simp [between]
  case text => exact fun scanned => absurd rfl scanned

theorem Slots.allow_nil (slots : Slots) : slots.Allow [] := by
  cases slots <;> simp [Slots.Allow]

theorem Slots.Allow.tail {slots : Slots} {token : Token} {waiting : List Token}
    (allowed : slots.Allow (token :: waiting)) : (slots.next token).Allow waiting := by
  cases slots with
  | free => cases allowed
  | single => simpa [Slots.Allow, Slots.next] using allowed
  | ahead =>
      rcases allowed with short | ⟨other, two⟩
      · obtain rfl : waiting = [] := by simpa using short
        exact Slots.allow_nil _
      · obtain ⟨rfl, rfl⟩ := List.cons.inj two
        simp [Slots.Allow, Slots.next]

/-- More may wait. -/
theorem Slots.Allow.mono {slots more : Slots} {waiting : List Token} (allowed : slots.Allow waiting)
    (le : slots.count ≤ more.count) : more.Allow waiting := by
  cases slots <;> cases more <;> simp_all [Slots.Allow, Slots.count]

/-- A situation that allows more and promises less. -/
theorem Stands.weaken {situation : Situation} {book : Ledger} {checker : Checker}
    (stands : Stands situation book checker) {slots : Slots}
    (le : situation.slots.count ≤ slots.count) : Stands (between slots) book checker where
  waiting := stands.waiting
  slots := stands.slots.mono le
  numbers := stands.numbers
  desugared := stands.desugared
  held := List.nil_prefix
  last := by simp [between]
  text := stands.text

section Follows

variable {α : Type} {situation : Situation} {post : α → Situation}

/-- A computation that may start with more waiting. -/
theorem Follows.anywhere {slots : Slots} {m : CallsM α} {plain : CheckerM α}
    (follows : Follows (between slots) m plain post)
    (le : situation.slots.count ≤ slots.count) : Follows situation m plain post :=
  follows.imp (fun _ _ stands => stands.weaken le) fun _ _ _ stands => stands

theorem follows_pure (value : α) :
    Follows situation (pure value) (pure value) fun _ => situation :=
  records_pure fun _ _ stands => stands

theorem follows_return {slots : Slots} (value : α)
    (le : situation.slots.count ≤ slots.count) :
    Follows situation (pure value) (pure value) fun _ => between slots :=
  records_pure fun _ _ stands => stands.weaken le

theorem follows_map {β : Type} {m : CallsM β} {plain : CheckerM β} {f : β → α} {after : Situation}
    (follows : Follows situation m plain fun _ => after) :
    Follows situation (f <$> m) (f <$> plain) fun _ => after :=
  records_map follows

theorem follows_stop (why : Stop) :
    Follows situation (silent (Exec.stop why)) (Exec.stop why : CheckerM α) post :=
  records_silent fun _ _ _ _ _ run => (run_stop_ok.mp run).elim

theorem follows_report (message : String) :
    Follows situation (report message) (Lfsc.report message : CheckerM α) post := follows_stop _

/-- Nothing follows an error message. -/
theorem follows_report_bind {β : Type} (message : String) {k : β → CallsM α} {rest : β → CheckerM α} :
    Follows situation (report message >>= k) (Lfsc.report message >>= rest) post :=
  ⟨rfl, fun book _ _ => ⟨book, rfl, fun _ _ run => by cases run⟩⟩

theorem follows_outOfFuel : Follows situation outOfFuel (Lfsc.outOfFuel : CheckerM α) post :=
  follows_stop _

/-! ## The calls -/

theorem run_nextToken_popped {checker : Checker} {token : Token} {rest : List Token}
    (waiting : checker.peeked = token :: rest) :
    Lfsc.nextToken.run checker = .ok (desugar token, { checker with peeked := rest }) := by
  cases checker
  obtain rfl := waiting
  rfl

theorem run_nextToken_scanned {checker : Checker} {lexeme : Lexeme} {rest : List Lexeme}
    (free : checker.peeked = []) (more : checker.input = lexeme :: rest) :
    Lfsc.nextToken.run checker =
      .ok (desugar lexeme.token, { checker with input := rest, text := lexeme.text }) := by
  cases checker
  obtain rfl := free
  obtain rfl := more
  rfl

theorem run_nextToken_eof {checker : Checker} (free : checker.peeked = [])
    (ended : checker.input = []) :
    Lfsc.nextToken.run checker = .ok (.Eof, { checker with text := "" }) := by
  cases checker
  obtain rfl := free
  obtain rfl := ended
  rfl

/-- A token is entered that was scanned. -/
theorem Stands.scanned {book : Ledger} {checker : Checker} {token : Token}
    (stands : Stands situation book checker) (free : checker.peeked = [])
    (plain : desugar token = token) (text : String) :
    ∃ next, book.record (.scanned token text) = some next ∧
      ∀ after : Checker, after.peeked = checker.peeked → after.text = text →
        Stands ⟨situation.slots.next token, token :: situation.held, true⟩ next after := by
  have none : book.waiting = [] := by
    have waiting := stands.waiting
    rw [free] at waiting
    exact List.map_eq_nil_iff.mp waiting.symm
  refine ⟨_, if_pos none, fun after same current => ?_⟩
  constructor
  case waiting => exact same.trans free
  case slots =>
    rw [same, free]
    exact Slots.allow_nil _
  case numbers =>
    have numbers := stands.numbers
    simp only [none, List.append_nil] at numbers ⊢
    rw [List.reverse_cons, List.map_append, numbers, List.range_succ]
    rfl
  case desugared =>
    intro entry mem
    rcases List.mem_cons.mp mem with rfl | old
    · exact plain
    · exact stands.desugared entry (none.symm ▸ old)
  case held => exact List.cons_prefix_cons.mpr ⟨rfl, stands.held⟩
  case last => exact fun _ => rfl
  case text => exact fun _ => congrArg some current.symm

/-- A token is entered that waited. -/
theorem Stands.popped {book : Ledger} {checker : Checker} {token : Token} {rest : List Token}
    (stands : Stands situation book checker) (waits : checker.peeked = token :: rest) :
    ∃ next, book.record (.popped (desugar token)) = some next ∧
      ∀ after : Checker, after.peeked = rest → after.text = checker.text →
        Stands ⟨situation.slots.next (desugar token), desugar token :: situation.held, true⟩ next
          after := by
  have waiting := stands.waiting
  rw [waits] at waiting
  match stack : book.waiting with
  | [] => simp [stack] at waiting
  | (number, top) :: others =>
      rw [stack] at waiting
      obtain ⟨rfl, rfl⟩ := List.cons.inj waiting
      have plain : desugar token = token :=
        stands.desugared (number, token) (by simp [stack])
      have recorded : book.record (.popped token) = some { book with
          returned := (number, token) :: book.returned, waiting := others, last := some number } := by
        simp [Ledger.record, stack]
      rw [plain]
      refine ⟨_, recorded, fun after same current => ?_⟩
      constructor
      case waiting => exact same
      case slots =>
        have allowed := stands.slots
        rw [waits] at allowed
        rw [same]
        exact allowed.tail
      case numbers => simpa [stack] using stands.numbers
      case desugared =>
        intro entry mem
        apply stands.desugared entry
        simp only [stack, List.mem_append, List.mem_cons] at mem ⊢
        tauto
      case held => exact List.cons_prefix_cons.mpr ⟨rfl, stands.held⟩
      case last => exact fun _ => rfl
      case text => exact fun scanned => current ▸ stands.text scanned

theorem follows_nextToken {situation : Situation} :
    Follows situation nextToken Lfsc.nextToken fun token =>
      ⟨situation.slots.next token, token :: situation.held, true⟩ := by
  apply records_emitting
  intro book checker stands
  match waiting : checker.peeked, left : checker.input with
  | token :: rest, _ =>
      obtain ⟨next, recorded, reached⟩ := stands.popped waiting
      refine ⟨next, recorded, fun value last run => ?_⟩
      rw [run_nextToken_popped waiting] at run
      cases run
      exact reached { checker with peeked := rest } rfl rfl
  | [], lexeme :: rest =>
      obtain ⟨next, recorded, reached⟩ := stands.scanned waiting (desugar_desugar lexeme.token) lexeme.text
      refine ⟨next, recorded, fun value last run => ?_⟩
      rw [run_nextToken_scanned waiting left] at run
      cases run
      exact reached { checker with input := rest, text := lexeme.text } rfl rfl
  | [], [] =>
      have eof : desugar .Eof = .Eof := rfl
      obtain ⟨next, recorded, reached⟩ := stands.scanned waiting eof ""
      refine ⟨next, recorded, fun value last run => ?_⟩
      rw [run_nextToken_eof waiting left] at run
      cases run
      exact reached { checker with text := "" } rfl rfl

/-- The latest token is put back where a slot is free. -/
theorem Stands.reinserted {slots more : Slots} {token : Token} {held : List Token} {fresh : Bool}
    {book : Ledger} {checker : Checker} (stands : Stands ⟨slots, token :: held, fresh⟩ book checker)
    (room : checker.peeked.length < 2) (allowed : more.Allow (token :: checker.peeked)) :
    ∃ next, book.record (.reinserted token checker.peeked.length) = some next ∧
      Stands ⟨more, held, false⟩ next { checker with peeked := token :: checker.peeked } := by
  match stack : book.returned with
  | [] =>
      have prefixed := stands.held
      simp [stack] at prefixed
  | (number, latest) :: returned =>
      have prefixed := stands.held
      rw [stack] at prefixed
      obtain ⟨rfl, older⟩ := List.cons_prefix_cons.mp prefixed
      have recorded : book.record (.reinserted token checker.peeked.length) = some { book with
          returned, waiting := (number, token) :: book.waiting } := by
        simp [Ledger.record, stack, room]
      refine ⟨_, recorded, ?_⟩
      constructor
      case waiting => simp [stands.waiting]
      case slots => exact allowed
      case numbers => simpa [stack] using stands.numbers
      case desugared =>
        intro entry mem
        apply stands.desugared entry
        simp only [stack, List.mem_append, List.mem_cons] at mem ⊢
        tauto
      case held => exact older
      case last => simp
      case text => exact stands.text

theorem follows_reinsertToken {slots more : Slots} {token : Token} {held : List Token} {fresh : Bool}
    (room : ∀ waiting, slots.Allow waiting → waiting.length < 2 ∧ more.Allow (token :: waiting)) :
    Follows ⟨slots, token :: held, fresh⟩ (reinsertToken token) (Lfsc.reinsertToken token)
      fun _ => ⟨more, held, false⟩ := by
  apply records_emitting
  intro book checker stands
  obtain ⟨free, allowed⟩ := room checker.peeked stands.slots
  obtain ⟨next, recorded, after⟩ := stands.reinserted free allowed
  refine ⟨next, recorded, fun value last run => ?_⟩
  obtain rfl := run_modify_ok.mp run
  rw [if_pos free]
  exact after

/-- Where nothing waits, a token that was returned is put back. -/
theorem follows_reinsert {token : Token} {held : List Token} {fresh : Bool} :
    Follows ⟨.free, token :: held, fresh⟩ (reinsertToken token) (Lfsc.reinsertToken token)
      fun _ => ⟨.single, held, false⟩ := by
  apply follows_reinsertToken
  rintro waiting rfl
  simp [Slots.Allow]

/-- Before a token that waits, an opening parenthesis is put back. -/
theorem follows_reinsert_open {held : List Token} {fresh : Bool} :
    Follows ⟨.single, .Open :: held, fresh⟩ (reinsertToken .Open) (Lfsc.reinsertToken .Open)
      fun _ => ⟨.ahead, held, false⟩ := by
  apply follows_reinsertToken
  intro waiting short
  match waiting with
  | [] => simp [Slots.Allow]
  | [token] => simp [Slots.Allow]
  | first :: second :: rest => simp [Slots.Allow] at short

theorem run_tokenStr (checker : Checker) :
    Lfsc.tokenStr.run checker = .ok (checker.text, checker) := rfl

/-- Where nothing waits, after a token was returned, the text is that of the token. -/
theorem Stands.current {token : Token} {held : List Token} {book : Ledger} {checker : Checker}
    (stands : Stands ⟨.free, token :: held, true⟩ book checker) :
    book.last.map (· + 1) = some book.scanned ∧ book.text = some checker.text := by
  have none : book.waiting = [] := by
    have waiting := stands.waiting
    rw [show checker.peeked = [] from stands.slots] at waiting
    exact List.map_eq_nil_iff.mp waiting.symm
  have current : book.last.map (· + 1) = some book.scanned := by
    have numbers := stands.numbers
    rw [none, List.append_nil] at numbers
    rw [stands.last rfl]
    match stack : book.returned with
    | [] =>
        have prefixed := stands.held
        simp [stack] at prefixed
    | (number, latest) :: returned =>
        simp only [stack, List.reverse_cons, List.map_append, List.map_cons, List.map_nil] at numbers
        cases count : book.scanned with
        | zero => simp [count] at numbers
        | succ count =>
            rw [count, List.range_succ] at numbers
            have same := List.append_inj_right' numbers rfl
            simpa using same
  have scanned : book.scanned ≠ 0 := by
    rintro zero
    simp [zero] at current
  exact ⟨current, stands.text scanned⟩

/-- The text is read where nothing waits, after a token was returned. -/
theorem follows_tokenStr {token : Token} {held : List Token} :
    Follows ⟨.free, token :: held, true⟩ tokenStr Lfsc.tokenStr
      fun _ => ⟨.free, token :: held, true⟩ := by
  apply records_emitting
  intro book checker stands
  refine ⟨book, if_pos stands.current, fun value last run => ?_⟩
  rw [run_tokenStr] at run
  cases run
  exact stands

/-- A situation may be described by less. -/
theorem Follows.settle {slots : Slots} {m : CallsM α} {plain : CheckerM α}
    (follows : Follows situation m plain post)
    (le : ∀ value, (post value).slots.count ≤ slots.count) :
    Follows situation m plain fun _ => between slots :=
  follows.imp (fun _ _ stands => stands) fun value _ _ stands => stands.weaken (le value)

theorem Slots.next_of_le {slots : Slots} (le : slots.count ≤ 1) (token : Token) :
    slots.next token = .free := by
  cases slots with
  | free => rfl
  | single => rfl
  | ahead => simp [Slots.count] at le

/-- A token where at most one token waits. -/
theorem follows_next (le : situation.slots.count ≤ 1) :
    Follows situation nextToken Lfsc.nextToken fun token =>
      ⟨.free, token :: situation.held, true⟩ := by
  apply follows_nextToken.imp fun _ _ stands => stands
  intro token book checker stands
  simp only [Slots.next_of_le le] at stands
  exact stands

theorem follows_prefixId (le : situation.slots.count ≤ 1) :
    Follows situation prefixId Lfsc.prefixId fun _ => between .free := by
  apply records_bind (follows_next le)
  intro token
  apply records_emitting
  intro book checker stands
  refine ⟨book, if_pos stands.current, fun value last run => ?_⟩
  rw [run_tokenStr] at run
  cases run
  exact stands.weaken (Nat.le_refl 0)

/-- The text that only an error message contains. -/
theorem follows_read_bind {β : Type} {token : Token} {held : List Token} {m : CallsM β}
    {plain : CheckerM β} {after : β → Situation}
    (rest : Follows ⟨.free, token :: held, true⟩ m plain after) :
    Follows ⟨.free, token :: held, true⟩ (tokenStr >>= fun _ => m) plain after := by
  have both := records_bind follows_tokenStr fun _ => rest
  have silent : (Lfsc.tokenStr >>= fun _ => plain) = plain := by
    funext checker
    exact run_bind_of_ok (run_tokenStr checker)
  rwa [silent] at both

theorem follows_unexpectedTokenError {token : Token} {held : List Token} (message : String) :
    Follows ⟨.free, token :: held, true⟩ (unexpectedTokenError message)
      (Lfsc.report message : CheckerM α) post :=
  follows_read_bind (follows_report message)

theorem follows_eatToken (token : Token) (le : situation.slots.count ≤ 1) :
    Follows situation (eatToken token) (Lfsc.eatToken token) fun _ => between .free := by
  apply records_bind (follows_next le)
  intro next
  apply records_ite
  · intro _
    exact follows_read_bind (follows_unexpectedTokenError _)
  · intro _
    exact follows_return () (Nat.le_refl 0)

/-- A result that is returned after a token. -/
theorem follows_eat_return (token : Token) (value : α) (le : situation.slots.count ≤ 1) :
    Follows situation (eatToken token >>= fun _ => pure value)
      (Lfsc.eatToken token >>= fun _ => pure value) fun _ => between .free :=
  records_bind (follows_eatToken token le) fun _ => follows_return value (Nat.le_refl 0)

/-! ## Computations without calls -/

/-- The scanner is as it was. -/
structure SameScanner (before after : Checker) : Prop where
  input : after.input = before.input
  text : after.text = before.text
  peeked : after.peeked = before.peeked

instance : AllowsTables SameScanner where
  refl _ := ⟨rfl, rfl, rfl⟩
  trans _ _ _ first second := ⟨second.input.trans first.input, second.text.trans first.text,
    second.peeked.trans first.peeked⟩
  store _ := ⟨rfl, rfl, rfl⟩
  insert _ _ _ := ⟨rfl, rfl, rfl⟩

theorem Stands.same {book : Ledger} {before after : Checker} (stands : Stands situation book before)
    (same : SameScanner before after) : Stands situation book after where
  waiting := same.peeked.trans stands.waiting
  slots := same.peeked ▸ stands.slots
  numbers := stands.numbers
  desugared := stands.desugared
  held := stands.held
  last := stands.last
  text := fun scanned => same.text ▸ stands.text scanned

/-- A computation that leaves the scanner alone. -/
theorem follows_silent {m : CheckerM α} (kept : Keeps SameScanner m) :
    Follows situation (silent m) m fun _ => situation :=
  records_silent fun _ _ _ _ stands run => stands.same (kept _ _ _ run)

theorem keeps_scanner_onRuntime (m : RunM α) : Keeps SameScanner (onRuntime m) :=
  keeps_zoom fun _ _ => ⟨rfl, rfl, rfl⟩

theorem keeps_scanner_modify {f : Checker → Checker} (same : ∀ checker, SameScanner checker (f checker)) :
    Keeps SameScanner (modify f : CheckerM Unit) := by
  intro before value after run
  obtain rfl := run_modify_ok.mp run
  exact same before

theorem follows_modify {f : Checker → Checker} (same : ∀ checker, SameScanner checker (f checker)) :
    Follows situation (modify f : CallsM Unit) (modify f : CheckerM Unit) fun _ => situation :=
  follows_silent (keeps_scanner_modify same)

theorem follows_store (m : StoreM α) :
    Follows situation (liftM m : CallsM α) (liftM m : CheckerM α) fun _ => situation :=
  follows_silent (keeps_scanner_onRuntime _)

theorem follows_deref (pointer : Option α) :
    Follows situation (deref pointer) (Lfsc.deref pointer : CheckerM α) fun _ => situation :=
  follows_silent (keeps_tables_deref pointer)

theorem follows_insert (name : String) (pair : Binding) :
    Follows situation (liftM (symbolsInsert name pair) : CallsM Binding) (symbolsInsert name pair)
      fun _ => situation :=
  follows_silent (keeps_tables_symbolsInsert name pair)

theorem follows_withBinding {name : String} {pair : Binding} {m : CallsM α} {plain : CheckerM α}
    (follows : Follows situation m plain fun _ => between .free) :
    Follows situation (withBinding name pair m) (Lfsc.withBinding name pair plain)
      fun _ => between .free := by
  apply records_bind (follows_insert name pair)
  intro prev
  apply records_bind follows
  intro result
  apply records_bind (follows_insert name prev)
  intro _
  exact follows_return result (Nat.le_refl _)

theorem follows_mapM {γ : Type} {m : γ → CallsM α} {plain : γ → CheckerM α}
    (each : ∀ item, Follows (between .single) (m item) (plain item) fun _ => between .free)
    (items : List γ) (le : situation.slots.count ≤ 0) :
    Follows situation (items.mapM m) (items.mapM plain) fun _ => between .free := by
  have between : Follows (between .free) (items.mapM m) (items.mapM plain) fun _ => between .free :=
    records_mapM (fun item => (each item).anywhere (Nat.zero_le _)) items
  exact between.anywhere le

end Follows

end Lookahead

end Lfsc
