import Lfsc.Lexer
import Lfsc.Munch

/-!
# The scanner

The rules of `lexer.flex` with their actions, over the bytes of a file.  The generated scanner picks
the rule with the longest match, the earliest one of several, and runs `YY_USER_ACTION` before the
action of the rule.
-/

namespace Lfsc

open Munch (Regex choose)

/-! ## Rules -/

/-- What a rule of the scanner does. -/
inductive RuleAction
  /-- It returns a token. -/
  | token (token : Token)
  /-- Blanks: `bump_span()`. -/
  | blanks
  /-- Newlines: `add_lines(yyleng)` and `bump_span()`. -/
  | newlines
  /-- A comment, which is read to the end of its line. -/
  | comment
  /-- The default rule of the generator, which echoes a byte that nothing else matches. -/
  | echo
  deriving DecidableEq, Repr

/-- The byte of a character. -/
abbrev byte (c : Char) : UInt8 := c.toUInt8

/-- A text between quotation marks. -/
def literal (text : String) : Regex UInt8 := .word (text.toList.map byte)

/-- A class of characters. -/
def oneOf (chars : String) : Regex UInt8 := .one fun c => (chars.toList.map byte).contains c

/-- All but a class of characters. -/
def noneOf (chars : String) : Regex UInt8 := .one fun c => !(chars.toList.map byte).contains c

/-- `nl`. -/
def nl : Regex UInt8 := .plus (oneOf "\n")

/-- `ws`; the form feed is written as a code. -/
def ws : Regex UInt8 := .plus (oneOf " \t\x0c")

/-- `dig`. -/
def dig : Regex UInt8 := oneOf "0123456789"

/-- `markvar`. -/
def markvar : Regex UInt8 := .seq (literal "markvar") (.many dig)

/-- `ifmarked`. -/
def ifmarked : Regex UInt8 := .seq (literal "ifmarked") (.many dig)

/-- `natural`. -/
def natural : Regex UInt8 := .plus dig

/-- `rational`. -/
def rational : Regex UInt8 := .seq (.plus dig) (.seq (literal "/") (.plus dig))

/-- `ident`. -/
def ident : Regex UInt8 :=
  .seq (noneOf "0123456789^\\~:@!%() \t\n\x0c;") (.many (noneOf "() \t\n\x0c;"))

/-- The rules of the scanner, the default rule last. -/
def rules : List (Regex UInt8 × RuleAction) :=
  [(literal "declare", .token .Declare),
   (literal "define", .token .Define),
   (literal "check", .token .Check),
   (literal "program", .token .Program),
   (literal "function", .token .Function),
   (literal "opaque", .token .Opaque),
   (literal "run", .token .Run),
   (literal "type", .token .Type),
   (literal "%", .token .Percent),
   (literal "!", .token .Bang),
   (literal "#", .token .Pound),
   (literal "@", .token .At),
   (literal ":", .token .Colon),
   (literal "\\", .token .ReverseSolidus),
   (literal "^", .token .Caret),
   (literal "_", .token .Hole),
   (literal "let", .token .Let),
   (literal "~", .token .Tilde),
   (literal "do", .token .Do),
   (literal "match", .token .Match),
   (literal "default", .token .Default),
   (literal "mpz", .token .Mpz),
   (literal "mpq", .token .Mpq),
   (literal "mp_add", .token .MpAdd),
   (literal "mp_neg", .token .MpNeg),
   (literal "mp_div", .token .MpDiv),
   (literal "mp_mul", .token .MpMul),
   (literal "mp_ifneg", .token .MpIfNeg),
   (literal "mp_ifzero", .token .MpIfZero),
   (literal "mpz_to_mpq", .token .MpzToMpq),
   (literal "compare", .token .Compare),
   (literal "ifequal", .token .IfEqual),
   (literal "fail", .token .Fail),
   (literal "(", .token .Open),
   (literal ")", .token .Close),
   (literal "provided", .token .Provided),
   (literal "declare-rule", .token .DeclareRule),
   (literal "declare-type", .token .DeclareType),
   (literal "define-const", .token .DefineConst),
   (literal "pi", .token .Forall),
   (literal "->", .token .Arrow),
   (literal "lam", .token .Lam),
   (literal "check-assuming", .token .CheckAssuming),
   (markvar, .token .MarkVar),
   (ifmarked, .token .IfMarked),
   (natural, .token .Natural),
   (rational, .token .Rational),
   (ws, .blanks),
   (nl, .newlines),
   (literal ";", .comment),
   (ident, .token .Ident),
   (.one fun _ => true, .echo)]

example : choose rules ("declare-rule x".toList.map byte) = some (12, .token .DeclareRule) := by
  decide +kernel

/-! ## Positions -/

/-- `Location`. -/
structure Location where
  /-- The line, counted from one. -/
  line : UInt32
  /-- The column, counted from one. -/
  column : UInt32
  deriving DecidableEq, Repr

/-- `Span`, with `start` and `end`. -/
structure Span where
  /-- Where the token starts. -/
  start : Location
  /-- Where the text read so far ends. -/
  stop : Location
  deriving DecidableEq, Repr

/-- `operator<<` of a location. -/
def Location.print (l : Location) : String := toString l.line ++ ":" ++ toString l.column

/-- `operator<<` of a span. -/
def Span.print (l : Span) : String := l.start.print ++ "-" ++ l.stop.print

/-! ## State -/

/-- The global variables of the scanner. -/
structure Scanner where
  /-- The bytes of the file that `s_lexer` has not read. -/
  rest : List UInt8
  /-- `yytext`, of `yyleng` bytes. -/
  yytext : List UInt8
  /-- `s_filename`. -/
  filename : String
  /-- `s_span`. -/
  span : Span
  /-- The two slots of `s_peeked`; `TokenErr` marks an empty slot. -/
  peeked : Option Token × Option Token

namespace Scanner

/-- The state before the first file. -/
def fresh : Scanner := ⟨[], [], "", ⟨⟨1, 1⟩, ⟨1, 1⟩⟩, (none, none)⟩

/-- `init_s_span`. -/
def initSpan (s : Scanner) : Scanner := { s with span := ⟨⟨1, 1⟩, ⟨1, 1⟩⟩ }

/-- `bump_span`. -/
def bumpSpan (s : Scanner) : Scanner := { s with span := ⟨s.span.stop, s.span.stop⟩ }

/-- `add_columns`. -/
def addColumns (columns : UInt32) (s : Scanner) : Scanner :=
  { s with span := ⟨s.span.start, ⟨s.span.stop.line, s.span.stop.column + columns⟩⟩ }

/-- `add_lines`. -/
def addLines (lines : UInt32) (s : Scanner) : Scanner :=
  { s with span := ⟨s.span.start, ⟨s.span.stop.line + lines, 1⟩⟩ }

/-- The start of `check_file`: a new scanner for a file, whose slots stay what they were. -/
def openFile (filename : String) (text : List UInt8) (s : Scanner) : Scanner :=
  { s with rest := text, yytext := [], filename }.initSpan

/-- `yyinput`: the next byte, or zero at the end of the file. -/
def yyinput (s : Scanner) : UInt8 × Scanner :=
  match s.rest with
  | [] => (0, s)
  | c :: rest => (c, { s with rest })

/-- The loop of the action for comments, over the bytes left. -/
def readComment (s : Scanner) : Scanner :=
  if s.yyinput.1 = 0 then s.yyinput.2
  else if s.yyinput.1 = byte '\n' then (s.yyinput.2.addLines 1).bumpSpan
  else s.yyinput.2.readComment
termination_by s.rest.length
decreasing_by
  unfold yyinput at *
  cases rest : s.rest with
  | nil => simp_all
  | cons c rest => simp

/-- The action of a rule, after its text was matched. -/
def perform (yyleng : Nat) (s : Scanner) : RuleAction → Option Token × Scanner
  | .token token => (some token, s)
  | .blanks => (none, s.bumpSpan)
  | .newlines => (none, (s.addLines (.ofNat yyleng)).bumpSpan)
  | .comment => (none, s.readComment)
  | .echo => (none, s)

/-- One match: the rule for the beginning of the bytes left, `YY_USER_ACTION`, and the action of the
rule.  Where no byte is left the end of the file is reported. -/
def matchOnce (s : Scanner) : Option Token × Scanner :=
  match choose rules s.rest with
  | none => (some .Eof, { s with yytext := [] })
  | some (yyleng, action) =>
      perform yyleng
        ({ s with rest := s.rest.drop yyleng, yytext := s.rest.take yyleng }.addColumns
          (.ofNat yyleng)) action

/-! ## The rule that is chosen -/

theorem token_rule {rule : Regex UInt8 × RuleAction} (mem : rule ∈ rules) {token : Token}
    (returns : rule.2 = .token token) : rule.1.avoids (byte '\n') = true ∧ token ≠ .Eof := by
  have all : rules.all (fun rule =>
      match rule.2 with
      | .token token => rule.1.avoids (byte '\n') && decide (token ≠ .Eof)
      | _ => true) = true := by
    decide +kernel
  have holds := List.all_eq_true.mp all rule mem
  simpa [returns] using holds

/-- Each action other than to return a token belongs to one rule. -/
theorem rule_eq {rule : Regex UInt8 × RuleAction} (only : Regex UInt8 × RuleAction) (mem : rule ∈ rules)
    (single : rules.filter (fun other => other.2 = only.2) = [only]) (same : rule.2 = only.2) :
    rule = only := by
  have found : rule ∈ rules.filter (fun other => other.2 = only.2) :=
    List.mem_filter.mpr ⟨mem, by simpa using same⟩
  rw [single] at found
  exact List.mem_singleton.mp found

/-- Every byte is matched by a rule that is not the default rule. -/
theorem exists_rule (c : UInt8) : ∃ rule ∈ rules.dropLast, rule.1.Matches [c] := by
  by_cases starts : ("0123456789^\\~:@!%() \t\n\x0c;".toList.map byte).contains c = true
  · have all : ("0123456789^\\~:@!%() \t\n\x0c;".toList.map byte).all (fun c =>
        rules.dropLast.any fun rule => rule.1.deriv c |>.nullable) = true := by
      decide +kernel
    have some := List.all_eq_true.mp all c (by simpa using starts)
    obtain ⟨rule, mem, null⟩ := List.any_eq_true.mp some
    exact ⟨rule, mem, Regex.matches_deriv.mp (Regex.nullable_iff.mp null)⟩
  · refine ⟨(ident, .token .Ident), ?_, ?_⟩
    · rw [rules]
      simp only [List.dropLast, List.mem_cons, true_or, or_true]
    · have first : ident.Matches ([c] ++ []) := by
        apply Regex.Matches.seq
        · exact .one (by simpa using starts)
        · exact .done
      exact first

/-- What is known of the text that a rule was chosen for. -/
structure Matched (text : List UInt8) (action : RuleAction) : Prop where
  nonempty : text ≠ []
  token : ∀ token, action = .token token → byte '\n' ∉ text ∧ token ≠ .Eof
  blanks : action = .blanks → byte '\n' ∉ text
  newlines : action = .newlines → ∀ c ∈ text, c = byte '\n'
  comment : action = .comment → text = [byte ';']
  echo : action ≠ .echo

theorem choose_rules_nil : choose rules [] = none := by decide +kernel

theorem Matched.of_chosen {text : List UInt8} {length : Nat} {action : RuleAction} (full : text ≠ [])
    (chosen : Munch.Chosen rules text length action) : Matched (text.take length) action := by
  obtain ⟨bound, ⟨before, r, after, split, matching, others⟩, longest⟩ := chosen
  have mem : (r, action) ∈ rules := by simp [split]
  have positive : 0 < length := by
    cases text with
    | nil => exact (full rfl).elim
    | cons c rest =>
        obtain ⟨rule, early, single⟩ := exists_rule c
        exact longest rule (List.dropLast_subset rules early) 1 (by simp) (by simpa using single)
  constructor
  case nonempty =>
    intro empty
    have := congrArg List.length empty
    simp only [List.length_take, List.length_nil] at this
    omega
  case token =>
    rintro token rfl
    have known := token_rule mem rfl
    exact ⟨Regex.not_mem_of_matches matching known.1, known.2⟩
  case blanks =>
    rintro rfl
    obtain rfl : r = ws := congrArg Prod.fst (rule_eq (ws, .blanks) mem rfl rfl)
    exact Regex.not_mem_of_matches matching (by decide +kernel)
  case newlines =>
    rintro rfl
    obtain rfl : r = nl := congrArg Prod.fst (rule_eq (nl, .newlines) mem rfl rfl)
    intro c inside
    have allowed := (Regex.matches_plus_one.mp matching).2 c inside
    simpa using allowed
  case comment =>
    rintro rfl
    obtain rfl : r = literal ";" :=
      congrArg Prod.fst (rule_eq (literal ";", .comment) mem rfl rfl)
    exact Regex.matches_word.mp matching
  case echo =>
    rintro rfl
    obtain rfl : r = .one fun _ => true :=
      congrArg Prod.fst (rule_eq (.one fun _ => true, .echo) mem rfl rfl)
    obtain ⟨c, -, single⟩ := Regex.matches_one.mp matching
    obtain ⟨rule, early, matches'⟩ := exists_rule c
    -- The default rule is the last one, so that the other rule comes before it.
    have last : after = [] := by
      by_contra more
      have inner : (Regex.one fun _ => true, RuleAction.echo) ∈ rules.dropLast := by
        rw [split, List.dropLast_append_of_ne_nil (by simp), List.dropLast_cons_of_ne_nil more]
        simp
      have none : rules.dropLast.all (fun rule => rule.2 ≠ .echo) = true := by decide +kernel
      simpa using List.all_eq_true.mp none _ inner
    rw [split, last, List.dropLast_concat] at early
    exact others rule early (single ▸ matches')

/-- What one match does. -/
theorem matchOnce_cases (s : Scanner) :
    (s.rest = [] ∧ s.matchOnce = (some .Eof, { s with yytext := [] })) ∨
    ∃ yytext rest action, s.rest = yytext ++ rest ∧ Matched yytext action ∧
      Munch.Chosen rules s.rest yytext.length action ∧
      s.matchOnce =
        perform yytext.length ({ s with rest, yytext }.addColumns (.ofNat yytext.length)) action := by
  have spec := Munch.choose_spec rules s.rest
  rw [matchOnce]
  cases found : choose rules s.rest with
  | none =>
      rw [found] at spec
      cases left : s.rest with
      | nil => exact .inl ⟨rfl, by rw [← left]⟩
      | cons c rest =>
          rw [left] at spec
          obtain ⟨rule, early, single⟩ := exists_rule c
          exact (spec rule (List.dropLast_subset rules early) 1 (by simp) (by simpa using single)).elim
  | some chosen =>
      obtain ⟨yyleng, action⟩ := chosen
      rw [found] at spec
      have full : s.rest ≠ [] := by
        intro empty
        rw [empty, choose_rules_nil] at found
        cases found
      have taken : (s.rest.take yyleng).length = yyleng := List.length_take_of_le spec.bound
      refine .inr ⟨s.rest.take yyleng, s.rest.drop yyleng, action,
        (List.take_append_drop yyleng s.rest).symm, .of_chosen full spec, ?_, ?_⟩
      · rwa [taken]
      · rw [taken]

theorem readComment_nil {s : Scanner} (ended : s.rest = []) : s.readComment = s := by
  rw [readComment, yyinput, ended]
  rfl

theorem readComment_cons {s : Scanner} {c : UInt8} {rest : List UInt8} (more : s.rest = c :: rest) :
    s.readComment =
      if c = 0 then { s with rest }
      else if c = byte '\n' then ({ s with rest }.addLines 1).bumpSpan
      else readComment { s with rest } := by
  rw [readComment, yyinput, more]

/-- A comment ends with its line, at a zero byte or at the end of the file. -/
theorem length_readComment (s : Scanner) : s.readComment.rest.length ≤ s.rest.length := by
  obtain ⟨rest, same⟩ : ∃ rest, s.rest = rest := ⟨_, rfl⟩
  induction rest generalizing s with
  | nil => rw [readComment_nil same]
  | cons c rest hyp =>
      rw [readComment_cons same, same]
      split
      · exact Nat.le_succ _
      · split
        · exact Nat.le_succ _
        · exact Nat.le_succ_of_le (hyp { s with rest } rfl)

/-- Without zero bytes a comment ends with its line or with the file. -/
theorem readComment_cases {s : Scanner} (nonzero : 0 ∉ s.rest) :
    (s.readComment = { s with rest := [] }) ∨
    ∃ line rest, s.rest = line ++ byte '\n' :: rest ∧ byte '\n' ∉ line ∧
      s.readComment = ({ s with rest }.addLines 1).bumpSpan := by
  obtain ⟨rest, same⟩ : ∃ rest, s.rest = rest := ⟨_, rfl⟩
  induction rest generalizing s with
  | nil => exact .inl (by rw [readComment_nil same, ← same])
  | cons c rest hyp =>
      have visible : c ≠ 0 := by
        rintro rfl
        simp [same] at nonzero
      rw [readComment_cons same, if_neg visible]
      by_cases newline : c = byte '\n'
      · exact .inr ⟨[], rest, by rw [same, newline]; rfl, by simp, if_pos newline⟩
      · rw [if_neg newline]
        have later : 0 ∉ rest := fun mem => nonzero (by simp [same, mem])
        rcases hyp (s := { s with rest }) later rfl with ended | ⟨line, tail, split, free, read⟩
        · exact .inl ended
        · simp only at split
          refine .inr ⟨c :: line, tail, by rw [same, split]; rfl, ?_, read⟩
          simp [free, Ne.symm newline]

/-- A match that returns no token reads some bytes. -/
theorem length_matchOnce {s after : Scanner} (skipped : s.matchOnce = (none, after)) :
    after.rest.length < s.rest.length := by
  rcases s.matchOnce_cases with ⟨-, ended⟩ | ⟨yytext, rest, action, split, matched, -, performed⟩
  · rw [ended] at skipped
    cases skipped
  · rw [skipped] at performed
    have shorter : rest.length < s.rest.length := by
      have := List.length_pos_of_ne_nil matched.nonempty
      rw [split, List.length_append]
      omega
    cases action with
    | token token => cases performed
    | blanks =>
        obtain rfl := congrArg Prod.snd performed
        exact shorter
    | newlines =>
        obtain rfl := congrArg Prod.snd performed
        exact shorter
    | echo => exact (matched.echo rfl).elim
    | comment =>
        obtain rfl := congrArg Prod.snd performed
        exact Nat.lt_of_le_of_lt (length_readComment _) shorter

/-! ## Tokens -/

/-- The loop of `yylex`, until a rule returns a token. -/
def scan (s : Scanner) : Token × Scanner :=
  match _step : s.matchOnce with
  | (some token, after) => (token, after)
  | (none, after) => after.scan
termination_by s.rest.length
decreasing_by exact length_matchOnce _step

/-- `yylex`, which starts with `bump_span()`. -/
def yylex (s : Scanner) : Token × Scanner := s.bumpSpan.scan

/-- `next_token`. -/
def nextToken (s : Scanner) : Token × Scanner :=
  let (token, s) :=
    match s.peeked.1 with
    | none => s.yylex
    | some token => (token, { s with peeked := (s.peeked.2, none) })
  (desugar token, s)

/-- `reinsert_token`, which drops the token where both slots are occupied. -/
def reinsertToken (token : Token) (s : Scanner) : Scanner :=
  if s.peeked.1 = none then { s with peeked := (some token, s.peeked.2) }
  else if s.peeked.2 = none then { s with peeked := (some token, s.peeked.1) }
  else s

/-- `token_str`. -/
def tokenStr (s : Scanner) : List UInt8 := s.yytext

/-- What `report_error` prints. -/
def reportError (message : String) (s : Scanner) : String :=
  (if s.filename.length ≠ 0 then "Error: " ++ s.filename ++ " at " ++ s.span.print else "") ++
    "\n" ++ message ++ "\n"

theorem scan_of_token {s after : Scanner} {token : Token}
    (step : s.matchOnce = (some token, after)) : s.scan = (token, after) := by
  rw [scan]
  split
  · cases step.symm.trans ‹_›
    rfl
  · cases step.symm.trans ‹_›

theorem scan_of_skip {s after : Scanner} (step : s.matchOnce = (none, after)) :
    s.scan = after.scan := by
  rw [scan]
  split
  · cases step.symm.trans ‹_›
  · cases step.symm.trans ‹_›
    rfl

/-! ## What scanning leaves as it is -/

/-- The file name and the slots. -/
def frame (s : Scanner) : String × (Option Token × Option Token) := (s.filename, s.peeked)

theorem frame_readComment (s : Scanner) : s.readComment.frame = s.frame := by
  obtain ⟨rest, same⟩ : ∃ rest, s.rest = rest := ⟨_, rfl⟩
  induction rest generalizing s with
  | nil => rw [readComment_nil same]
  | cons c rest hyp =>
      rw [readComment_cons same]
      split
      · rfl
      · split
        · rfl
        · exact hyp { s with rest } rfl

theorem frame_matchOnce (s : Scanner) : s.matchOnce.2.frame = s.frame := by
  rcases s.matchOnce_cases with ⟨-, ended⟩ | ⟨yytext, rest, action, -, -, -, performed⟩
  · rw [ended]
    rfl
  · rw [performed]
    cases action with
    | comment => exact frame_readComment _
    | _ => rfl

theorem frame_scan (s : Scanner) : s.scan.2.frame = s.frame := by
  have kept := s.frame_matchOnce
  induction s using scan.induct with
  | case1 s token after step =>
      rw [step] at kept
      rwa [scan_of_token step]
  | case2 s after step hyp =>
      rw [step] at kept
      rw [scan_of_skip step]
      exact (hyp after.frame_matchOnce).trans kept

theorem scan_filename (s : Scanner) : s.scan.2.filename = s.filename :=
  congrArg Prod.fst s.frame_scan

theorem scan_peeked (s : Scanner) : s.scan.2.peeked = s.peeked := congrArg Prod.snd s.frame_scan

end Scanner

end Lfsc
