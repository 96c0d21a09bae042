import Mathlib.Data.List.TakeWhile
import Lfsc.Scanner

/-!
# Source positions

The position of a text that follows another one is determined by the newlines before it and by the
bytes since the last of them.  While a file without zero bytes is read, `s_span` is the range of the
text scanned last, as far as its numbers of 32 bits can tell.
-/

namespace Lfsc

/-! ## Positions in a text -/

/-- A line and a column, both counted from one. -/
structure Position where
  /-- The line. -/
  line : Nat
  /-- The column, in bytes. -/
  column : Nat
  deriving DecidableEq, Repr

/-- Where the text after a beginning starts. -/
def locate (before : List UInt8) : Position where
  line := 1 + before.count (byte '\n')
  column := 1 + (before.reverse.takeWhile (· ≠ byte '\n')).length

/-- A position in numbers of 32 bits. -/
def Position.stored (p : Position) : Location := ⟨.ofNat p.line, .ofNat p.column⟩

/-- A location is a position. -/
def Location.Shows (l : Location) (p : Position) : Prop :=
  l.line.toNat = p.line ∧ l.column.toNat = p.column

/-- Numbers of 32 bits suffice where line and column are below their bound. -/
theorem Position.stored_shows {p : Position} (line : p.line < UInt32.size)
    (column : p.column < UInt32.size) : p.stored.Shows p :=
  ⟨UInt32.toNat_ofNat_of_lt' line, UInt32.toNat_ofNat_of_lt' column⟩

theorem stored_locate_nil : (locate []).stored = ⟨1, 1⟩ := rfl

/-- A text within a line moves the position by its length. -/
theorem stored_locate_append (before : List UInt8) {text : List UInt8} (inLine : byte '\n' ∉ text) :
    (locate (before ++ text)).stored =
      ⟨(locate before).stored.line, (locate before).stored.column + .ofNat text.length⟩ := by
  have line : (before ++ text).count (byte '\n') = before.count (byte '\n') := by
    rw [List.count_append, List.count_eq_zero.mpr inLine, Nat.add_zero]
  have column : (before ++ text).reverse.takeWhile (· ≠ byte '\n') =
      text.reverse ++ before.reverse.takeWhile (· ≠ byte '\n') := by
    rw [List.reverse_append, List.takeWhile_append_of_pos]
    intro c inside
    apply decide_eq_true
    rintro rfl
    exact inLine (List.mem_reverse.mp inside)
  simp only [locate, Position.stored, line, column, List.length_append, List.length_reverse,
    ← UInt32.ofNat_add]
  congr 2
  omega

/-- A newline moves the position to the next line. -/
theorem stored_locate_newline (before : List UInt8) :
    (locate (before ++ [byte '\n'])).stored = ⟨(locate before).stored.line + 1, 1⟩ := by
  have line : (before ++ [byte '\n']).count (byte '\n') = before.count (byte '\n') + 1 := by
    rw [List.count_append, List.count_singleton_self]
  simp only [locate, Position.stored, line, ← Nat.add_assoc, UInt32.ofNat_add]
  simp

/-- Several newlines move the position by as many lines. -/
theorem stored_locate_newlines {text : List UInt8} (newlines : ∀ c ∈ text, c = byte '\n')
    (nonempty : text ≠ []) (before : List UInt8) :
    (locate (before ++ text)).stored =
      ⟨(locate before).stored.line + .ofNat text.length, 1⟩ := by
  induction text generalizing before with
  | nil => exact (nonempty rfl).elim
  | cons c rest hyp =>
      obtain ⟨rfl, others⟩ := List.forall_mem_cons.mp newlines
      have one := stored_locate_newline before
      cases rest with
      | nil => simpa using one
      | cons c' rest =>
          have more := hyp others (by simp) (before ++ [byte '\n'])
          have count : UInt32.ofNat ([byte '\n'] ++ c' :: rest).length =
              1 + UInt32.ofNat (c' :: rest).length := by
            rw [List.length_append, UInt32.ofNat_add]
            rfl
          rw [List.append_assoc] at more
          rw [← List.singleton_append, more, one, count, UInt32.add_assoc]

/-! ## Spans -/

namespace Scanner

open Munch (Chosen choose)

/-- Where the scanner stands between two matches: at the end of the file, or with an empty span at
the position of the bytes left. -/
def Aligned (text : List UInt8) (s : Scanner) : Prop :=
  s.rest = [] ∨ ∃ before, text = before ++ s.rest ∧
    s.span = ⟨(locate before).stored, (locate before).stored⟩

/-- The text scanned last is that of a token, and the span is its range in the file. -/
structure Covers (text : List UInt8) (s : Scanner) (token : Token) (before : List UInt8) : Prop where
  split : text = before ++ s.yytext ++ s.rest
  chosen : Chosen rules (s.yytext ++ s.rest) s.yytext.length (.token token)
  span : s.span = ⟨(locate before).stored, (locate (before ++ s.yytext)).stored⟩

/-- The end of the file is returned where no byte is left, and another token with its range. -/
def Returned (text : List UInt8) (s : Scanner) (token : Token) : Prop :=
  token = .Eof ∧ s.rest = [] ∨ token ≠ .Eof ∧ ∃ before, Covers text s token before

/-- One match moves the span with the bytes that are read. -/
theorem matchOnce_aligned {text : List UInt8} {s : Scanner} (nonzero : 0 ∉ text)
    (aligned : Aligned text s) :
    match s.matchOnce with
    | (some token, after) => Returned text after token
    | (none, after) => Aligned text after := by
  rcases s.matchOnce_cases with ⟨ended, stops⟩ | ⟨yytext, rest, action, split, matched, chosen, performed⟩
  · rw [stops]
    exact .inl ⟨rfl, ended⟩
  · rcases aligned with ended | ⟨before, whole, span⟩
    · rw [ended] at split
      exact (matched.nonempty (List.append_eq_nil_iff.mp split.symm).1).elim
    · have readOn : text = before ++ yytext ++ rest := by
        rw [whole, split, List.append_assoc]
      rw [performed]
      cases action with
      | token token =>
          obtain ⟨inLine, proper⟩ := matched.token token rfl
          have stop := stored_locate_append before inLine
          refine .inr ⟨proper, before, readOn, by simpa [addColumns, split] using chosen, ?_⟩
          simp [addColumns, span, stop]
      | blanks =>
          refine .inr ⟨before ++ yytext, readOn, ?_⟩
          rw [stored_locate_append before (matched.blanks rfl)]
          simp [bumpSpan, addColumns, span]
      | newlines =>
          refine .inr ⟨before ++ yytext, readOn, ?_⟩
          rw [stored_locate_newlines (matched.newlines rfl) matched.nonempty]
          simp [bumpSpan, addLines, addColumns, span]
      | echo => exact (matched.echo rfl).elim
      | comment =>
          have visible : 0 ∉ rest := fun mem => nonzero (by simp [readOn, mem])
          rcases readComment_cases (s := addColumns (.ofNat yytext.length) { s with rest, yytext })
            visible with ended | ⟨line, tail, splits, inLine, read⟩
          · exact .inl (congrArg Scanner.rest ended)
          · have rest_eq : rest = line ++ byte '\n' :: tail := splits
            refine .inr ⟨before ++ yytext ++ line ++ [byte '\n'], ?_, ?_⟩
            · simp only [read]
              rw [readOn, rest_eq]
              simp [addLines, bumpSpan]
            · have sameLine : byte '\n' ∉ yytext ++ line := by
                rw [matched.comment rfl]
                exact List.not_mem_cons_of_ne_of_not_mem (by decide) inLine
              simp only [read]
              rw [stored_locate_newline, List.append_assoc before, stored_locate_append before sameLine]
              simp [bumpSpan, addLines, addColumns, span]

/-- The loop of the scanner ends with a token and its range, or at the end of the file. -/
theorem scan_returned {text : List UInt8} {s : Scanner} (nonzero : 0 ∉ text)
    (aligned : Aligned text s) : Returned text s.scan.2 s.scan.1 := by
  induction s using scan.induct with
  | case1 s token after step =>
      have returned := matchOnce_aligned nonzero aligned
      rw [step] at returned
      rw [scan_of_token step]
      exact returned
  | case2 s after step hyp =>
      have next := matchOnce_aligned nonzero aligned
      rw [step] at next
      rw [scan_of_skip step]
      exact hyp next

/-! ## Whole files -/

/-- The calls of `next_token` and `reinsert_token` since a file was opened, with the token that was
scanned last. -/
inductive Reads (filename : String) (text : List UInt8) : Scanner → Option Token → Prop
  | opened (old : Scanner) : Reads filename text (old.openFile filename text) none
  | scanned {s : Scanner} {last : Option Token} : Reads filename text s last →
      s.peeked.1 = none → Reads filename text s.nextToken.2 (some s.yylex.1)
  | popped {s : Scanner} {last : Option Token} {token : Token} : Reads filename text s last →
      s.peeked.1 = some token → Reads filename text s.nextToken.2 last
  | reinserted {s : Scanner} {last : Option Token} (token : Token) : Reads filename text s last →
      Reads filename text (s.reinsertToken token) last

/-- What holds after any calls: before the first scan the whole file is left, and afterwards the
token scanned last is covered. -/
def Standing (text : List UInt8) (s : Scanner) : Option Token → Prop
  | none => s.rest = text ∧ s.span = ⟨⟨1, 1⟩, ⟨1, 1⟩⟩
  | some token => Returned text s token

theorem Standing.aligned {text : List UInt8} {s : Scanner} {last : Option Token}
    (standing : Standing text s last) : Aligned text s.bumpSpan := by
  cases last with
  | none =>
      obtain ⟨whole, span⟩ := standing
      exact .inr ⟨[], whole.symm, by simp [bumpSpan, span, stored_locate_nil]⟩
  | some token =>
      rcases standing with ⟨-, ended⟩ | ⟨-, before, covers⟩
      · exact .inl ended
      · exact .inr ⟨before ++ s.yytext, covers.split, by simp [bumpSpan, covers.span]⟩

/-- What stands in the slots does not matter to the position. -/
theorem Standing.peeked {text : List UInt8} {s : Scanner} {last : Option Token}
    (standing : Standing text s last) (peeked : Option Token × Option Token) :
    Standing text { s with peeked } last := by
  cases last with
  | none => exact standing
  | some token =>
      rcases standing with ended | ⟨proper, before, split, chosen, span⟩
      · exact .inl ended
      · exact .inr ⟨proper, before, split, chosen, span⟩

theorem Reads.standing {filename : String} {text : List UInt8} {s : Scanner} {last : Option Token}
    (nonzero : 0 ∉ text) (reads : Reads filename text s last) : Standing text s last := by
  induction reads with
  | opened old => exact ⟨rfl, rfl⟩
  | @scanned s last reads slot hyp =>
      have returned := scan_returned nonzero hyp.aligned
      rw [nextToken, slot]
      exact returned
  | @popped s last token reads slot hyp =>
      rw [nextToken, slot]
      exact hyp.peeked _
  | @reinserted s last token reads hyp =>
      unfold reinsertToken
      split
      · exact hyp.peeked _
      · split
        · exact hyp.peeked _
        · exact hyp

theorem Reads.filename {filename : String} {text : List UInt8} {s : Scanner} {last : Option Token}
    (reads : Reads filename text s last) : s.filename = filename := by
  induction reads with
  | opened old => rfl
  | @scanned s last reads slot hyp =>
      rw [nextToken, slot]
      exact (scan_filename s.bumpSpan).trans hyp
  | @popped s last token reads slot hyp =>
      rw [nextToken, slot]
      exact hyp
  | @reinserted s last token reads hyp =>
      unfold reinsertToken
      split
      · exact hyp
      · split
        · exact hyp
        · exact hyp

/-- While a file without zero bytes is read, also after tokens were pushed back, `s_span` is the
range of the text of the token scanned last, and `report_error` names the line where it starts, in
numbers of 32 bits. -/
theorem span_covers_token {filename : String} {text : List UInt8} {s : Scanner} {token : Token}
    (nonzero : 0 ∉ text) (reads : Reads filename text s (some token)) (proper : token ≠ .Eof) :
    ∃ before, text = before ++ s.yytext ++ s.rest ∧
      Chosen rules (s.yytext ++ s.rest) s.yytext.length (.token token) ∧
      s.span = ⟨(locate before).stored, (locate (before ++ s.yytext)).stored⟩ ∧
      (filename ≠ "" → ∀ message, ∃ others, s.reportError message =
        "Error: " ++ filename ++ " at " ++ toString (locate before).stored.line ++ ":" ++ others) := by
  rcases reads.standing nonzero with ⟨ended, -⟩ | ⟨-, before, split, chosen, span⟩
  · exact (proper ended).elim
  · refine ⟨before, split, chosen, span, fun named message => ?_⟩
    have nonempty : s.filename.length ≠ 0 := by
      rw [reads.filename]
      simpa using named
    rw [reportError, if_pos nonempty, reads.filename, span]
    simp only [Span.print, Location.print, String.append_assoc]
    exact ⟨_, rfl⟩

/-! ## Files of comments -/

/-- Only the rule for comments has a semicolon in its text. -/
theorem matchOnce_comment {s : Scanner} {rest : List UInt8} (starts : s.rest = byte ';' :: rest) :
    s.matchOnce =
      (none, (addColumns 1 { s with rest, yytext := [byte ';'] }).readComment) := by
  rcases s.matchOnce_cases with ⟨ended, -⟩ | ⟨yytext, tail, action, split, matched, chosen, performed⟩
  · rw [ended] at starts
    cases starts
  · obtain ⟨-, ⟨before, r, after, among, matching, -⟩, -⟩ := chosen
    have inside : byte ';' ∈ s.rest.take yytext.length := by
      cases yytext with
      | nil => exact (matched.nonempty rfl).elim
      | cons c others => simp [starts]
    have all : rules.all (fun rule =>
        rule.1.avoids (byte ';') || decide (rule.2 = .comment ∨ rule.2 = .echo)) = true := by
      decide +kernel
    have mem : (r, action) ∈ rules := by simp [among]
    have known := List.all_eq_true.mp all (r, action) mem
    have comments : action = .comment := by
      rcases (Bool.or_eq_true _ _).mp known with avoided | either
      · exact (Munch.Regex.not_mem_of_matches matching avoided inside).elim
      · exact (of_decide_eq_true either).resolve_right matched.echo
    obtain rfl := comments
    obtain rfl := matched.comment rfl
    obtain rfl : rest = tail := List.cons.inj (starts.symm.trans split) |>.2
    exact performed

/-- A number of lines that consist of an empty comment each. -/
def commentLines (count : Nat) : List UInt8 := (List.replicate count [byte ';', byte '\n']).flatten

theorem commentLines_succ (count : Nat) :
    commentLines (count + 1) = byte ';' :: byte '\n' :: commentLines count := rfl

theorem line_commentLines (count : Nat) : (locate (commentLines count)).line = 1 + count := by
  induction count with
  | zero => rfl
  | succ count hyp =>
      have other : (byte ';' == byte '\n') = false := by decide
      simp only [locate] at hyp ⊢
      rw [commentLines_succ, List.count_cons, List.count_cons, other]
      simp only [beq_self_eq_true, if_true, Bool.false_eq_true, if_false]
      omega

/-- After lines of comments an identifier is scanned. -/
theorem scan_commentLines (count : Nat) {s : Scanner} (left : s.rest = commentLines count ++ [byte 'a']) :
    s.scan.1 = .Ident ∧ s.scan.2.yytext = [byte 'a'] ∧ s.scan.2.rest = [] := by
  induction count generalizing s with
  | zero =>
      have single : choose rules [byte 'a'] = some (1, .token .Ident) := by decide +kernel
      have step : s.matchOnce =
          (some .Ident, addColumns 1 { s with rest := [], yytext := [byte 'a'] }) := by
        have last : s.rest = [byte 'a'] := left
        rw [matchOnce, last, single]
        rfl
      rw [scan_of_token step]
      exact ⟨rfl, rfl, rfl⟩
  | succ count hyp =>
      rw [commentLines_succ] at left
      rw [scan_of_skip (matchOnce_comment left)]
      apply hyp
      rw [readComment_cons rfl, if_neg (by decide), if_pos rfl]
      rfl


/-- The token after `count` lines of comments. -/
theorem reads_commentLines (count : Nat) :
    ∃ s, Reads "proof.plf" (commentLines count ++ [byte 'a']) s (some .Ident) ∧
      s.yytext = [byte 'a'] ∧ s.rest = [] := by
  let opened := fresh.openFile "proof.plf" (commentLines count ++ [byte 'a'])
  obtain ⟨token, yytext, rest⟩ := scan_commentLines count (s := opened.bumpSpan) rfl
  have reads : Reads "proof.plf" _ opened.nextToken.2 (some opened.yylex.1) :=
    .scanned (.opened fresh) rfl
  have same : opened.yylex.1 = .Ident := token
  rw [same] at reads
  exact ⟨_, reads, yytext, rest⟩

theorem nonzero_commentLines (count : Nat) : 0 ∉ commentLines count ++ [byte 'a'] := by
  intro mem
  rcases List.mem_append.mp mem with inside | last
  · obtain ⟨line, repeated, inside⟩ := List.mem_flatten.mp inside
    rw [List.eq_of_mem_replicate repeated] at inside
    exact absurd inside (by decide)
  · exact absurd last (by decide)

/-- After two lines of comments, with the identifier on the third one pushed back. -/
theorem span_covers_token_pushed_back : ∃ s,
    Reads "proof.plf" (commentLines 2 ++ [byte 'a']) s (some .Ident) ∧
    ∃ before, commentLines 2 ++ [byte 'a'] = before ++ s.yytext ++ s.rest ∧
      Chosen rules (s.yytext ++ s.rest) s.yytext.length (.token .Ident) ∧
      s.span = ⟨(locate before).stored, (locate (before ++ s.yytext)).stored⟩ ∧
      ("proof.plf" ≠ "" → ∀ message, ∃ others, s.reportError message =
        "Error: " ++ "proof.plf" ++ " at " ++ toString (locate before).stored.line ++ ":" ++
          others) := by
  obtain ⟨s, reads, -, -⟩ := reads_commentLines 2
  have pushed := reads.reinserted .Ident
  exact ⟨_, pushed, span_covers_token (nonzero_commentLines 2) pushed (by decide)⟩

/-- On the line of number 2³² the line is reported as zero. -/
theorem line_wraps : ¬ ∀ (filename : String) (text : List UInt8) (s : Scanner) (token : Token),
    0 ∉ text → Reads filename text s (some token) → token ≠ .Eof →
      ∃ before, text = before ++ s.yytext ++ s.rest ∧ s.span.start.Shows (locate before) ∧
        s.span.stop.Shows (locate (before ++ s.yytext)) := by
  intro all
  obtain ⟨s, reads, yytext, rest⟩ := reads_commentLines (2 ^ 32 - 1)
  obtain ⟨before, split, start, -⟩ :=
    all "proof.plf" _ s .Ident (nonzero_commentLines (2 ^ 32 - 1)) reads (by decide)
  rw [yytext, rest, List.append_nil] at split
  have same : before = commentLines (2 ^ 32 - 1) := (List.append_cancel_right split).symm
  have line := start.1
  rw [same, line_commentLines] at line
  have bound := s.span.start.line.toNat_lt
  omega

end Scanner

end Lfsc
