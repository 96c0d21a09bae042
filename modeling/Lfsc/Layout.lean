import Lfsc.ScannedTokens
import Lfsc.SourcePosition

/-!
# Layout

The tokens of a file are those of its words, where a word is followed by nothing that makes it
longer and any blanks, newlines and comments stand between words.  A file written with a space after
each word is read back as it was meant.
-/

namespace Lfsc

open Munch (Chosen Regex choose choose_eq_some_iff)

/-! ## Words and layout -/

/-- The bytes of `ws` and `nl`. -/
def blanks : List UInt8 := " \t\x0c\n".toList.map byte

/-- A comment is read up to a newline or a zero byte. -/
def EndsComment (c : UInt8) : Prop := c = 0 ∨ c = byte '\n'

/-- A text within a comment. -/
def OneLine (line : List UInt8) : Prop := ∀ c ∈ line, ¬ EndsComment c

/-- A file with its words: a word is the longest one of any rule, and the rule for it is the earliest
one. -/
inductive Lexed : List UInt8 → List Lexeme → Prop
  | nil : Lexed [] []
  | blank {c : UInt8} {rest : List UInt8} {ls : List Lexeme} : c ∈ blanks → Lexed rest ls →
      Lexed (c :: rest) ls
  | comment {line rest : List UInt8} {c : UInt8} {ls : List Lexeme} : OneLine line →
      EndsComment c → Lexed rest ls → Lexed (byte ';' :: (line ++ c :: rest)) ls
  | lastComment {line : List UInt8} : OneLine line → Lexed (byte ';' :: line) []
  | word {word rest : List UInt8} {token : Token} {ls : List Lexeme} :
      Chosen rules (word ++ rest) word.length (.token token) → Lexed rest ls →
      Lexed (word ++ rest) (⟨token, printed word⟩ :: ls)

theorem Lexed.blanks {text rest : List UInt8} {ls : List Lexeme} (all : ∀ c ∈ text, c ∈ Lfsc.blanks)
    (lexed : Lexed rest ls) : Lexed (text ++ rest) ls := by
  induction text with
  | nil => exact lexed
  | cons c text hyp =>
      obtain ⟨first, others⟩ := List.forall_mem_cons.mp all
      exact .blank first (hyp others)

/-! ## Rules -/

/-- No word of a token has a blank or a newline. -/
theorem token_avoids {rule : Regex UInt8 × RuleAction} (mem : rule ∈ rules) {token : Token}
    (returns : rule.2 = .token token) {c : UInt8} (blank : c ∈ blanks) : rule.1.avoids c = true := by
  have all : rules.all (fun rule =>
      match rule.2 with
      | .token _ => blanks.all rule.1.avoids
      | _ => true) = true := by
    decide +kernel
  have holds := List.all_eq_true.mp all rule mem
  rw [returns] at holds
  exact List.all_eq_true.mp holds c blank

theorem layout_blank {rule : Regex UInt8 × RuleAction} (mem : rule ∈ rules)
    (layout : rule.2 = .blanks ∨ rule.2 = .newlines) {text : List UInt8}
    (matching : rule.1.Matches text) : ∀ c ∈ text, c ∈ blanks := by
  intro c inside
  rcases layout with spaces | lines
  · obtain rfl := Scanner.rule_eq (ws, .blanks) mem rfl spaces
    have allowed := (Regex.matches_plus_one.mp matching).2 c inside
    have spaces : c ∈ " \t\x0c".toList.map byte := by simpa using allowed
    exact List.mem_of_mem_take (i := 3) spaces
  · obtain rfl := Scanner.rule_eq (nl, .newlines) mem rfl lines
    have allowed := (Regex.matches_plus_one.mp matching).2 c inside
    have newline : c ∈ "\n".toList.map byte := by simpa using allowed
    exact List.mem_of_mem_drop (i := 3) newline

/-! ## Scanning words and layout -/

theorem lexemes_skip {s after : Scanner} (step : s.matchOnce = (none, after)) :
    lexemes s.rest = lexemes after.rest := by
  rw [lexemes_scan s, Scanner.scan_of_skip step, ← lexemes_scan after]

theorem lexemes_word {word rest : List UInt8} {token : Token}
    (chosen : Chosen rules (word ++ rest) word.length (.token token)) :
    lexemes (word ++ rest) = ⟨token, printed word⟩ :: lexemes rest := by
  let s : Scanner := { Scanner.fresh with rest := word ++ rest }
  have step : s.matchOnce =
      (some token, ({ s with rest, yytext := word }.addColumns (.ofNat word.length))) := by
    rw [Scanner.matchOnce, choose_eq_some_iff.mpr chosen]
    simp only [s, List.drop_left, List.take_left]
    rfl
  obtain ⟨r, mem, -⟩ := chosen.mem
  have proper : token ≠ .Eof := (Scanner.token_rule mem rfl).2
  have scanned := lexemes_scan s
  rw [Scanner.scan_of_token step, if_neg proper] at scanned
  exact scanned

/-- A match at a blank reads blanks only. -/
theorem matchOnce_blank {s : Scanner} {c : UInt8} {rest : List UInt8} (starts : s.rest = c :: rest)
    (blank : c ∈ blanks) : ∃ text left, s.rest = text ++ left ∧ text ≠ [] ∧
      (∀ c ∈ text, c ∈ blanks) ∧ s.matchOnce.1 = none ∧ s.matchOnce.2.rest = left := by
  rcases s.matchOnce_cases with ⟨ended, -⟩ | ⟨text, left, action, split, matched, chosen, performed⟩
  · rw [ended] at starts
    cases starts
  · obtain ⟨r, mem, matching⟩ := chosen.mem
    rw [split, List.take_left] at matching
    have first : c ∈ text := by
      cases text with
      | nil => exact (matched.nonempty rfl).elim
      | cons c' others =>
          obtain ⟨rfl, -⟩ := List.cons.inj (starts.symm.trans split)
          exact List.mem_cons_self
    have all : action = .blanks ∨ action = .newlines → ∀ c ∈ text, c ∈ blanks :=
      fun layout => layout_blank mem layout matching
    rw [performed]
    cases action with
    | token token =>
        have avoided := token_avoids mem rfl blank
        exact (Regex.not_mem_of_matches matching avoided first).elim
    | blanks => exact ⟨text, left, split, matched.nonempty, all (.inl rfl), rfl, rfl⟩
    | newlines => exact ⟨text, left, split, matched.nonempty, all (.inr rfl), rfl, rfl⟩
    | comment =>
        rw [matched.comment rfl, List.mem_singleton] at first
        rw [first] at blank
        exact absurd blank (by decide)
    | echo => exact (matched.echo rfl).elim

theorem lexemes_dropWhile (text : List UInt8) :
    lexemes text = lexemes (text.dropWhile (· ∈ blanks)) := by
  induction bound : text.length using Nat.strong_induction_on generalizing text with
  | _ length hyp =>
      cases text with
      | nil => rfl
      | cons c rest =>
          by_cases blank : c ∈ blanks
          · let s : Scanner := { Scanner.fresh with rest := c :: rest }
            obtain ⟨read, left, split, nonempty, all, skipped, remains⟩ :=
              matchOnce_blank (s := s) rfl blank
            have whole : c :: rest = read ++ left := split
            have shorter : left.length < length := by
              have := List.length_pos_of_ne_nil nonempty
              rw [← bound, whole, List.length_append]
              omega
            have next : lexemes (c :: rest) = lexemes left := by
              rw [← remains]
              exact lexemes_skip (s := s) (Prod.ext skipped rfl)
            rw [next, hyp _ shorter left rfl, whole, List.dropWhile_append_of_pos]
            simpa using all
          · rw [List.dropWhile_cons_of_neg (by simpa using blank)]

theorem lexemes_blank {c : UInt8} (rest : List UInt8) (blank : c ∈ blanks) :
    lexemes (c :: rest) = lexemes rest := by
  rw [lexemes_dropWhile, List.dropWhile_cons_of_pos (by simpa using blank), ← lexemes_dropWhile]

theorem readComment_ends {s : Scanner} {line rest : List UInt8} {c : UInt8} (oneLine : OneLine line)
    (ends : EndsComment c) (left : s.rest = line ++ c :: rest) : s.readComment.rest = rest := by
  induction line generalizing s with
  | nil =>
      rw [Scanner.readComment_cons left]
      rcases ends with rfl | rfl
      · rfl
      · rfl
  | cons c' line hyp =>
      obtain ⟨inside, others⟩ := List.forall_mem_cons.mp oneLine
      obtain ⟨visible, sameLine⟩ := not_or.mp inside
      rw [Scanner.readComment_cons left, if_neg visible, if_neg sameLine]
      exact hyp others rfl

theorem readComment_last {s : Scanner} {line : List UInt8} (oneLine : OneLine line)
    (left : s.rest = line) : s.readComment.rest = [] := by
  induction line generalizing s with
  | nil => rw [Scanner.readComment_nil left, left]
  | cons c line hyp =>
      obtain ⟨inside, others⟩ := List.forall_mem_cons.mp oneLine
      obtain ⟨visible, sameLine⟩ := not_or.mp inside
      rw [Scanner.readComment_cons left, if_neg visible, if_neg sameLine]
      exact hyp others rfl

/-- A comment skips what `readComment` reads. -/
theorem lexemes_comment {text left : List UInt8}
    (reads : ∀ s : Scanner, s.rest = text → s.readComment.rest = left) :
    lexemes (byte ';' :: text) = lexemes left := by
  let s : Scanner := { Scanner.fresh with rest := byte ';' :: text }
  have step := Scanner.matchOnce_comment (s := s) rfl
  rw [← reads (Scanner.addColumns 1 { s with rest := text, yytext := [byte ';'] }) rfl]
  exact lexemes_skip step

/-- A text has an end of a comment or none. -/
theorem oneLine_or_ends (text : List UInt8) :
    OneLine text ∨ ∃ line c rest, text = line ++ c :: rest ∧ OneLine line ∧ EndsComment c := by
  induction text with
  | nil => exact .inl (by simp [OneLine])
  | cons c text hyp =>
      by_cases ends : EndsComment c
      · exact .inr ⟨[], c, text, rfl, by simp [OneLine], ends⟩
      · rcases hyp with oneLine | ⟨line, c', rest, rfl, oneLine, ends'⟩
        · exact .inl (List.forall_mem_cons.mpr ⟨ends, oneLine⟩)
        · exact .inr ⟨c :: line, c', rest, rfl, List.forall_mem_cons.mpr ⟨ends, oneLine⟩, ends'⟩

theorem lexemes_of_lexed {text : List UInt8} {ls : List Lexeme} (lexed : Lexed text ls) :
    lexemes text = ls := by
  induction lexed with
  | nil => exact lexemes_nil
  | blank blank _ hyp => rw [lexemes_blank _ blank, hyp]
  | comment oneLine ends _ hyp =>
      rw [lexemes_comment fun s left => readComment_ends oneLine ends left, hyp]
  | lastComment oneLine =>
      rw [lexemes_comment fun s left => readComment_last oneLine left, lexemes_nil]
  | word chosen _ hyp => rw [lexemes_word chosen, hyp]

/-- Every text consists of words and layout. -/
theorem exists_lexed (text : List UInt8) : ∃ ls, Lexed text ls := by
  induction bound : text.length using Nat.strong_induction_on generalizing text with
  | _ length hyp =>
      let s : Scanner := { Scanner.fresh with rest := text }
      rcases s.matchOnce_cases with ⟨ended, -⟩ | ⟨read, left, action, split, matched, chosen, -⟩
      · obtain rfl : text = [] := ended
        exact ⟨[], .nil⟩
      · obtain rfl : text = read ++ left := split
        have nonempty := List.length_pos_of_ne_nil matched.nonempty
        rw [List.length_append] at bound
        obtain ⟨ls, lexed⟩ := hyp left.length (by omega) left rfl
        obtain ⟨r, mem, matching⟩ := chosen.mem
        have found : r.Matches read := by simpa only [s, List.take_left] using matching
        cases action with
        | token token => exact ⟨_, .word chosen lexed⟩
        | blanks => exact ⟨ls, lexed.blanks (layout_blank mem (.inl rfl) found)⟩
        | newlines => exact ⟨ls, lexed.blanks (layout_blank mem (.inr rfl) found)⟩
        | echo => exact (matched.echo rfl).elim
        | comment =>
            rw [matched.comment rfl] at bound ⊢
            rcases oneLine_or_ends left with oneLine | ⟨line, c, rest, rfl, oneLine, ends⟩
            · exact ⟨[], .lastComment oneLine⟩
            · simp only [List.length_append, List.length_cons] at bound
              obtain ⟨others, lexedRest⟩ := hyp rest.length (by omega) rest rfl
              exact ⟨others, .comment oneLine ends lexedRest⟩

/-- A word that is a token by itself. -/
def Spells (word : List UInt8) (token : Token) : Prop :=
  choose rules word = some (word.length, .token token)

instance (word : List UInt8) (token : Token) : Decidable (Spells word token) :=
  inferInstanceAs (Decidable (choose rules word = some (word.length, .token token)))

/-- A token with the text of a word for it. -/
def Lexeme.Spelled (l : Lexeme) : Prop := ∃ word, Spells word l.token ∧ printed word = l.text

/-- The bytes that no longer word goes across. -/
def separators : List UInt8 := "() \t\x0c\n;".toList.map byte

/-- The bytes of a text that was printed. -/
def bytesOf (text : String) : List UInt8 := text.toList.map byte

/-- A file with a space after each of its words. -/
def spaced (ls : List Lexeme) : List UInt8 := ls.flatMap fun l => bytesOf l.text ++ [byte ' ']

theorem rule_separators {rule : Regex UInt8 × RuleAction} (mem : rule ∈ rules) :
    (∀ c ∈ separators, rule.1.avoids c = true) ∨ (rule.2 = .blanks ∨ rule.2 = .newlines) ∨
      rule.1.longestWord = some 1 := by
  have all : rules.all (fun rule => separators.all rule.1.avoids ||
      (decide (rule.2 = .blanks ∨ rule.2 = .newlines) ||
        decide (rule.1.longestWord = some 1))) = true := by
    decide +kernel
  simpa using List.all_eq_true.mp all rule mem

theorem Spells.chosen {word : List UInt8} {token : Token} (spells : Spells word token) :
    Chosen rules word word.length (.token token) :=
  choose_eq_some_iff.mp spells

theorem Spells.nonempty {word : List UInt8} {token : Token} (spells : Spells word token) :
    word ≠ [] := by
  rintro rfl
  rw [Spells, Scanner.choose_rules_nil] at spells
  cases spells

theorem Spells.not_blank {word : List UInt8} {token : Token} (spells : Spells word token) {c : UInt8}
    (inside : c ∈ word) : c ∉ blanks := by
  intro blank
  obtain ⟨r, mem, matching⟩ := spells.chosen.mem
  rw [List.take_length] at matching
  exact Regex.not_mem_of_matches matching (token_avoids mem rfl blank) inside

/-- A word ends where the next byte is a separator, or is one itself. -/
theorem Spells.ends {word rest : List UInt8} {token : Token} (spells : Spells word token)
    (separated : ∀ c ∈ rest.head?, ∃ c' ∈ word ++ [c], c' ∈ separators) :
    Chosen rules (word ++ rest) word.length (.token token) := by
  refine spells.chosen.extend fun rule mem c more follows matching => ?_
  obtain ⟨rest, rfl⟩ := follows
  obtain ⟨c', among, separator⟩ := separated c rfl
  have inside : c' ∈ word ++ c :: more := by
    rw [List.append_cons]
    exact List.mem_append_left _ among
  have nonempty := List.length_pos_of_ne_nil spells.nonempty
  rcases rule_separators mem with avoided | layout | short
  · exact Regex.not_mem_of_matches matching (avoided c' separator) inside
  · have first := List.head_mem spells.nonempty
    exact spells.not_blank first (layout_blank mem layout matching _ (List.mem_append_left _ first))
  · have length := Regex.length_le_longestWord matching short
    rw [List.length_append, List.length_cons] at length
    omega

theorem byte_ofNat (c : UInt8) : byte (.ofNat c.toNat) = c := by
  have valid : c.toNat.isValidChar := .inl (Nat.lt_trans c.toNat_lt (by decide))
  apply UInt8.toNat_inj.mp
  rw [byte, Char.ofNat, dif_pos valid]
  calc (Char.toUInt8 (Char.ofNatAux c.toNat valid)).toNat
    _ = c.toNat % 2 ^ 8 := UInt32.toNat_toUInt8 _
    _ = c.toNat := Nat.mod_eq_of_lt c.toNat_lt

theorem bytesOf_printed (word : List UInt8) : bytesOf (printed word) = word := by
  simp [bytesOf, printed, Function.comp_def, byte_ofNat]

theorem Lexed.spelled {text : List UInt8} {ls : List Lexeme} (lexed : Lexed text ls) :
    ∀ l ∈ ls, l.Spelled := by
  induction lexed with
  | nil => simp
  | blank _ _ hyp => exact hyp
  | comment _ _ _ hyp => exact hyp
  | lastComment => simp
  | word chosen _ hyp =>
      exact List.forall_mem_cons.mpr ⟨⟨_, choose_eq_some_iff.mpr chosen.restrict, rfl⟩, hyp⟩

theorem lexed_spaced {ls : List Lexeme} (spelled : ∀ l ∈ ls, l.Spelled) : Lexed (spaced ls) ls := by
  induction ls with
  | nil => exact .nil
  | cons l ls hyp =>
      obtain ⟨⟨word, spells, same⟩, others⟩ := List.forall_mem_cons.mp spelled
      have split : spaced (l :: ls) = word ++ (byte ' ' :: spaced ls) := by
        rw [spaced, List.flatMap_cons, ← same, bytesOf_printed, List.append_assoc]
        rfl
      have separated : ∀ c ∈ (byte ' ' :: spaced ls).head?, ∃ c' ∈ word ++ [c], c' ∈ separators := by
        rintro c ⟨⟩
        exact ⟨byte ' ', by simp, by decide⟩
      have lexed := Lexed.word (spells.ends separated) (.blank (by decide) (hyp others))
      rw [split]
      rwa [same] at lexed

end Lfsc
