import Lfsc.Lookahead.Consumption
import Lfsc.Lookahead.Reading

/-!
# The tokens of code

Where `read_code` returns, the tokens that it consumed are expressions.
-/

namespace Lfsc

namespace Lookahead

open Exec Traced Brackets

variable {place : Place} {tokens : List Token} {count : Int} {token : Token}

theorem does_readCtor (short : place ≠ .ahead) :
    Does (Inside place tokens count) readCtor fun _ => Inside .free tokens count := by
  rw [readCtor]
  apply does_name short
  intro id _
  apply establishes_ite
  · intro _
    exact does_return fun _ _ inside => inside
  · intro _
    apply establishes_bind (does_steady (by simp))
    intro pair
    apply establishes_ite
    · intro _
      exact does_report_bind _
    · intro _
      apply establishes_bind (does_deref _)
      intro symbol
      apply establishes_bind (does_store _)
      intro node
      cases node with
      | sym name val =>
          cases val with
          | none => exact does_return fun _ _ inside => inside
          | some val => exact does_report _
      | _ => exact does_report _

/-- The names that pattern variables had before are no parentheses. -/
theorem does_readPatternVars (fuel : Nat) (pat : Ref) (prevs : List (String × Binding))
    (clear : ∀ entry ∈ prevs, ¬ IsParenText entry.1) :
    Does (Inside .free (tokens ++ [.Open]) count) (readPatternVars fuel pat prevs)
      fun read tally checker => (∀ entry ∈ read.2, ¬ IsParenText entry.1) ∧
        Inside .free tokens count tally checker := by
  induction fuel generalizing pat prevs with
  | zero => exact does_outOfFuel
  | succ fuel hyp =>
      rw [readPatternVars]
      apply establishes_bind (does_next (by simp))
      intro token
      apply establishes_ite
      · rintro rfl
        exact does_return fun _ _ past => ⟨clear, past.closed⟩
      · intro _
        apply establishes_bind does_reinsert
        intro _
        apply does_name (by simp)
        intro name named
        apply establishes_ite
        · intro _
          exact does_report_bind _
        · intro _
          apply establishes_bind (does_store _)
          intro var
          apply establishes_bind (does_insert named _)
          intro prev
          apply establishes_bind (does_store _)
          intro extended
          apply hyp
          intro entry mem
          rcases List.mem_append.mp mem with old | new
          · exact clear entry old
          · obtain rfl := List.mem_singleton.mp new
            exact named

theorem does_readPattern (fuel : Nat) :
    Does (Inside .free tokens count) (readPattern fuel)
      fun read tally checker => (∀ entry ∈ read.2, ¬ IsParenText entry.1) ∧
        Inside .free tokens count tally checker := by
  rw [readPattern]
  apply establishes_bind (does_next (by simp))
  intro token
  cases token with
  | Open =>
      refine Establishes.weaken (does_group_fact fun tokens => ?_) fun _ _ past => past.opened
      apply establishes_bind (does_readCtor (by simp))
      intro ctor
      cases ctor with
      | none => exact does_report _
      | some ctor =>
          apply establishes_bind (does_readPatternVars fuel ctor [] (by simp))
          intro read
          exact does_return fun _ _ holds => holds
  | Eof => exact does_report _
  | _ =>
      apply establishes_bind does_reinsert
      intro _
      apply establishes_bind (does_readCtor (by simp))
      intro ctor
      exact does_return fun _ _ inside => ⟨by simp, inside⟩

section ReadCode

variable {code : CallsM (Option Ref)}
  (reads : ∀ tokens, Does (Inside .single tokens count) code fun _ => Inside .free tokens count)
include reads

theorem does_readCase (fuel : Nat) :
    Does (Inside .single tokens count) (readCase fuel code) fun _ => Inside .free tokens count := by
  rw [readCase]
  apply establishes_bind (does_eatOpen (by simp))
  intro _
  apply does_group
  intro tokens
  apply establishes_bind (does_readPattern fuel)
  intro read
  apply establishes_fact
  intro clear
  apply establishes_bind (does_short (reads _) (by simp))
  intro body
  apply establishes_bind (does_store _)
  intro result
  apply establishes_bind (does_steady (keeps_steady_restoreBindings clear))
  intro _
  apply establishes_bind (does_eatClose (by simp))
  intro _
  exact does_return fun _ _ inside => inside

theorem does_readDo (fuel : Nat) (acc : Option Ref) :
    Does (Inside .free (tokens ++ [.Open]) count) (readDo code fuel acc)
      fun _ => Inside .free tokens count := by
  induction fuel generalizing acc with
  | zero => exact does_outOfFuel
  | succ fuel hyp =>
      rw [readDo]
      apply establishes_bind (does_next (by simp))
      intro token
      apply establishes_ite
      · rintro rfl
        exact does_return fun _ _ past => past.closed
      · intro _
        apply establishes_bind does_reinsert
        intro _
        apply establishes_bind (reads _)
        intro next
        apply establishes_bind (does_store _)
        intro extended
        exact hyp _

theorem does_readCases (fuel rounds : Nat) (cases : List (Option Ref)) :
    Does (Inside .free (tokens ++ [.Open]) count) (readCases fuel code rounds cases)
      fun _ => Inside .free tokens count := by
  induction rounds generalizing cases with
  | zero => exact does_outOfFuel
  | succ rounds hyp =>
      rw [readCases]
      apply establishes_bind (does_next (by simp))
      intro token
      apply establishes_ite
      · rintro rfl
        exact does_return fun _ _ past => past.closed
      · intro _
        apply establishes_bind does_reinsert
        intro _
        apply establishes_bind (does_readCase reads fuel)
        intro case
        exact hyp _

theorem does_readArgs (fuel : Nat) (acc : Ref) :
    Does (Inside .free (tokens ++ [.Open]) count) (readArgs code fuel acc)
      fun _ => Inside .free tokens count := by
  induction fuel generalizing acc with
  | zero => exact does_outOfFuel
  | succ fuel hyp =>
      rw [readArgs]
      apply establishes_bind (does_next (by simp))
      intro token
      apply establishes_ite
      · rintro rfl
        exact does_return fun _ _ past => past.closed
      · intro _
        apply establishes_bind does_reinsert
        intro _
        apply establishes_bind (reads _)
        intro arg
        apply establishes_bind (does_store _)
        intro extended
        exact hyp _

theorem does_readFixed (op : Op) (arity : Nat) :
    Does (Inside .free (tokens ++ [.Open]) count) (readFixed code op arity)
      fun _ => Inside .free tokens count := by
  rw [readFixed]
  apply establishes_bind (establishes_mapM (fun _ => does_short (reads _) (by simp)) _)
  intro kids
  apply establishes_bind (does_store _)
  intro result
  apply establishes_bind (does_eatClose (by simp))
  intro _
  exact does_return fun _ _ inside => inside

theorem does_readTilde :
    Does (Inside .free (tokens ++ [.Open]) count) (readTilde code)
      fun _ => Inside .free tokens count := by
  rw [readTilde]
  apply establishes_bind (does_short (reads _) (by simp))
  intro read
  apply establishes_bind (does_deref read)
  intro e
  apply establishes_bind (does_store _)
  intro node
  cases node with
  | int value =>
      apply establishes_bind (does_store _)
      intro _
      apply establishes_bind (does_eatClose (by simp))
      intro _
      exact does_return fun _ _ inside => inside
  | rat value =>
      apply establishes_bind (does_store _)
      intro _
      apply establishes_bind (does_eatClose (by simp))
      intro _
      exact does_return fun _ _ inside => inside
  | _ => exact does_report _

theorem does_readLet :
    Does (Inside .free (tokens ++ [.Open]) count) (readLet code)
      fun _ => Inside .free tokens count := by
  rw [readLet]
  apply does_name (by simp)
  intro id named
  apply establishes_bind (does_store _)
  intro var
  apply establishes_bind (does_short (reads _) (by simp))
  intro value
  apply establishes_bind (does_withBinding named _ (does_short (reads _) (by simp)))
  intro body
  apply establishes_bind (does_eatClose (by simp))
  intro _
  apply establishes_bind (does_store _)
  intro result
  exact does_return fun _ _ inside => inside

theorem does_readMatch (fuel : Nat) :
    Does (Inside .free (tokens ++ [.Open]) count) (readMatch fuel code)
      fun _ => Inside .free tokens count := by
  rw [readMatch]
  apply establishes_bind (does_short (reads _) (by simp))
  intro scrutinee
  apply establishes_bind (does_readCases reads fuel fuel [scrutinee])
  intro cases
  apply establishes_ite
  · intro _
    exact does_report_bind _
  · intro _
    apply establishes_bind (does_store _)
    intro result
    exact does_return fun _ _ inside => inside

theorem does_readIfMarked (clear : ¬ IsParen token) :
    Does (Past token (tokens ++ [.Open]) count) (readIfMarked code)
      fun _ => Inside .free tokens count := by
  rw [readIfMarked]
  apply establishes_bind (does_tokenStr fun _ _ past => past.fits)
  intro text
  apply establishes_fact
  intro _
  apply does_keyword clear
  apply establishes_bind (establishes_mapM (fun _ => does_short (reads _) (by simp)) _)
  intro kids
  apply establishes_ite
  · intro _
    apply establishes_bind (does_store _)
    intro mark
    apply establishes_bind (does_store _)
    intro node
    apply establishes_bind (does_pure _)
    intro result
    apply establishes_bind (does_eatClose (by simp))
    intro _
    exact does_return fun _ _ inside => inside
  · intro _
    apply establishes_bind (does_pure _)
    intro result
    apply establishes_bind (does_eatClose (by simp))
    intro _
    exact does_return fun _ _ inside => inside

theorem does_readMarkVar (clear : ¬ IsParen token) :
    Does (Past token (tokens ++ [.Open]) count) (readMarkVar code)
      fun _ => Inside .free tokens count := by
  rw [readMarkVar]
  apply establishes_bind (does_tokenStr fun _ _ past => past.fits)
  intro text
  apply establishes_fact
  intro _
  apply does_keyword clear
  apply establishes_ite
  · intro _
    apply establishes_bind (does_store _)
    intro mark
    apply establishes_bind (does_short (reads _) (by simp))
    intro marked
    apply establishes_bind (does_store _)
    intro node
    apply establishes_bind (does_pure _)
    intro result
    apply establishes_bind (does_eatClose (by simp))
    intro _
    exact does_return fun _ _ inside => inside
  · intro _
    apply establishes_bind (does_pure _)
    intro result
    apply establishes_bind (does_eatClose (by simp))
    intro _
    exact does_return fun _ _ inside => inside

/-- The arguments of an application, whose head is bound and hence no parenthesis. -/
theorem does_readHead {head : Option Ref} (fuel : Nat) (unbound : IsParen token → head = none) :
    Does (Past token (tokens ++ [.Open]) count)
      (match head with
        | none => report "Undeclared identifier at head of an application: "
        | some head => do return some (← readArgs code fuel head))
      fun _ => Inside .free tokens count := by
  cases head with
  | none => exact does_report _
  | some head =>
      apply does_keyword fun paren => by simpa using unbound paren
      apply establishes_bind (does_readArgs reads fuel head)
      intro result
      exact does_return fun _ _ inside => inside

theorem does_readApp (fuel : Nat) :
    Does (Past token (tokens ++ [.Open]) count) (readApp fuel code)
      fun _ => Inside .free tokens count := by
  rw [readApp]
  apply establishes_bind (does_tokenStr fun _ _ past => past.fits)
  intro pref
  apply establishes_fact
  intro fits
  apply establishes_bind (does_progsIndex fun _ _ past => past.bound)
  intro prog
  apply establishes_fact
  intro unbound
  cases prog with
  | some prog =>
      apply establishes_bind (does_value _)
      intro head
      apply establishes_fact
      rintro rfl
      exact does_readHead reads fuel (unbound ∘ fits.mp)
  | none =>
      apply establishes_bind (does_symbolsGet fun _ _ past => past.bound)
      intro pair
      apply establishes_fact
      intro unbound
      apply establishes_bind (does_value _)
      intro head
      apply establishes_fact
      rintro rfl
      exact does_readHead reads fuel (unbound ∘ fits.mp)

end ReadCode

/-- A token that is looked up, and is no parenthesis where it is found. -/
theorem does_readIdent :
    Does (Past token tokens count)
      (do
        let id ← tokenStr
        match (← symbolsGet id).expr with
        | some symbol => return some symbol
        | none =>
            match ← progsIndex id with
            | some prog => return some prog
            | none => report "Undeclared identifier: ")
      fun _ => Inside .free tokens count := by
  apply establishes_bind (does_tokenStr fun _ _ past => past.fits)
  intro id
  apply establishes_fact
  intro fits
  apply establishes_bind (does_symbolsGet fun _ _ past => past.bound)
  intro pair
  apply establishes_fact
  intro unbound
  cases symbol : pair.expr with
  | some symbol =>
      apply does_keyword fun paren => by simp [unbound (fits.mp paren)] at symbol
      exact does_return fun _ _ inside => inside
  | none =>
      apply establishes_bind (does_progsIndex fun _ _ past => past.bound)
      intro prog
      apply establishes_fact
      intro unbound
      cases prog with
      | some prog =>
          apply does_keyword fun paren => by simpa using unbound (fits.mp paren)
          exact does_return fun _ _ inside => inside
      | none => exact does_report _

theorem does_readCode (fuel : Nat) (tokens : List Token) :
    Does (Inside .single tokens count) (readCode fuel) fun _ => Inside .free tokens count := by
  induction fuel generalizing tokens with
  | zero => exact does_outOfFuel
  | succ fuel hyp =>
      rw [readCode]
      apply establishes_bind (does_next (by simp))
      intro token
      cases token with
      | Open =>
          refine Establishes.weaken (does_group fun tokens => ?_) fun _ _ past => past.opened
          apply establishes_bind (does_next (by simp))
          intro next
          cases next with
          | Do =>
              apply does_keyword (by simp [IsParen])
              apply establishes_bind (does_short (hyp _) (by simp))
              intro first
              exact does_readDo hyp fuel first
          | Fail => exact does_keyword (by simp [IsParen]) (does_readFixed hyp .fail 1)
          | At => exact does_keyword (by simp [IsParen]) (does_readLet hyp)
          | IfMarked => exact does_readIfMarked hyp (by simp [IsParen])
          | IfEqual => exact does_keyword (by simp [IsParen]) (does_readFixed hyp .ifequal 4)
          | Match => exact does_keyword (by simp [IsParen]) (does_readMatch hyp fuel)
          | MarkVar => exact does_readMarkVar hyp (by simp [IsParen])
          | MpAdd => exact does_keyword (by simp [IsParen]) (does_readFixed hyp .add 2)
          | MpMul => exact does_keyword (by simp [IsParen]) (does_readFixed hyp .mul 2)
          | MpDiv => exact does_keyword (by simp [IsParen]) (does_readFixed hyp .div 2)
          | MpNeg => exact does_keyword (by simp [IsParen]) (does_readFixed hyp .neg 1)
          | MpzToMpq => exact does_keyword (by simp [IsParen]) (does_readFixed hyp .mpzToMpq 1)
          | MpIfNeg => exact does_keyword (by simp [IsParen]) (does_readFixed hyp .ifneg 3)
          | MpIfZero => exact does_keyword (by simp [IsParen]) (does_readFixed hyp .ifzero 3)
          | Tilde => exact does_keyword (by simp [IsParen]) (does_readTilde hyp)
          | Compare => exact does_keyword (by simp [IsParen]) (does_readFixed hyp .compare 4)
          | Eof => exact does_report _
          | _ => exact does_readApp hyp fuel
      | Natural =>
          apply establishes_bind (does_tokenStr fun _ _ past => past.fits)
          intro text
          apply establishes_fact
          intro _
          apply does_keyword (by simp [IsParen])
          cases naturalValue text with
          | none => exact does_report _
          | some value =>
              apply establishes_bind (does_store _)
              intro result
              exact does_return fun _ _ inside => inside
      | Rational =>
          apply establishes_bind (does_tokenStr fun _ _ past => past.fits)
          intro text
          apply establishes_fact
          intro _
          apply does_keyword (by simp [IsParen])
          cases rationalValue text with
          | none => exact does_report _
          | some value =>
              apply establishes_bind (does_store _)
              intro result
              exact does_return fun _ _ inside => inside
      | Eof => exact does_report _
      | _ => exact does_readIdent

end Lookahead

end Lfsc
