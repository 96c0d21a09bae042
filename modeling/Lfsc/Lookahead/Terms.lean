import Lfsc.Lookahead.Checking
import Lfsc.Lookahead.CodeTerms

/-!
# The tokens of terms

Where `check` returns, the tokens that it consumed are a term that lacks as many closing parentheses
as it left open.  A term that ends in a tail call lacks its own one, too.
-/

namespace Lfsc

namespace Lookahead

open Exec Traced Brackets

variable {α : Type} {place : Place} {tokens : List Token} {count : Int} {create : Bool}
  {token : Token}
  {holds : Tally → Checker → Prop}

/-! ## Counting -/

/-- A computation without calls that returns what satisfies a condition. -/
theorem does_ensures {m : CheckerM α} {post : α → Prop} [Stable holds]
    (ensured : Ensures Steady post m) :
    Does holds (silent m) fun value tally checker => post value ∧ holds tally checker := by
  apply establishes_silent
  intro tally before value after start run
  obtain ⟨steady, known⟩ := ensured before value after run
  exact ⟨known, Stable.steady start steady⟩

theorem Inside.opened {tally : Tally} {checker : Checker}
    (inside : Inside place tokens count tally checker) : checker.openParens = count := by
  obtain ⟨word, exprs, stood⟩ := inside
  exact stood.stood.opened

theorem does_getOpenParens
    (opened : ∀ tally checker, holds tally checker → checker.openParens = count) :
    Does holds (liftM getOpenParens : CallsM Int) fun prevo tally checker =>
      prevo = count ∧ holds tally checker := by
  apply establishes_silent
  intro tally before prevo after start run
  obtain ⟨rfl, rfl⟩ : before.openParens = prevo ∧ before = after := by
    simpa [getOpenParens, run_bind_ok] using run
  exact ⟨opened tally before start, start⟩

/-- Changing the number of open parentheses. -/
theorem does_addOpenParens (change : Int) :
    Does (At place tokens count) (liftM (addOpenParens change) : CallsM Unit)
      fun _ => At place tokens (count + change) := by
  apply establishes_silent
  rintro tally before value after ⟨same, tallied, stood⟩ run
  obtain rfl := run_modify_ok.mp run
  have scanner : SameScanner before { before with openParens := before.openParens + change } :=
    ⟨rfl, rfl, rfl⟩
  exact ⟨same, tallied.same scanner, stood.place.same scanner, stood.written,
    congrArg (· + change) stood.opened, stood.bound.symbols, stood.bound.progs⟩

/-- A parenthesis that is counted. -/
theorem does_eatRparen_at :
    Does (At .free tokens count) eatRparen fun _ => At .free (tokens ++ [.Close]) (count - 1) := by
  apply establishes_bind (does_eatToken_at (by simp) .Close)
  intro _
  apply (does_addOpenParens (-1)).mono
  exact fun _ _ _ stood => stood.free

/-- The parenthesis of a term, which may end with one that lacks parentheses. -/
theorem does_eatRparen :
    Does (Deferred create (tokens ++ [.Open]) (count + 1)) eatRparen
      fun _ => Surplus create tokens count := by
  apply establishes_exists
  intro word
  apply establishes_exists
  intro missing
  apply establishes_fact
  intro exprs
  apply establishes_fact
  intro none
  apply does_eatRparen_at.mono
  intro _ tally checker stood
  refine ⟨.Open :: (word ++ [.Close]), missing, ?_, none, ?_⟩
  · have group := exprs.group
    rw [← closed_concat] at group
    exact group
  · have same : count + 1 + missing - 1 = count + missing := by omega
    simpa [same] using stood

theorem does_eatRparen_inside (create : Bool) :
    Does (Inside .free (tokens ++ [.Open]) (count + 1)) eatRparen
      fun _ => Surplus create tokens count :=
  does_eatRparen.weaken fun _ _ inside => inside.deferred

/-- The missing parentheses are eaten. -/
theorem does_eatRparens (missing : Nat) :
    Does (At .free tokens (count + missing)) (eatRparens missing)
      fun _ => At .free (closed .Close tokens missing) count := by
  induction missing generalizing tokens with
  | zero => exact does_return fun _ _ stood => by simpa [closed] using stood
  | succ missing hyp =>
      apply establishes_bind does_eatRparen_at
      intro _
      have same : count + ↑(missing + 1) - 1 = count + missing := by omega
      rw [same, closed_succ, ← closed_concat]
      exact hyp

theorem does_eatExcess_at (missing : Nat) :
    Does (At .free tokens (count + missing)) (eatExcess count)
      fun _ => At .free (closed .Close tokens missing) count := by
  apply establishes_bind (does_getOpenParens fun _ _ stood => stood.stood.opened)
  intro openParens
  apply establishes_fact
  rintro rfl
  have same : (count + missing - count).toNat = missing := by omega
  rw [same]
  exact does_eatRparens missing

theorem does_eatExcess :
    Does (Deferred create tokens count) (eatExcess count) fun _ => Inside .free tokens count := by
  apply establishes_exists
  intro word
  apply establishes_exists
  intro missing
  apply establishes_fact
  intro exprs
  apply establishes_fact
  intro _
  apply (does_eatExcess_at missing).mono
  intro _ tally checker stood
  exact ⟨closed .Close word missing, exprs, by rwa [← closed_append]⟩

/-- Nothing is missing of a term any more. -/
theorem does_eatExcess_term :
    Does (Surplus create tokens count) (eatExcess count) fun _ => Surplus true tokens count := by
  apply establishes_exists
  intro word
  apply establishes_exists
  intro missing
  apply establishes_fact
  intro expr
  apply establishes_fact
  intro _
  apply (does_eatExcess_at missing).mono
  intro _ tally checker stood
  exact .of_closed expr (by rwa [← closed_append])

/-- The parenthesis of an application is counted once it was returned. -/
theorem does_checkAppEnd (fuel : Nat) (args : CheckArgs) (headtrm : Option Ref) (headtp : Ref)
    (holes : List (Option Ref)) :
    Does (Past .Close (tokens ++ [.Open]) (count + 1)) (checkAppEnd fuel args headtrm headtp holes)
      fun _ => Surplus create tokens count := by
  apply establishes_silent
  intro tally before value after past run
  obtain ⟨word, expr, same, tallied, stood⟩ := past.close
  have counted := keeps_counted_checkAppEnd fuel args headtrm headtp holes before value after run
  have opened : after.openParens = count := by
    rw [counted.openParens, stood.opened]
    omega
  exact Surplus.of_closed expr ⟨same, tallied.same counted.scanner,
    stood.place.same counted.scanner, counted.scanner.input ▸ stood.written, opened,
    counted.bound stood.bound⟩

/-! ## Conditions on results -/

theorem ensures_bindDecl {id : String} (clear : ¬ IsParenText id) (type : Option Ref) :
    Ensures Steady (fun bound => ∀ entry ∈ bound.2, ¬ IsParenText entry.1) (bindDecl id type) := by
  rw [bindDecl]
  apply ensures_ite
  · apply ensures_step (keeps_steady_liftM _)
    intro sym
    apply ensures_step (keeps_steady_symbolsInsert clear _)
    intro old
    exact ensures_pure (by simpa using clear)
  · apply ensures_step (keeps_steady_liftM _)
    intro sym
    exact ensures_pure (by simp)

/-- A tail call is made only where no term is created. -/
theorem ensures_inTailPosition (args : CheckArgs) :
    Ensures Steady (fun tail => tail = true → args.create = false) (inTailPosition args) := by
  intro before tail after run
  exact ⟨keeps_steady_inTailPosition args before tail after run,
    fun isTail => ((run_inTailPosition_ok run).2 isTail).1⟩

theorem ensures_isTailArg (args : CheckArgs) (headtp range : Ref) :
    Ensures Steady (fun tail => tail = true → args.create = false) (isTailArg args headtp range) := by
  intro before tail after run
  refine ⟨keeps_steady_isTailArg args headtp range before tail after run, ?_⟩
  rintro rfl
  exact run_isTailArg_ok run

/-! ## Terms -/

section Check

variable {code : CheckArgs → CallsM Checked}
  (checks : ∀ args tokens count, Does (At .ahead tokens count) (code args)
    fun _ => Surplus args.create tokens count)
include checks

/-- A term after expressions. -/
theorem does_check (args : CheckArgs) :
    Does (Inside place tokens count) (code args) fun _ => Deferred args.create tokens count := by
  apply establishes_exists
  intro word
  apply establishes_fact
  intro exprs
  apply (checks args (tokens ++ word) count).imp
  · exact fun _ _ stood => stood.ahead
  · exact fun _ _ _ surplus => surplus.within exprs

/-- A term that is created lacks nothing. -/
theorem does_create {args : CheckArgs} (created : args.create = true) :
    Does (Inside place tokens count) (code args) fun _ => Inside .free tokens count := by
  apply (does_check checks args).mono
  intro _ tally checker deferred
  rw [created] at deferred
  exact deferred.inside

/-- A term at the end of another one, which is left open. -/
theorem does_tail {args : CheckArgs} (uncreated : args.create = false) :
    Does (Inside place (tokens ++ [.Open]) (count + 1)) (code args)
      fun _ => Surplus false tokens count := by
  apply (does_check checks args).mono
  intro _ tally checker deferred
  rw [uncreated] at deferred
  exact deferred.surplus

theorem does_checkDomain :
    Does (Inside .free tokens count) (checkDomain code) fun _ => Inside .free tokens count := by
  rw [checkDomain]
  apply establishes_bind (does_steady (by simp))
  intro _
  apply establishes_bind (does_getOpenParens fun _ _ inside => inside.opened)
  intro prevo
  apply establishes_fact
  rintro rfl
  apply establishes_bind (does_check checks _)
  intro domain
  apply establishes_bind does_eatExcess
  intro _
  apply establishes_bind (does_steady (by simp))
  intro _
  exact does_return fun _ _ inside => inside

theorem does_checkBangRange (args : CheckArgs) :
    Does (Inside .free (tokens ++ [.Open]) (count + 1)) (checkBangRange code args)
      fun _ => Surplus create tokens count := by
  rw [checkBangRange]
  apply does_name (by simp)
  intro id named
  apply establishes_bind (does_store _)
  intro sym
  apply establishes_bind (does_getOpenParens fun _ _ inside => inside.opened)
  intro prevo
  apply establishes_fact
  rintro rfl
  apply establishes_bind (does_checkDomain checks)
  intro domain
  have ranges : Does (Inside .free (tokens ++ [.Open]) (count + 1))
      (do
        let range ← code { args with isHole := false, inAsc := false }
        eatExcess (count + 1)
        eatRparen
        return range) fun _ => Surplus create tokens count := by
    apply establishes_bind (does_check checks _)
    intro range
    apply establishes_bind does_eatExcess
    intro _
    apply establishes_bind (does_eatRparen_inside create)
    intro _
    exact does_return fun _ _ surplus => surplus
  apply establishes_bind (does_withBinding named _ ranges)
  intro range
  exact does_return fun _ _ surplus => surplus

theorem does_checkBang (fuel : Nat) (args : CheckArgs) :
    Does (Inside .free (tokens ++ [.Open]) (count + 1)) (checkBang fuel code args)
      fun _ => Surplus create tokens count := by
  rw [checkBang]
  apply establishes_bind (does_checkBangRange checks args)
  rintro ⟨sym, domain, range⟩
  have built : Does (Surplus create tokens count)
      (do return { range with term := some (← newPi fuel (some sym) domain range.term) })
      fun _ : Checked => Surplus create tokens count := by
    apply establishes_bind (does_store _)
    intro pi
    exact does_return fun _ _ surplus => surplus
  cases args.expected with
  | some expected =>
      apply establishes_bind (does_store _)
      intro classifies
      apply establishes_ite
      · intro _
        exact does_report_bind _
      · intro _
        apply establishes_ite
        · intro _
          exact built
        · intro _
          exact does_return fun _ _ surplus => surplus
  | none =>
      apply establishes_ite
      · intro _
        exact built
      · intro _
        apply establishes_bind (does_deref _)
        intro computed
        apply establishes_bind (does_store _)
        intro classifies
        apply establishes_ite
        · intro _
          apply establishes_bind (does_deref _)
          intro term
          exact does_report_bind _
        · intro _
          exact does_return fun _ _ surplus => surplus

/-- An item of a declaration list, which may start with two parentheses. -/
theorem does_checkDeclListItem :
    Does (Inside .single tokens count) (checkDeclListItem code) fun item tally checker =>
      ¬ IsParenText item.1 ∧ Inside .free tokens count tally checker := by
  rw [checkDeclListItem]
  apply establishes_bind (does_next (by simp))
  intro t
  apply establishes_ite
  · rintro rfl
    apply establishes_exists
    intro word
    apply establishes_fact
    intro exprs
    rw [List.append_assoc, ← List.append_assoc]
    apply establishes_bind does_nextToken
    intro t2
    apply establishes_ite
    · rintro rfl
      refine Establishes.weaken ?_ fun _ _ stood => stood.past
      apply does_keyword (by simp [IsParen])
      apply does_name (by simp)
      intro id named
      apply establishes_bind (does_create checks rfl)
      intro type
      apply establishes_bind (does_eatClose (by simp))
      intro _
      exact does_return fun _ _ inside => ⟨named, inside.within exprs⟩
    · intro _
      apply establishes_bind does_reinsert_at
      intro _
      apply establishes_bind does_reinsert_open
      intro _
      apply establishes_bind (checks _ _ _)
      intro type
      apply establishes_bind (does_deref _)
      intro computed
      exact does_return fun _ _ surplus =>
        ⟨by simp [IsParenText], (surplus.within exprs).inside⟩
  · intro _
    apply establishes_bind does_reinsert
    intro _
    apply establishes_bind (does_create checks rfl)
    intro type
    exact does_return fun _ _ inside => ⟨by simp [IsParenText], inside⟩

theorem does_checkDeclItems (create : Bool) (rounds : Nat) (acc : DeclList)
    (clear : ∀ entry ∈ acc.oldBindings, ¬ IsParenText entry.1) :
    Does (Inside .free (tokens ++ [.Open]) count) (checkDeclItems create code rounds acc)
      fun decls tally checker => (∀ entry ∈ decls.oldBindings, ¬ IsParenText entry.1) ∧
        Inside .free tokens count tally checker := by
  induction rounds generalizing acc with
  | zero => exact does_outOfFuel
  | succ rounds hyp =>
      rw [checkDeclItems]
      apply establishes_bind (does_next (by simp))
      intro t
      apply establishes_ite
      · rintro rfl
        exact does_return fun _ _ past => ⟨clear, past.closed⟩
      · intro _
        apply establishes_bind does_reinsert
        intro _
        apply establishes_bind (does_checkDeclListItem checks)
        rintro ⟨id, type⟩
        apply establishes_fact
        intro named
        apply establishes_bind (does_ensures (ensures_bindDecl named type))
        rintro ⟨sym, old⟩
        apply establishes_fact
        intro fresh
        apply hyp
        intro entry mem
        rcases List.mem_append.mp mem with old | new
        · exact clear entry old
        · exact fresh entry new

theorem does_checkDeclList (fuel : Nat) (create : Bool) :
    Does (Inside .free tokens count) (checkDeclList fuel create code) fun decls tally checker =>
      (∀ entry ∈ decls.oldBindings, ¬ IsParenText entry.1) ∧
        Inside .free tokens count tally checker := by
  apply establishes_bind (does_eatOpen (by simp))
  intro _
  apply does_group_fact
  intro tokens
  exact does_checkDeclItems checks create fuel _ (by simp)

/-- The range of an arrow may lack parentheses where its own one is eaten. -/
theorem does_checkArrow (fuel : Nat) (args : CheckArgs) :
    Does (Inside .free (tokens ++ [.Open]) (count + 1)) (checkArrow fuel code args)
      fun _ => Surplus args.create tokens count := by
  rw [checkArrow]
  apply establishes_bind (does_checkDeclList checks fuel args.create)
  intro decls
  apply establishes_fact
  intro clear
  apply establishes_bind (does_check checks _)
  intro ret
  apply establishes_bind (does_steady (keeps_steady_restoreBindings clear))
  intro _
  apply establishes_bind does_eatRparen
  intro _
  apply establishes_bind (does_deref _)
  intro computed
  apply establishes_bind (does_store _)
  rintro ⟨pi, kind⟩
  cases args.expected with
  | some expected => exact does_return fun _ _ surplus => surplus
  | none =>
      apply establishes_bind (does_steady (by simp))
      intro computed
      exact does_return fun _ _ surplus => surplus

theorem does_checkPound (fuel : Nat) (args : CheckArgs) :
    Does (Inside .free (tokens ++ [.Open]) (count + 1)) (checkPound fuel code args)
      fun _ => Surplus create tokens count := by
  rw [checkPound]
  apply does_name (by simp)
  intro id named
  apply establishes_bind (does_store _)
  intro sym
  apply establishes_bind (does_getOpenParens fun _ _ inside => inside.opened)
  intro prevo
  apply establishes_fact
  rintro rfl
  apply establishes_bind (does_checkDomain checks)
  intro domain
  refine establishes_bind (?_ : Does _ _ fun _ => Surplus create tokens count) ?_
  · apply does_withBinding named
    apply establishes_bind (does_steady (by simp))
    intro expected
    apply establishes_bind (does_check checks _)
    intro range
    apply establishes_bind does_eatExcess
    intro _
    apply establishes_bind (does_eatRparen_inside create)
    intro _
    apply establishes_bind (does_store _)
    intro type
    apply establishes_bind (does_store _)
    intro dependent
    apply establishes_ite
    · intro _
      apply establishes_bind (does_deref _)
      intro term
      exact does_report_bind _
    · intro _
      apply establishes_bind (does_store _)
      intro var
      apply establishes_bind (does_store _)
      intro _
      apply establishes_bind (does_steady (by simp))
      intro computed
      exact does_return fun _ _ surplus => surplus
  · rintro ⟨range, computed⟩
    apply establishes_ite
    · intro _
      apply establishes_bind (does_store _)
      intro lam
      apply establishes_bind (does_store _)
      intro _
      exact does_return fun _ _ surplus => surplus
    · intro _
      exact does_return fun _ _ surplus => surplus

/-- The body of a big lambda is a tail call, and nothing is created. -/
theorem does_checkPercent (args : CheckArgs) :
    Does (Inside .free (tokens ++ [.Open]) (count + 1)) (checkPercent code args)
      fun _ => Surplus args.create tokens count := by
  rw [checkPercent]
  apply establishes_bind (does_steady keeps_tables_get)
  intro checker
  apply establishes_ite
  · intro _
    exact does_report_bind _
  · intro allowed
    have uncreated : args.create = false := by
      simp only [not_or, Bool.not_eq_true] at allowed
      exact allowed.2.1
    apply does_name (by simp)
    intro id named
    apply establishes_bind (does_store _)
    intro sym
    apply establishes_bind (does_getOpenParens fun _ _ inside => inside.opened)
    intro prevo
    apply establishes_fact
    rintro rfl
    apply establishes_bind (does_check checks _)
    intro domain
    apply establishes_bind does_eatExcess
    intro _
    apply establishes_bind (does_insert named _)
    intro prev
    apply establishes_bind (does_steady (by simp))
    intro _
    rw [uncreated]
    exact does_tail checks rfl

omit checks in
theorem does_readLambda (expected : Option Ref) :
    Does (Inside .free tokens count) (readLambda expected) fun read tally checker =>
      ¬ IsParenText read.1 ∧ Inside .free tokens count tally checker := by
  cases expected with
  | none => exact does_report _
  | some expected =>
      rw [readLambda]
      apply establishes_bind (does_store _)
      intro pitp
      apply establishes_bind (does_store _)
      intro op
      apply establishes_ite
      · intro _
        exact does_report_bind _
      · intro _
        apply does_name (by simp)
        intro id named
        apply establishes_bind (does_store _)
        intro sym
        apply establishes_bind (does_store _)
        intro domain
        apply establishes_bind (does_store _)
        intro range
        apply establishes_bind (does_store _)
        intro pivar
        apply establishes_bind (does_store _)
        intro followed
        apply establishes_bind (does_store _)
        intro rangeOp
        apply establishes_ite
        · intro _
          exact does_report_bind _
        · intro _
          exact does_return fun _ _ inside => ⟨named, inside⟩

theorem does_checkLambda (args : CheckArgs) :
    Does (Inside .free (tokens ++ [.Open]) (count + 1)) (checkLambda code args)
      fun _ => Surplus args.create tokens count := by
  rw [checkLambda]
  apply establishes_bind (does_readLambda args.expected)
  rintro ⟨id, sym, domain, range, pivar⟩
  apply establishes_fact
  intro named
  apply establishes_bind (does_insert named _)
  intro prev
  apply establishes_bind (does_store _)
  intro prevPivarVal
  apply establishes_bind (does_store _)
  intro _
  apply establishes_bind (does_ensures (ensures_inTailPosition args))
  intro tail
  apply establishes_fact
  intro uncreated
  apply establishes_ite
  · intro isTail
    apply establishes_bind (does_steady (by simp))
    intro _
    rw [uncreated isTail]
    exact does_tail checks rfl
  · intro _
    apply establishes_bind (does_getOpenParens fun _ _ inside => inside.opened)
    intro prevo
    apply establishes_fact
    rintro rfl
    apply establishes_bind (does_check checks _)
    intro body
    apply establishes_bind does_eatExcess
    intro _
    apply establishes_bind (does_eatRparen_inside args.create)
    intro _
    apply establishes_bind (does_insert named _)
    intro _
    apply establishes_bind (does_store _)
    intro _
    apply establishes_ite
    · intro _
      apply establishes_bind (does_store _)
      intro lam
      exact does_return fun _ _ surplus => surplus
    · intro _
      exact does_return fun _ _ surplus => surplus

theorem does_checkCaret (fuel : Nat) (args : CheckArgs) :
    Does (Inside .free (tokens ++ [.Open]) (count + 1)) (checkCaret fuel code args)
      fun _ => Surplus create tokens count := by
  rw [checkCaret]
  cases args.expected with
  | none => exact does_report _
  | some expected =>
      apply establishes_bind (does_steady keeps_tables_get)
      intro checker
      apply establishes_ite
      · intro _
        exact does_report_bind _
      · intro _
        apply establishes_bind (does_short (does_readCode fuel _) (by simp))
        intro read
        apply establishes_bind (does_deref read)
        intro e
        apply establishes_bind (does_steady (by simp))
        intro progret
        apply establishes_bind (does_getOpenParens fun _ _ inside => inside.opened)
        intro prevo
        apply establishes_fact
        rintro rfl
        apply establishes_bind (does_deref progret)
        intro type
        apply establishes_bind (does_check checks _)
        intro trm
        apply establishes_bind does_eatExcess
        intro _
        apply establishes_bind (does_eatRparen_inside create)
        intro _
        apply establishes_bind (does_store _)
        intro op
        apply establishes_ite
        · intro _
          exact does_report_bind _
        · intro _
          apply establishes_bind (does_store _)
          intro run
          exact does_return fun _ _ surplus => surplus

theorem does_checkColon (fuel : Nat) (args : CheckArgs) :
    Does (Inside .free (tokens ++ [.Open]) (count + 1)) (checkColon fuel code args)
      fun _ => Surplus create tokens count := by
  rw [checkColon]
  apply establishes_bind (does_getOpenParens fun _ _ inside => inside.opened)
  intro prevo
  apply establishes_fact
  rintro rfl
  apply establishes_bind (does_check checks _)
  intro ascribed
  apply establishes_bind does_eatExcess
  intro _
  apply establishes_bind (does_deref _)
  intro type
  apply establishes_bind (does_check checks _)
  intro trm
  apply establishes_bind does_eatExcess
  intro _
  apply establishes_bind (does_eatRparen_inside create)
  intro _
  cases args.expected with
  | some expected =>
      apply establishes_bind (does_steady (by simp))
      intro same
      apply establishes_ite
      · intro _
        exact does_report_bind _
      · intro _
        apply establishes_ite
        · intro _
          exact does_return fun _ _ surplus => surplus
        · intro _
          apply establishes_bind (does_deref _)
          intro term
          exact does_return fun _ _ surplus => surplus
  | none =>
      apply establishes_bind (does_steady (by simp))
      intro computed
      apply establishes_ite
      · intro _
        exact does_return fun _ _ surplus => surplus
      · intro _
        exact does_return fun _ _ surplus => surplus

theorem does_checkAt (fuel : Nat) (args : CheckArgs) :
    Does (Inside .free (tokens ++ [.Open]) (count + 1)) (checkAt fuel code args)
      fun _ => Surplus args.create tokens count := by
  rw [checkAt]
  apply does_name (by simp)
  intro id named
  apply establishes_bind (does_store _)
  intro sym
  apply establishes_bind (does_getOpenParens fun _ _ inside => inside.opened)
  intro prevo
  apply establishes_fact
  rintro rfl
  apply establishes_bind (does_check checks _)
  intro trm
  apply establishes_bind does_eatExcess
  intro _
  apply establishes_bind (does_deref _)
  intro term
  apply establishes_bind (does_steady (keeps_steady_insertAndBindSymbol named _ _ _ _))
  intro prev
  apply establishes_bind (does_ensures (ensures_inTailPosition args))
  intro tail
  apply establishes_fact
  intro uncreated
  apply establishes_ite
  · intro isTail
    apply establishes_bind (does_steady (by simp))
    intro _
    rw [uncreated isTail]
    exact does_tail checks (uncreated isTail)
  · intro _
    apply establishes_bind (does_getOpenParens fun _ _ inside => inside.opened)
    intro prevo
    apply establishes_fact
    rintro rfl
    apply establishes_bind (does_check checks _)
    intro body
    apply establishes_bind does_eatExcess
    intro _
    apply establishes_bind (does_eatRparen_inside args.create)
    intro _
    apply establishes_bind (does_insert named _)
    intro _
    exact does_return fun _ _ surplus => surplus

theorem does_checkTilde (args : CheckArgs) :
    Does (Inside .free (tokens ++ [.Open]) (count + 1)) (checkTilde code args)
      fun _ => Surplus create tokens count := by
  rw [checkTilde]
  apply establishes_bind (does_getOpenParens fun _ _ inside => inside.opened)
  intro prevo
  apply establishes_fact
  rintro rfl
  apply establishes_bind (does_check checks _)
  intro e
  apply establishes_bind does_eatExcess
  intro _
  apply establishes_bind (does_eatRparen_inside create)
  intro _
  cases args.expected
  case' none => apply establishes_bind (does_deref _)
  case' some expected => apply establishes_bind (does_pure expected)
  all_goals
    intro type
    apply establishes_ite
    · intro _
      exact does_report_bind _
    · intro _
      apply establishes_ite
      · intro _
        apply establishes_bind (does_deref _)
        intro literal
        apply establishes_bind (does_store _)
        intro node
        cases node with
        | int value =>
            apply establishes_bind (does_store _)
            intro _
            exact does_return fun _ _ surplus => surplus
        | rat value =>
            apply establishes_bind (does_store _)
            intro _
            exact does_return fun _ _ surplus => surplus
        | _ => exact does_report _
      · intro _
        exact does_return fun _ _ surplus => surplus

/-- The last argument is a tail call, and nothing is created. -/
theorem does_checkTailArg (fuel : Nat) (args : CheckArgs) (domain range : Ref)
    (holes : List (Option Ref)) :
    Does (Inside .single (tokens ++ [.Open]) (count + 1))
      (checkTailArg fuel code args domain range holes) fun _ => Surplus false tokens count := by
  have argument : ∀ computed : Option Ref, Does (Inside .single (tokens ++ [.Open]) (count + 1))
      (do
        checkHolesTail fuel domain holes
        let arg ← code
          { args with
            create := false, expected := some domain, computed := false, isHole := false }
        return { arg with computed }) fun _ => Surplus false tokens count := by
    intro computed
    apply establishes_bind (does_steady (by simp))
    intro _
    apply establishes_bind (does_tail checks rfl)
    intro arg
    exact does_return fun _ _ surplus => surplus
  rw [checkTailArg]
  cases args.expected with
  | none =>
      apply establishes_bind (does_steady (by simp))
      exact argument
  | some expected =>
      apply establishes_bind (does_steady (by simp))
      intro same
      apply establishes_ite
      · intro _
        exact does_report_bind _
      · intro _
        apply establishes_bind (does_pure _)
        exact argument

theorem does_checkArg (args : CheckArgs) (headtp domain : Ref) (headtrm : Option Ref)
    (holes : List (Option Ref)) :
    Does (Inside .single tokens count) (checkArg code args count headtp domain headtrm holes)
      fun _ => Inside .free tokens count := by
  rw [checkArg]
  apply establishes_bind (does_store _)
  intro var
  apply establishes_bind (does_store _)
  intro varInRange
  apply establishes_bind (does_check checks _)
  intro arg
  apply establishes_bind does_eatExcess
  intro _
  apply establishes_ite
  all_goals
    intro _
  case' first =>
    apply establishes_bind (does_deref _)
    intro head
    apply establishes_bind (does_store _)
    intro applied
    apply establishes_bind (does_pure _)
  case' second => apply establishes_bind (does_pure _)
  all_goals
    intro extended
    apply establishes_ite
    · intro _
      apply establishes_bind (does_deref _)
      intro term
      apply establishes_bind (does_store _)
      intro followed
      apply establishes_bind (does_store _)
      intro _
      exact does_return fun _ _ inside => inside
    · intro _
      exact does_return fun _ _ inside => inside

theorem does_checkAppArgs (fuel : Nat) (args : CheckArgs) (rounds : Nat) (headtrm : Option Ref)
    (headtp : Ref) (holes : List (Option Ref)) :
    Does (Inside .single (tokens ++ [.Open]) (count + 1))
      (checkAppArgs fuel code args (count + 1) rounds headtrm headtp holes)
      fun _ => Surplus args.create tokens count := by
  induction rounds generalizing headtrm headtp holes with
  | zero => exact does_outOfFuel
  | succ rounds hyp =>
      rw [checkAppArgs]
      apply establishes_bind (does_next (by simp))
      intro c
      apply establishes_ite
      · rintro rfl
        exact does_checkAppEnd fuel args headtrm headtp holes
      · intro _
        apply establishes_bind does_reinsert
        intro _
        apply establishes_bind (does_store _)
        intro op
        apply establishes_ite
        · intro _
          exact does_report_bind _
        · intro _
          apply establishes_bind (does_store _)
          intro domain
          apply establishes_bind (does_store _)
          intro range
          apply establishes_bind (does_store _)
          intro domainOp
          apply establishes_ite
          · intro _
            apply establishes_bind (does_store _)
            intro premise
            apply establishes_bind (does_store _)
            intro type
            apply establishes_bind (does_steady (by simp))
            intro _
            exact hyp _ _ _
          · intro _
            apply establishes_bind (does_ensures (ensures_isTailArg args headtp range))
            intro tail
            apply establishes_fact
            intro uncreated
            apply establishes_ite
            · intro isTail
              rw [uncreated isTail]
              exact does_checkTailArg checks fuel args domain range holes
            · intro _
              apply establishes_bind (does_checkArg checks args headtp domain headtrm holes)
              rintro ⟨extended, found⟩
              exact does_short (hyp _ _ _) (by simp)

/-- The first token of the head is put back before the head is read. -/
theorem does_checkApp (fuel : Nat) (args : CheckArgs) (c : Token) :
    Does (Past c (tokens ++ [.Open]) (count + 1)) (checkApp fuel code args c)
      fun _ => Surplus args.create tokens count := by
  rw [checkApp]
  apply establishes_bind does_reinsert
  intro _
  apply establishes_bind (does_getOpenParens fun _ _ inside => inside.opened)
  intro prevo
  apply establishes_fact
  rintro rfl
  apply establishes_bind (does_check checks _)
  intro head
  apply establishes_bind does_eatExcess
  intro _
  apply establishes_bind (does_deref _)
  intro computed
  apply establishes_bind (does_store _)
  intro headtp
  apply establishes_bind (does_store _)
  intro used
  apply establishes_ite
  all_goals
    intro _
    apply establishes_bind (does_store _)
  case' second =>
    intro _
    apply establishes_bind (does_pure _)
  all_goals
    intro type
    exact does_short (does_checkAppArgs checks fuel args fuel head.term type []) (by simp)

/-- A term that starts with a parenthesis. -/
theorem does_checkOpen (fuel : Nat) (args : CheckArgs) :
    Does (At .single (tokens ++ [.Open]) count) (checkOpen fuel code args)
      fun _ => Surplus args.create tokens count := by
  rw [checkOpen]
  apply establishes_bind (does_addOpenParens 1)
  intro _
  refine Establishes.weaken ?_ fun _ _ stood => stood.inside
  apply establishes_bind (does_next (by simp))
  intro c
  cases c with
  | Eof => exact does_report _
  | Bang => exact does_keyword (by simp [IsParen]) (does_checkBang checks fuel args)
  | Arrow => exact does_keyword (by simp [IsParen]) (does_checkArrow checks fuel args)
  | Pound => exact does_keyword (by simp [IsParen]) (does_checkPound checks fuel args)
  | Percent => exact does_keyword (by simp [IsParen]) (does_checkPercent checks args)
  | ReverseSolidus => exact does_keyword (by simp [IsParen]) (does_checkLambda checks args)
  | Caret => exact does_keyword (by simp [IsParen]) (does_checkCaret checks fuel args)
  | Colon => exact does_keyword (by simp [IsParen]) (does_checkColon checks fuel args)
  | At => exact does_keyword (by simp [IsParen]) (does_checkAt checks fuel args)
  | Tilde => exact does_keyword (by simp [IsParen]) (does_checkTilde checks args)
  | _ => exact does_checkApp checks fuel args _

end Check

section Atoms

variable [Stable holds]

theorem does_checkNumeralToken (args : CheckArgs) (type : Ref) (message : String)
    {literal : CallsM Ref} (creates : Does holds literal fun _ => holds) :
    Does holds (checkNumeralToken args type message literal) fun _ => holds := by
  have numeral : ∀ computed : Option Ref, Does holds
      (do if args.create then return { term := some (← literal), computed }
          else return { term := none, computed }) fun _ : Checked => holds := by
    intro computed
    apply establishes_ite
    · intro _
      apply establishes_bind creates
      intro term
      exact does_return fun _ _ start => start
    · intro _
      exact does_return fun _ _ start => start
  rw [checkNumeralToken]
  cases args.expected with
  | none =>
      apply establishes_bind (does_steady (by simp))
      exact numeral
  | some expected =>
      apply establishes_ite
      · intro _
        exact does_report_bind _
      · intro _
        apply establishes_bind (does_pure _)
        exact numeral

variable (known : ∀ tally checker, holds tally checker → Fits token checker.text)
include known

theorem does_checkNatural (args : CheckArgs) : Does holds (checkNatural args) fun _ => holds := by
  apply does_checkNumeralToken
  apply establishes_bind (does_tokenStr known)
  intro text
  apply establishes_fact
  intro _
  cases naturalValue text with
  | none => exact does_report _
  | some value => exact does_store _

theorem does_checkRational (args : CheckArgs) : Does holds (checkRational args) fun _ => holds := by
  apply does_checkNumeralToken
  apply establishes_bind (does_tokenStr known)
  intro text
  apply establishes_fact
  intro _
  cases rationalValue text with
  | none => exact does_report _
  | some value => exact does_store _

/-- An identifier that is bound is no parenthesis. -/
theorem does_checkIdent (bound : ∀ tally checker, holds tally checker → BindsNoParen checker)
    (fuel : Nat) (args : CheckArgs) :
    Does holds (checkIdent fuel args) fun _ tally checker =>
      ¬ IsParen token ∧ holds tally checker := by
  rw [checkIdent]
  apply establishes_bind (does_tokenStr known)
  intro name
  apply establishes_fact
  intro fits
  apply establishes_bind (does_symbolsGet bound)
  intro pair
  apply establishes_fact
  intro unbound
  cases symbol : pair.expr with
  | none => exact does_report _
  | some symbol =>
      have clear : ¬ IsParen token := fun paren => by simp [unbound (fits.mp paren)] at symbol
      cases args.expected with
      | some expected =>
          apply establishes_bind (does_deref _)
          intro type
          apply establishes_bind (does_steady (by simp))
          intro same
          apply establishes_ite
          · intro _
            exact does_report_bind _
          · intro _
            apply establishes_bind (does_pure _)
            intro computed
            exact does_return fun _ _ start => ⟨clear, start⟩
      | none =>
          apply establishes_ite
          · intro _
            apply establishes_bind (does_map (does_deref _))
            intro computed
            exact does_return fun _ _ start => ⟨clear, start⟩
          · intro _
            apply establishes_bind (does_pure _)
            intro computed
            exact does_return fun _ _ start => ⟨clear, start⟩

end Atoms

/-- Where `check` returns, the tokens it consumed and as many closing parentheses as it left open are
one term; it leaves none open where a term is created. -/
theorem does_check_term (fuel : Nat) (args : CheckArgs) (tokens : List Token) (count : Int) :
    Does (At .ahead tokens count) (check fuel args) fun _ => Surplus args.create tokens count := by
  induction fuel generalizing args tokens count with
  | zero => exact does_outOfFuel
  | succ fuel hyp =>
      rw [check]
      apply establishes_bind does_nextToken
      intro token
      cases token with
      | Open => exact does_checkOpen hyp fuel args
      | Eof => exact does_report _
      | Hole =>
          exact Establishes.mono (does_steady (by simp)) fun _ _ _ stood =>
            stood.surplus (by simp [IsParen])
      | Natural =>
          exact (does_checkNatural (fun _ _ stood => stood.stood.place.2) args).mono
            fun _ _ _ stood => stood.surplus (by simp [IsParen])
      | Rational =>
          exact (does_checkRational (fun _ _ stood => stood.stood.place.2) args).mono
            fun _ _ _ stood => stood.surplus (by simp [IsParen])
      | _ =>
          exact (does_checkIdent (fun _ _ stood => stood.stood.place.2)
            (fun _ _ stood => stood.stood.bound) fuel args).mono fun _ _ _ stood =>
              stood.2.surplus stood.1

end Lookahead

end Lfsc
