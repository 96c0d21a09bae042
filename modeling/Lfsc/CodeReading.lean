import Lfsc.CodeTrees

/-!
# What read_code returns

Every run of `read_code` reports an error, returns the tree of the code written, or meets a
defective lexeme: the name of an operation on a mark that does not exist, for which a null pointer
takes the place of a tree, or a literal with denominator zero.
-/

namespace Lfsc

open Exec

section Readers

variable {defect : Prop} {before : Checker}

/-! ## Names -/

theorem ends_report {α : Type} {post : α → Checker → Prop} (message : String) :
    Ends (Rejects defect) post (report message : CheckerM α) before :=
  ends_stop (Or.inl ⟨message, rfl⟩)

theorem run_pure {α : Type} {value : α} :
    (pure value : CheckerM α).run before = .ok (value, before) := rfl

theorem ends_symbolsGet {α : Type} {post : α → Checker → Prop} {name : String}
    {k : Binding → CheckerM α} (rest : Ends (Rejects defect) post
      (k (before.symbols name)) before) :
    Ends (Rejects defect) post (symbolsGet name >>= k) before := ends_bind_of_ok rfl rest

theorem ends_progsIndex {α : Type} {post : α → Checker → Prop} {name : String}
    {k : Option Ref → CheckerM α} (ready : CanRead defect before)
    (rest : ∀ entry after, Reads defect before after → pending after = pending before →
      (∀ e, entry = some e → e < after.store.heap.length) →
      Ends (Rejects defect) post (k entry) after) :
    Ends (Rejects defect) post (progsIndex name >>= k) before := by
  cases found : before.progs name with
  | some entry =>
      have run : (progsIndex name).run before = .ok (entry, before) := by
        simp [progsIndex, found]
      refine ends_bind_of_ok run (rest entry before ⟨ready, kept_refl _⟩ rfl ?_)
      rintro e rfl
      exact ready.table.prog name e found
  | none =>
      let after : Checker := { before with progs := Function.update before.progs name (some none) }
      have run : (progsIndex name).run before = .ok (none, after) := by
        simp [progsIndex, found, after]
      refine ends_bind_of_ok run (rest none after ⟨⟨ready.slots, ⟨ready.table.symbols, ?_⟩,
        ready.defects⟩, kept_refl _⟩ rfl (by simp))
      intro other e bound
      by_cases same : other = name
      · subst same
        simp [after] at bound
      · simp only [after, Function.update_of_ne same] at bound
        exact ready.table.prog other e bound

/-- The constructor that is read, null on `default`. -/
theorem ends_readCtor {α : Type} {post : α → Checker → Prop} {k : Option Ref → CheckerM α}
    (ready : CanRead defect before)
    (rest : ∀ lexeme ctor after, Took before lexeme after →
      (ctor = none ↔ lexeme.text = "default") →
      (∀ e, ctor = some e → e < after.store.heap.length) →
      Ends (Rejects defect) post (k ctor) after) :
    Ends (Rejects defect) post (readCtor >>= k) before := by
  have inner : Ends (Rejects defect) (fun ctor after => ∃ lexeme, Took before lexeme after ∧
      (ctor = none ↔ lexeme.text = "default") ∧
      ∀ e, ctor = some e → e < after.store.heap.length) readCtor before := by
    rw [readCtor]
    refine ends_prefixId fun lexeme after took => ?_
    refine ends_ite (fun default => ?_) fun other => ?_
    · exact ends_pure ⟨lexeme, took, by simp [default], by simp⟩
    refine ends_symbolsGet ?_
    have stored := (took.reads ready).ready.table.symbols lexeme.text
    by_cases typed : (after.symbols lexeme.text).type = none
    · rw [if_pos typed]
      exact ends_report _
    rw [if_neg typed]
    obtain ⟨symbol, found⟩ := Option.ne_none_iff_exists'.mp (stored.typed typed)
    have bound := stored.bound symbol found
    have loaded : after.store.heap[symbol]? = some after.store.heap[symbol] :=
      List.getElem?_eq_getElem bound
    have load_run : (liftM (load symbol) : CheckerM Node).run after =
        .ok (after.store.heap[symbol], after) :=
      run_onStore_ok.mpr ⟨after.store, run_load_ok.mpr ⟨loaded, rfl⟩, rfl⟩
    have deref_run : (deref (after.symbols lexeme.text).expr : CheckerM Ref).run after =
        .ok (symbol, after) := by
      rw [found]
      rfl
    refine ends_bind_of_ok deref_run ?_
    refine ends_bind_of_ok load_run ?_
    split
    · refine ends_pure ⟨lexeme, took, by simp [other], ?_⟩
      rintro e ⟨⟩
      exact bound
    · exact ends_report _
  apply ends_bind inner
  rintro ctor after ⟨lexeme, took, default, bound⟩
  exact rest lexeme ctor after took default bound

/-! ## Patterns -/

theorem ends_makeApp {α : Type} {post : α → Checker → Prop} {head : Ref} {arg : Option Ref}
    {k : Ref → CheckerM α} (ready : CanRead defect before) (bound : head < before.store.heap.length)
    (rest : ∀ kids after, Reads defect before after → pending after = pending before →
      (∀ kid, arg = some kid → kids = spineOf before.store.heap head ++ [kid]) →
      IsNode after.store.heap .app kids before.store.heap.length →
      Ends (Rejects defect) post (k before.store.heap.length) after) :
    Ends (Rejects defect) post ((liftM (makeApp head arg) : CheckerM Ref) >>= k) before := by
  have loaded : before.store.heap[head]? = some before.store.heap[head] :=
    List.getElem?_eq_getElem bound
  let kids := kidsOf ((spineOf before.store.heap head).map some ++ [arg])
  have run : (liftM (makeApp head arg) : CheckerM Ref).run before =
      .ok (before.store.heap.length, before.allocate (.cexpr .app kids false)) := by
    refine run_onStore_ok.mpr ⟨_, ?_, rfl⟩
    change (makeApp head arg).run before.store = _
    rw [makeApp, run_bind_of_ok (run_load_ok.mpr ⟨loaded, rfl⟩)]
    simp only [kids, spineOf, loaded]
    cases before.store.heap[head] <;> rfl
  refine ends_bind_of_ok run (rest kids _ (ready.allocate _) rfl ?_ (IsNode.allocate _ _ _))
  rintro kid rfl
  have all : (spineOf before.store.heap head).map some ++ [some kid] =
      (spineOf before.store.heap head ++ [kid]).map some := by simp
  simp only [kids]
  rw [all, kidsOf_map_some]

/-- The pattern variables and the parenthesis after them. -/
theorem ends_readPatternVars (fuel : Nat) {pat : Ref} {prevs : List (String × Binding)}
    (ready : CanRead defect before) (enough : (pending before).length < fuel)
    (bound : pat < before.store.heap.length)
    (stored : ∀ binding ∈ prevs, binding.2.Stored before.store.heap) :
    Ends (Rejects defect) (fun result after => Reads defect before after ∧
        result.1 < after.store.heap.length ∧
        (∀ binding ∈ result.2, binding.2.Stored after.store.heap) ∧
        ∃ vars closing, pending before = vars ++ ⟨.Close, closing⟩ :: pending after)
      (readPatternVars fuel pat prevs) before := by
  induction fuel generalizing before pat prevs with
  | zero => omega
  | succ fuel hyp =>
      rw [readPatternVars]
      refine ends_nextToken fun lexeme middle took => ?_
      refine ends_ite (fun close => ?_) fun other => ?_
      · have next := took.pending_of_token (by rw [close]; simp)
        refine ends_pure ⟨took.reads ready, by rwa [took.store], by rwa [took.store], [],
          lexeme.text, ?_⟩
        rw [next, ← close]
        rfl
      refine ends_reinsertToken (took.room ready) ?_
      have back := took.reads_putBack ready
      refine ends_prefixId fun name named tookName => ?_
      have namedReads := tookName.reads back.ready
      by_cases empty : name.text = ""
      · rw [if_pos empty]
        exact ends_report _
      rw [if_neg empty]
      have nonempty : pending before ≠ [] := by
        intro dry
        rcases took.next with next | ⟨-, -, same⟩
        · rw [next] at dry
          cases dry
        · rcases tookName.next with next | ⟨missing, -, -⟩
          · rw [pending_putBack took] at next
            obtain ⟨rfl, -⟩ := List.cons.inj next
            rw [same] at empty
            exact empty rfl
          · rw [pending_putBack took] at missing
            cases missing
      have first : pending before = lexeme :: pending middle := by
        rcases took.next with next | ⟨dry, -, -⟩
        · exact next
        · exact absurd dry nonempty
      have backPending : pending (middle.putBack lexeme.token) = pending before := by
        rw [pending_putBack took, first]
      have second : pending before = name :: pending named := by
        rcases tookName.next with next | ⟨missing, -, -⟩
        · rw [← backPending, next]
        · rw [backPending] at missing
          exact absurd missing nonempty
      refine ends_bind_of_ok (run_new _) ?_
      have allocated := namedReads.ready.allocate (.sym name.text none)
      refine ends_bind_of_ok (m := symbolsInsert name.text _) rfl ?_
      have boundReads := allocated.ready.bind name.text (stored_new named (.sym name.text none))
      have all := ((back.trans namedReads).trans allocated).trans boundReads
      refine ends_makeApp boundReads.ready (Nat.lt_of_lt_of_le bound all.kept.grows) ?_
      intro kids after reads same _ node
      have total := all.trans reads
      have shorter : (pending after).length < fuel := by
        have count := congrArg List.length second
        rw [same]
        change (pending named).length < fuel
        simp only [List.length_cons] at count
        omega
      refine (hyp reads.ready shorter node.lt_length ?_).imp ?_
      · intro binding mem
        rcases List.mem_append.mp mem with old | new
        · exact (stored binding old).kept total.kept
        · obtain rfl := List.mem_singleton.mp new
          exact ((namedReads.ready.table.symbols name.text).kept
            ((allocated.trans boundReads).trans reads).kept)
      · rintro result final ⟨finalReads, patBound, finalStored, vars, closing, rest⟩
        refine ⟨total.trans finalReads, patBound, finalStored, name :: vars, closing, ?_⟩
        rw [second, ← show pending after = pending named from same, rest]
        rfl

theorem ends_readPattern (fuel : Nat) (ready : CanRead defect before)
    (enough : (pending before).length < fuel) :
    Ends (Rejects defect) (fun result after => Reads defect before after ∧
        (∀ pat, result.1 = some pat → pat < after.store.heap.length) ∧
        (∀ binding ∈ result.2, binding.2.Stored after.store.heap) ∧
        ∃ pattern : SourcePattern, pending before = pattern.lexemes ++ pending after ∧
          (result.1 = none ↔ pattern.isDefault = true))
      (readPattern fuel) before := by
  rw [readPattern]
  refine ends_nextToken fun lexeme middle took => ?_
  have middleReads := took.reads ready
  split
  case h_1 opens =>
      have first := took.pending_of_token (by rw [opens]; simp)
      refine ends_readCtor middleReads.ready fun name ctor named tookName default bound => ?_
      cases ctor with
      | none => exact ends_report _
      | some ctor =>
          have namedReads := tookName.reads middleReads.ready
          have shorter : (pending named).length < fuel := by
            have count := congrArg List.length first
            rcases tookName.next with next | ⟨-, next, -⟩ <;>
              simp only [next, List.length_cons, List.length_nil] at count ⊢ <;> omega
          refine ends_bind (ends_readPatternVars fuel namedReads.ready shorter (bound ctor rfl)
            (by simp)) ?_
          rintro ⟨pat, prevs⟩ final ⟨finalReads, patBound, stored, vars, closing, rest⟩
          refine ends_pure ⟨(middleReads.trans namedReads).trans finalReads, ?_, stored,
            .applied lexeme.text name vars closing, ?_, by simp [SourcePattern.isDefault]⟩
          · rintro _ ⟨⟩
            exact patBound
          · rcases tookName.next with next | ⟨-, dry, -⟩
            · rw [first, next, rest]
              simp [SourcePattern.lexemes, ← opens]
            · rw [dry] at rest
              simp at rest
  case h_2 => exact ends_report _
  case h_3 opens eof =>
      refine ends_reinsertToken (took.room ready) ?_
      have back := took.reads_putBack ready
      have same := took.pending_putBack eof
      refine ends_readCtor back.ready fun name ctor named tookName default bound => ?_
      have next : pending before = name :: pending named := by
        rcases tookName.next with next | ⟨dry, -, -⟩
        · rw [← same, next]
        · rw [same, took.pending_of_token eof] at dry
          cases dry
      refine ends_pure ⟨back.trans (tookName.reads back.ready), bound, by simp, .bare name, next,
        ?_⟩
      simpa [SourcePattern.isDefault] using default

/-! ## Cases -/

/-- Written code has been read, with its tree where all marks exist. -/
def ReadAs (defect : Prop) (isCase : Bool) (before : Checker) (result : Option Ref)
    (after : Checker) : Prop :=
  Reads defect before after ∧ ∃ source : Source, source.isCase = isCase ∧
    pending before = source.lexemes ++ pending after ∧
    (source.MarksInRange → ∃ e, result = some e ∧ source.Tree after.store.heap e)

/-- A computation that reads code from fewer lexemes than a bound. -/
structure ReadsCode (defect : Prop) (bound : Nat) (code : CheckerM (Option Ref)) : Prop where
  tree : ∀ before, CanRead defect before → (pending before).length < bound →
    Ends (Rejects defect) (ReadAs defect false before) code before
  eof : 0 < bound → ∀ before lexeme rest, pending before = lexeme :: rest → lexeme.token = .Eof →
    Ends (Rejects defect) (fun _ _ => False) code before

theorem Source.isCase_leaf (lexeme : Lexeme) : (Source.leaf lexeme).isCase = false := rfl

theorem Source.length_lexemes_pos (source : Source) : 0 < source.lexemes.length := by
  cases source <;> simp [Source.lexemes]

theorem reads_undo {old : List (String × Binding)} (ready : CanRead defect before)
    (stored : ∀ binding ∈ old, binding.2.Stored before.store.heap) :
    Reads defect before (undo old before) := by
  induction old with
  | nil => exact ⟨ready, kept_refl _⟩
  | cons binding old hyp =>
      have others := hyp fun other mem => stored other (List.mem_cons_of_mem binding mem)
      exact others.trans (others.ready.bind binding.1 (stored binding List.mem_cons_self))

variable {code : CheckerM (Option Ref)}

theorem ends_newCase {pat body : Option Ref} (ready : CanRead defect before) :
    Ends (Rejects defect) (fun result after => Reads defect before after ∧
        pending after = pending before ∧
        ∀ kid, body = some kid → ∃ e, result = some e ∧
          match pat with
          | none => e = kid
          | some pat => IsNode after.store.heap .case_ [pat, kid] e)
      (liftM (newCase pat body)) before := by
  cases pat with
  | none =>
      have run : (liftM (newCase none body) : CheckerM (Option Ref)).run before =
          .ok (body, before) := rfl
      refine ends_of_ok run ⟨⟨ready, kept_refl _⟩, rfl, ?_⟩
      rintro kid rfl
      exact ⟨kid, rfl, rfl⟩
  | some pat =>
      have run : (liftM (newCase (some pat) body) : CheckerM (Option Ref)).run before =
          .ok (some before.store.heap.length,
            before.allocate (.cexpr .case_ (kidsOf [some pat, body]) false)) := rfl
      refine ends_of_ok run ⟨ready.allocate _, rfl, ?_⟩
      rintro kid rfl
      exact ⟨_, rfl, IsNode.allocate _ _ _⟩

/-- A case of a `match` has its own tree, or that of its body for `default`. -/
theorem ends_readCase (fuel : Nat) (reads : ReadsCode defect fuel code)
    (ready : CanRead defect before)
    (enough : (pending before).length < fuel) :
    Ends (Rejects defect) (ReadAs defect true before) (readCase fuel code) before := by
  rw [readCase]
  refine ends_eatToken (fun message => Or.inl ⟨message, rfl⟩) fun lexeme opened took opens => ?_
  have openedReads := took.reads ready
  have first := took.pending_of_token (by rw [opens]; simp)
  have count := congrArg List.length first
  simp only [List.length_cons] at count
  refine ends_bind (ends_readPattern fuel openedReads.ready (by omega)) ?_
  rintro ⟨pat, prevs⟩ matched ⟨matchedReads, patBound, stored, pattern, patternNext, default⟩
  have patternCount := congrArg List.length patternNext
  simp only [List.length_append] at patternCount
  refine ends_bind (reads.tree matched matchedReads.ready (by omega)) ?_
  rintro body finished ⟨bodyReads, source, plain, bodyNext, tree⟩
  refine ends_bind (ends_newCase bodyReads.ready) ?_
  rintro result made ⟨madeReads, same, node⟩
  refine ends_bind_of_ok (run_restoreBindings prevs made) ?_
  have undone := reads_undo madeReads.ready fun binding mem =>
    (stored binding mem).kept (bodyReads.trans madeReads).kept
  refine ends_eatToken (fun message => Or.inl ⟨message, rfl⟩) fun last closed tookLast closes => ?_
  have lastReads := tookLast.reads undone.ready
  have lastNext := tookLast.pending_of_token (by rw [closes]; simp)
  have undoneNext : pending (undo prevs made) = pending finished := same
  refine ends_pure ⟨((((openedReads.trans matchedReads).trans bodyReads).trans madeReads).trans
    undone).trans lastReads, .case lexeme.text pattern source last.text, rfl, ?_, ?_⟩
  · rw [first, patternNext, bodyNext, ← undoneNext, lastNext]
    simp [Source.lexemes, ← opens, ← closes]
  · intro marks
    rw [Source.MarksInRange] at marks
    obtain ⟨kid, rfl, bodyTree⟩ := tree marks
    obtain ⟨e, rfl, shape⟩ := node kid rfl
    refine ⟨e, rfl, ?_⟩
    have later : Kept made.store.heap closed.store.heap := (undone.trans lastReads).kept
    have kidTree := bodyTree.kept (madeReads.kept.trans later)
    rw [Source.Tree]
    cases pat with
    | none =>
        obtain rfl : e = kid := shape
        rw [if_pos (default.mp rfl)]
        exact kidTree
    | some pat =>
        have other : ¬ pattern.isDefault = true := fun yes => by
          cases default.mpr yes
        rw [if_neg other]
        exact ⟨pat, kid, shape.kept later, kidTree⟩

/-! ## Parts in a row -/

/-- Parts have been read one after the other. -/
def PartsRead (defect : Prop) (isCase : Bool) (before : Checker) (results : List (Option Ref))
    (after : Checker) (lexemes : List Lexeme) : Prop :=
  Reads defect before after ∧ ∃ parts : List Source, results.length = parts.length ∧
    (∀ part ∈ parts, part.isCase = isCase) ∧ lexemes = lexemesOfAll parts ∧
    (MarksInRangeAll parts → ∃ kids : List Ref, results = kids.map some ∧
      TreesOfAll after.store.heap parts kids)

theorem partsRead_nil {isCase : Bool} {after : Checker} (reads : Reads defect before after) :
    PartsRead defect isCase before [] after [] := by
  refine ⟨reads, [], rfl, by simp, rfl, fun _ => ⟨[], rfl, ?_⟩⟩
  rw [TreesOfAll]

/-- One more part in front. -/
theorem PartsRead.cons {isCase : Bool} {middle after : Checker} {result : Option Ref}
    {results : List (Option Ref)} {lexemes : List Lexeme} {source : Source}
    (reads : Reads defect before middle) (plain : source.isCase = isCase)
    (tree : source.MarksInRange → ∃ e, result = some e ∧ source.Tree middle.store.heap e)
    (others : PartsRead defect isCase middle results after lexemes) :
    PartsRead defect isCase before (result :: results) after (source.lexemes ++ lexemes) := by
  obtain ⟨more, parts, count, allPlain, same, trees⟩ := others
  refine ⟨reads.trans more, source :: parts, by simp [count], ?_, by rw [same, lexemesOfAll], ?_⟩
  · intro part mem
    rcases List.mem_cons.mp mem with rfl | mem
    · exact plain
    · exact allPlain part mem
  · intro marks
    rw [MarksInRangeAll] at marks
    obtain ⟨e, rfl, first⟩ := tree marks.1
    obtain ⟨kids, rfl, rest⟩ := trees marks.2
    refine ⟨e :: kids, rfl, ?_⟩
    rw [TreesOfAll]
    exact ⟨e, kids, rfl, first.kept more.kept, rest⟩

theorem ends_parts {fuel : Nat} (reads : ReadsCode defect fuel code) (arity : Nat)
    (ready : CanRead defect before) (enough : (pending before).length < fuel) :
    Ends (Rejects defect) (fun results after => results.length = arity ∧ ∃ lexemes,
        pending before = lexemes ++ pending after ∧
        PartsRead defect false before results after lexemes)
      ((List.replicate arity ()).mapM fun _ => code) before := by
  induction arity generalizing before with
  | zero => exact ends_pure ⟨rfl, [], rfl, partsRead_nil ⟨ready, kept_refl _⟩⟩
  | succ arity hyp =>
      rw [List.replicate_succ, List.mapM_cons]
      refine ends_bind (reads.tree before ready enough) ?_
      rintro result middle ⟨first, source, plain, next, tree⟩
      have count := congrArg List.length next
      simp only [List.length_append] at count
      refine ends_bind (hyp first.ready (by omega)) ?_
      rintro results after ⟨length, lexemes, rest, others⟩
      refine ends_pure ⟨by simp [length], source.lexemes ++ lexemes, ?_, ?_⟩
      · rw [next, rest, List.append_assoc]
      · exact .cons first plain tree others

/-- A loop that goes on until a closing parenthesis. -/
theorem ends_untilClose {α : Type} {post : α → Checker → Prop} {done more : CheckerM α}
    (ready : CanRead defect before)
    (close : ∀ text after, Reads defect before after →
      pending before = ⟨.Close, text⟩ :: pending after → after.store = before.store →
      Ends (Rejects defect) post done after)
    (eof : ∀ back lexeme rest, pending back = lexeme :: rest → lexeme.token = .Eof →
      Ends (Rejects defect) post more back)
    (goes : ∀ back, Reads defect before back → pending back = pending before →
      back.store = before.store → Ends (Rejects defect) post more back) :
    Ends (Rejects defect) post (nextToken >>= fun token =>
      if token = .Close then done else reinsertToken token >>= fun _ => more) before := by
  refine ends_nextToken fun lexeme middle took => ?_
  refine ends_ite (fun closes => ?_) fun _ => ?_
  · refine close lexeme.text middle (took.reads ready) ?_ took.store
    rw [took.pending_of_token (by rw [closes]; simp), ← closes]
  · refine ends_reinsertToken (took.room ready) ?_
    by_cases last : lexeme.token = .Eof
    · exact eof _ lexeme _ (pending_putBack took) last
    · exact goes _ (took.reads_putBack ready) (took.pending_putBack last) took.store

theorem ends_false {α : Type} {post : α → Checker → Prop} {m : CheckerM α}
    (ends : Ends (Rejects defect) (fun _ _ => False) m before) :
      Ends (Rejects defect) post m before :=
  ends.imp fun _ _ => False.elim

theorem ends_readCase_eof {fuel : Nat} {lexeme : Lexeme} {rest : List Lexeme}
    (next : pending before = lexeme :: rest) (eof : lexeme.token = .Eof) :
    Ends (Rejects defect) (fun _ _ => False) (readCase fuel code) before := by
  rw [readCase]
  refine ends_eatToken (fun message => Or.inl ⟨message, rfl⟩) fun other after took opens => ?_
  have same := took.pending_of_token (by rw [opens]; simp)
  rw [next] at same
  obtain ⟨rfl, -⟩ := List.cons.inj same
  rw [eof] at opens
  cases opens

/-- The cases of a `match` and the parenthesis after them. -/
theorem ends_readCases {fuel : Nat} (rounds : Nat) (reads : ReadsCode defect fuel code)
    {cases : List (Option Ref)} (ready : CanRead defect before)
    (enough : (pending before).length < fuel) (left : (pending before).length < rounds) :
    Ends (Rejects defect) (fun results after => ∃ new lexemes closing, results = cases ++ new ∧
        pending before = lexemes ++ ⟨.Close, closing⟩ :: pending after ∧
        PartsRead defect true before new after lexemes)
      (readCases fuel code rounds cases) before := by
  induction rounds generalizing before cases with
  | zero => omega
  | succ rounds hyp =>
      rw [readCases]
      refine ends_untilClose ready ?_ ?_ ?_
      · intro text after after_reads next _
        exact ends_pure ⟨[], [], text, by simp, next, partsRead_nil after_reads⟩
      · intro back lexeme rest next eof
        exact ends_bind (ends_false (ends_readCase_eof next eof)) fun _ _ => False.elim
      · intro back back_reads same _
        refine ends_bind (ends_readCase fuel reads back_reads.ready (by rwa [same])) ?_
        rintro result middle ⟨first, source, isCase, next, tree⟩
        have count := congrArg List.length next
        have positive := source.length_lexemes_pos
        simp only [List.length_append, same] at count
        refine (hyp first.ready (by omega) (by omega)).imp ?_
        rintro results after ⟨new, lexemes, closing, rfl, rest, others⟩
        refine ⟨result :: new, source.lexemes ++ lexemes, closing, by simp, ?_, ?_⟩
        · rw [← same, next, rest, List.append_assoc]
        · exact .cons (back_reads.trans first) isCase tree others

/-- The expressions of a `do` after the first one, and the parenthesis after them. -/
theorem ends_readDo {fuel : Nat} (rounds : Nat) (reads : ReadsCode defect fuel code)
    {acc : Option Ref} (ready : CanRead defect before)
    (enough : (pending before).length < fuel) (left : (pending before).length < rounds) :
    Ends (Rejects defect) (fun result after => ∃ results lexemes closing,
        pending before = lexemes ++ ⟨.Close, closing⟩ :: pending after ∧
        PartsRead defect false before results after lexemes ∧
        ∀ first kids, acc = some first → results = kids.map some →
          ∃ e, result = some e ∧ Sequenced after.store.heap first kids e)
      (readDo code rounds acc) before := by
  induction rounds generalizing before acc with
  | zero => omega
  | succ rounds hyp =>
      rw [readDo]
      refine ends_untilClose ready ?_ ?_ ?_
      · intro text after after_reads next _
        refine ends_pure ⟨[], [], text, next, partsRead_nil after_reads, ?_⟩
        rintro first kids rfl none
        obtain rfl : kids = [] := by simpa using none.symm
        exact ⟨first, rfl, .nil first⟩
      · intro back lexeme rest next eof
        exact ends_bind (ends_false (reads.eof (by omega) back lexeme rest next eof)) fun _ _ =>
          False.elim
      · intro back back_reads same _
        refine ends_bind (reads.tree back back_reads.ready (by rwa [same])) ?_
        rintro result middle ⟨first_reads, source, plain, next, tree⟩
        have count := congrArg List.length next
        have positive := source.length_lexemes_pos
        simp only [List.length_append, same] at count
        have run : (liftM (newCExpr .do_ [acc, result]) : CheckerM Ref).run middle =
            .ok (middle.store.heap.length,
              middle.allocate (.cexpr .do_ (kidsOf [acc, result]) false)) := rfl
        refine ends_bind_of_ok run ?_
        have made := first_reads.ready.allocate (.cexpr .do_ (kidsOf [acc, result]) false)
        refine (hyp made.ready (by change (pending middle).length < fuel; omega)
          (by change (pending middle).length < rounds; omega)).imp ?_
        rintro last after ⟨results, lexemes, closing, rest, others, chain⟩
        refine ⟨result :: results, source.lexemes ++ lexemes, closing, ?_, ?_, ?_⟩
        · rw [← same, next, ← show pending (middle.allocate _) = pending middle from rfl, rest,
            List.append_assoc]
        · refine .cons ((back_reads.trans first_reads).trans made) plain ?_ others
          intro marks
          obtain ⟨e, found, here⟩ := tree marks
          exact ⟨e, found, here.kept made.kept⟩
        · rintro first kids rfl all
          cases kids with
          | nil => cases all
          | cons kid kids =>
              obtain ⟨rfl, others_all⟩ := List.cons.inj all
              obtain ⟨e, rfl, sequenced⟩ := chain _ kids rfl others_all
              have node := IsNode.allocate middle .do_ [first, kid]
              exact ⟨e, rfl, .cons (node.kept others.1.kept) sequenced⟩

/-- The arguments of an application and the parenthesis after them. -/
theorem ends_readArgs {fuel : Nat} (rounds : Nat) (reads : ReadsCode defect fuel code)
    {acc : Ref} (ready : CanRead defect before) (bound : acc < before.store.heap.length)
    (enough : (pending before).length < fuel) (left : (pending before).length < rounds) :
    Ends (Rejects defect) (fun e after => ∃ results lexemes closing,
        pending before = lexemes ++ ⟨.Close, closing⟩ :: pending after ∧
        PartsRead defect false before results after lexemes ∧
        ∀ kids, results = kids.map some →
          if kids = [] then e = acc
          else IsNode after.store.heap .app (spineOf before.store.heap acc ++ kids) e)
      (readArgs code rounds acc) before := by
  induction rounds generalizing before acc with
  | zero => omega
  | succ rounds hyp =>
      rw [readArgs]
      refine ends_untilClose ready ?_ ?_ ?_
      · intro text after after_reads next _
        refine ends_pure ⟨[], [], text, next, partsRead_nil after_reads, ?_⟩
        intro kids none
        obtain rfl : kids = [] := by simpa using none.symm
        rfl
      · intro back lexeme rest next eof
        exact ends_bind (ends_false (reads.eof (by omega) back lexeme rest next eof)) fun _ _ =>
          False.elim
      · intro back back_reads same store
        refine ends_bind (reads.tree back back_reads.ready (by rwa [same])) ?_
        rintro result middle ⟨first_reads, source, plain, next, tree⟩
        have count := congrArg List.length next
        have positive := source.length_lexemes_pos
        simp only [List.length_append, same] at count
        have total := back_reads.trans first_reads
        refine ends_makeApp first_reads.ready (Nat.lt_of_lt_of_le bound total.kept.grows) ?_
        intro kids made made_reads made_same spine node
        refine (hyp made_reads.ready node.lt_length (by rw [made_same]; omega)
          (by rw [made_same]; omega)).imp ?_
        rintro e after ⟨results, lexemes, closing, rest, others, chain⟩
        refine ⟨result :: results, source.lexemes ++ lexemes, closing, ?_, ?_, ?_⟩
        · rw [← same, next, ← made_same, rest, List.append_assoc]
        · refine .cons (total.trans made_reads) plain ?_ others
          intro marks
          obtain ⟨kid, found, here⟩ := tree marks
          exact ⟨kid, found, here.kept made_reads.kept⟩
        · intro all_kids all
          cases all_kids with
          | nil => cases all
          | cons kid more =>
              obtain ⟨rfl, others_all⟩ := List.cons.inj all
              have spine_kept : spineOf middle.store.heap acc = spineOf before.store.heap acc :=
                spineOf_kept total.kept bound
              have extended : kids = spineOf before.store.heap acc ++ [kid] := by
                rw [spine kid rfl, spine_kept]
              have made_spine : spineOf made.store.heap middle.store.heap.length = kids := by
                have found : made.store.heap[middle.store.heap.length]? =
                    some (.cexpr .app kids false) := node
                rw [spineOf, found]
              have inner := chain more others_all
              simp only [reduceCtorEq, if_false]
              split at inner
              case isTrue none =>
                  obtain rfl := none
                  rw [inner, ← extended]
                  exact node.kept others.1.kept
              case isFalse some =>
                  rw [made_spine, extended, List.append_assoc] at inner
                  exact inner

/-! ## Forms -/

/-- The parts of a form have been read with the parenthesis after them. -/
def FormRead (defect : Prop) (head : Lexeme) (before : Checker) (result : Option Ref)
    (after : Checker) : Prop :=
  Reads defect before after ∧ ∃ parts closing,
    pending before = lexemesOfAll parts ++ ⟨.Close, closing⟩ :: pending after ∧
    (head.marksInRange → MarksInRangeAll parts → ∃ e, result = some e ∧ ProperParts head parts ∧
      ∃ kids, TreesOfAll after.store.heap parts kids ∧ Assembled after.store.heap head kids e)

theorem properParts_of_ne {head : Lexeme} {parts : List Source} (other : head.token ≠ .Match)
    (plain : ∀ part ∈ parts, part.isCase = false) : ProperParts head parts := by
  rw [ProperParts, if_neg other]
  exact plain

theorem PartsRead.later {isCase : Bool} {middle after : Checker} {results : List (Option Ref)}
    {lexemes : List Lexeme} (parts : PartsRead defect isCase before results middle lexemes)
    (reads : Reads defect middle after) : PartsRead defect isCase before results after lexemes := by
  obtain ⟨first, sources, count, plain, same, trees⟩ := parts
  refine ⟨first.trans reads, sources, count, plain, same, fun marks => ?_⟩
  obtain ⟨kids, found, tree⟩ := trees marks
  exact ⟨kids, found, trees_kept reads.kept tree⟩

/-- A form is read with its closing parenthesis, once its parts have been. -/
theorem formRead_of_parts {middle after : Checker} {head last : Lexeme} {result : Option Ref}
    {results : List (Option Ref)} {lexemes : List Lexeme} (other : head.token ≠ .Match)
    (next : pending before = lexemes ++ pending middle)
    (parts : PartsRead defect false before results middle lexemes)
    (took : Took middle last after) (closes : last.token = .Close)
    (made : ∀ kids : List Ref, head.marksInRange → results = kids.map some → ∃ e, result = some e ∧
      Assembled middle.store.heap head kids e) :
    FormRead defect head before result after := by
  have last_reads := took.reads parts.1.ready
  obtain ⟨reads, sources, -, plain, rfl, trees⟩ := parts
  refine ⟨reads.trans last_reads, sources, last.text, ?_, ?_⟩
  · rw [next, took.pending_of_token (by rw [closes]; simp)]
    simp [← closes]
  · intro marks all
    obtain ⟨kids, same, tree⟩ := trees all
    obtain ⟨e, rfl, assembled⟩ := made kids marks same
    exact ⟨e, rfl, properParts_of_ne other plain, kids, trees_kept last_reads.kept tree,
      assembled.kept last_reads.kept⟩

theorem ends_close {middle : Checker} {head : Lexeme} {result : Option Ref}
    {results : List (Option Ref)} {lexemes : List Lexeme} (other : head.token ≠ .Match)
    (next : pending before = lexemes ++ pending middle)
    (parts : PartsRead defect false before results middle lexemes)
    (made : ∀ kids : List Ref, head.marksInRange → results = kids.map some → ∃ e, result = some e ∧
      Assembled middle.store.heap head kids e) :
    Ends (Rejects defect) (FormRead defect head before)
      (eatToken .Close >>= fun _ => pure result) middle :=
  ends_eatToken (fun message => Or.inl ⟨message, rfl⟩) fun _ _ took closes =>
    ends_pure (formRead_of_parts other next parts took closes made)

theorem assembled_of_operator {heap : List Node} {head : Lexeme} {op : Op} {arity : Nat}
    {kids : List Ref} {e : Ref} (found : operatorOf head.token = some (op, arity))
    (count : kids.length = arity) (node : IsNode heap op kids e) : Assembled heap head kids e := by
  rw [Assembled, found]
  exact ⟨count, node⟩

theorem ends_readFixed {fuel arity : Nat} {op : Op} {head : Lexeme}
    (found : operatorOf head.token = some (op, arity)) (reads : ReadsCode defect fuel code)
    (ready : CanRead defect before) (enough : (pending before).length < fuel) :
    Ends (Rejects defect) (FormRead defect head before) (readFixed code op arity) before := by
  have other : head.token ≠ .Match := fun same => by simp [same, operatorOf] at found
  rw [readFixed]
  refine ends_bind (ends_parts reads arity ready enough) ?_
  rintro results middle ⟨length, lexemes, next, parts⟩
  have run : (liftM (newCExpr op results) : CheckerM Ref).run middle =
      .ok (middle.store.heap.length, middle.allocate (.cexpr op (kidsOf results) false)) := rfl
  refine ends_bind_of_ok run ?_
  have made := parts.1.ready.allocate (.cexpr op (kidsOf results) false)
  refine ends_close other next (parts.later made) ?_
  rintro kids - rfl
  refine ⟨_, rfl, assembled_of_operator found (by simpa using length) ?_⟩
  simpa [kidsOf_map_some] using IsNode.allocate middle op kids

theorem ends_withBinding {fuel : Nat} {name : String} {pair : Binding}
    (reads : ReadsCode defect fuel code) (ready : CanRead defect before)
    (stored : pair.Stored before.store.heap) (enough : (pending before).length < fuel) :
    Ends (Rejects defect) (ReadAs defect false before) (withBinding name pair code) before := by
  rw [withBinding]
  refine ends_bind_of_ok (m := symbolsInsert name pair) rfl ?_
  have bound := ready.bind name stored
  refine ends_bind (reads.tree _ bound.ready enough) ?_
  rintro body inner ⟨body_reads, source, plain, next, tree⟩
  refine ends_bind_of_ok (m := symbolsInsert name (before.symbols name)) rfl ?_
  have restored := body_reads.ready.bind name
    ((ready.table.symbols name).kept (bound.trans body_reads).kept)
  refine ends_pure ⟨(bound.trans body_reads).trans restored, source, plain, next, ?_⟩
  intro marks
  obtain ⟨e, found, here⟩ := tree marks
  exact ⟨e, found, here.kept restored.kept⟩

theorem ends_readLet {fuel : Nat} {head : Lexeme} (isLet : head.token = .At)
    (reads : ReadsCode defect fuel code) (ready : CanRead defect before)
    (enough : (pending before).length < fuel) :
    Ends (Rejects defect) (FormRead defect head before) (readLet code) before := by
  rw [readLet]
  refine ends_prefixId fun name named took => ?_
  have named_reads := took.reads ready
  refine ends_bind_of_ok (run_new (.sym name.text none)) ?_
  have made := named_reads.ready.allocate (.sym name.text none)
  have fewer : (pending named).length ≤ (pending before).length := by
    rcases took.next with next | ⟨-, dry, -⟩
    · simp [next]
    · simp [dry]
  refine ends_bind (reads.tree _ made.ready (Nat.lt_of_le_of_lt fewer enough)) ?_
  rintro value middle ⟨value_reads, source, plain, value_next, value_tree⟩
  change pending named = _ at value_next
  have value_count := congrArg List.length value_next
  have positive := source.length_lexemes_pos
  simp only [List.length_append] at value_count
  have next : pending before = name :: pending named := by
    rcases took.next with next | ⟨-, dry, -⟩
    · exact next
    · rw [dry] at value_count
      simp at value_count
      omega
  let var := named.store.heap.length
  have stored : (⟨some var, none⟩ : Binding).Stored middle.store.heap :=
    (stored_new named (.sym name.text none)).kept value_reads.kept
  refine ends_bind (ends_withBinding reads value_reads.ready stored (by omega)) ?_
  rintro body inner ⟨body_reads, source', plain', body_next, body_tree⟩
  refine ends_eatToken (fun message => Or.inl ⟨message, rfl⟩) fun last after took_last closes => ?_
  have last_reads := took_last.reads body_reads.ready
  have run : (liftM (newCExpr .let_ [some var, value, body]) : CheckerM Ref).run after =
      .ok (after.store.heap.length,
        after.allocate (.cexpr .let_ (kidsOf [some var, value, body]) false)) := rfl
  refine ends_bind_of_ok run ?_
  have final := last_reads.ready.allocate (.cexpr .let_ (kidsOf [some var, value, body]) false)
  have later := (body_reads.trans last_reads).trans final
  have total := ((named_reads.trans made).trans value_reads).trans later
  refine ends_pure ⟨total, [.leaf name, source, source'], last.text, ?_, ?_⟩
  · have last_next := took_last.pending_of_token (by rw [closes]; simp)
    rw [next, value_next, body_next, last_next]
    simp [lexemesOfAll, Source.lexemes, ← closes]
    rfl
  · intro marks all
    simp only [MarksInRangeAll] at all
    obtain ⟨kid, rfl, first⟩ := value_tree all.2.1
    obtain ⟨kid', rfl, second⟩ := body_tree all.2.2.1
    have shape : operatorOf head.token = some (.let_, 3) := by
      rw [isLet]
      rfl
    refine ⟨_, rfl, properParts_of_ne (by rw [isLet]; simp)
      (by simp [plain, plain', Source.isCase_leaf]),
      [var, kid, kid'], ?_, assembled_of_operator shape rfl (IsNode.allocate after _ _)⟩
    simp only [TreesOfAll, Source.Tree]
    refine ⟨var, [kid, kid'], rfl, ?_, kid, [kid'], rfl, first.kept later.kept, kid', [], rfl,
      second.kept (last_reads.trans final).kept, rfl⟩
    exact Nat.lt_of_lt_of_le (stored.bound var rfl) later.kept.grows

/-! ## Marks -/

theorem number_of_marksInRange {head : Lexeme} {number : Nat}
    (found : head.markNumber = some number) (marks : head.marksInRange) :
    1 ≤ number ∧ number ≤ 32 := marks number found

theorem ends_readIfMarked {fuel : Nat} {head : Lexeme} (isMark : head.token = .IfMarked)
    (text : before.text = head.text) (reads : ReadsCode defect fuel code)
    (ready : CanRead defect before) (enough : (pending before).length < fuel) :
    Ends (Rejects defect) (FormRead defect head before) (readIfMarked code) before := by
  have other : head.token ≠ .Match := by
    rw [isMark]
    simp
  have found : head.markNumber = some (markIndex head.text 8) := by
    rw [Lexeme.markNumber, isMark]
  rw [readIfMarked]
  refine ends_tokenStr ?_
  refine ends_bind (ends_parts reads 3 ready enough) ?_
  rintro results middle ⟨length, lexemes, next, parts⟩
  rw [text]
  by_cases inside : 1 ≤ markIndex head.text 8 ∧ markIndex head.text 8 ≤ 32
  · rw [if_pos inside]
    let mark : Node := .int (markIndex head.text 8 - 1)
    have made := parts.1.ready.allocate mark
    let node : Node := .cexpr .ifmarked (kidsOf (some middle.store.heap.length :: results)) false
    have final := made.ready.allocate node
    refine ends_bind_of_ok (run_new mark) ?_
    refine ends_bind_of_ok (run_new node) ?_
    refine ends_bind_of_ok run_pure ?_
    refine ends_close other next (parts.later (made.trans final)) ?_
    rintro kids - rfl
    refine ⟨_, rfl, ?_⟩
    have count : kids.length = 3 := by simpa using length
    rw [Assembled, isMark]
    refine ⟨count, middle.store.heap.length, ?_⟩
    have same : kidsOf (some middle.store.heap.length :: kids.map some) =
        middle.store.heap.length :: kids := by
      rw [kidsOf, kidsOf_map_some]
    have here := IsNode.allocate (middle.allocate mark) .ifmarked
      (kidsOf (some middle.store.heap.length :: kids.map some))
    simpa [node, same] using here
  · rw [if_neg inside]
    refine ends_bind_of_ok run_pure ?_
    refine ends_close other next parts ?_
    intro kids marks
    exact absurd (number_of_marksInRange found marks) inside

theorem ends_readMarkVar {fuel : Nat} {head : Lexeme} (isMark : head.token = .MarkVar)
    (text : before.text = head.text) (reads : ReadsCode defect fuel code)
    (ready : CanRead defect before) (enough : (pending before).length < fuel) :
    Ends (Rejects defect) (FormRead defect head before) (readMarkVar code) before := by
  have other : head.token ≠ .Match := by
    rw [isMark]
    simp
  have found : head.markNumber = some (markIndex head.text 7) := by
    rw [Lexeme.markNumber, isMark]
  rw [readMarkVar]
  refine ends_tokenStr ?_
  rw [text]
  by_cases inside : 1 ≤ markIndex head.text 7 ∧ markIndex head.text 7 ≤ 32
  · rw [if_pos inside]
    let mark : Node := .int (markIndex head.text 7 - 1)
    have made := ready.allocate mark
    refine ends_bind_of_ok (run_new mark) ?_
    refine ends_bind (reads.tree _ made.ready enough) ?_
    rintro result middle ⟨kid_reads, source, plain, next, tree⟩
    change pending before = _ at next
    let node : Node := .cexpr .markvar (kidsOf [some before.store.heap.length, result]) false
    have final := kid_reads.ready.allocate node
    refine ends_bind_of_ok (run_new node) ?_
    refine ends_bind_of_ok run_pure ?_
    have parts : PartsRead defect false before [result] middle (source.lexemes ++ []) :=
      .cons (made.trans kid_reads) plain tree (partsRead_nil ⟨kid_reads.ready, kept_refl _⟩)
    refine ends_close other ?_ (parts.later final) ?_
    · rw [next]
      simp
      rfl
    · rintro kids - same
      obtain ⟨kid, rfl⟩ : ∃ kid, kids = [kid] := by
        have count := congrArg List.length same
        simp at count
        exact List.length_eq_one_iff.mp count.symm
      obtain rfl : result = some kid := by simpa using same
      refine ⟨_, rfl, ?_⟩
      rw [Assembled, isMark]
      exact ⟨rfl, before.store.heap.length, IsNode.allocate _ _ _⟩
  · rw [if_neg inside]
    refine ends_bind_of_ok run_pure ?_
    refine ends_close other (List.nil_append _).symm (partsRead_nil ⟨ready, kept_refl _⟩) ?_
    intro kids marks
    exact absurd (number_of_marksInRange found marks) inside

/-! ## The remaining forms -/

/-- The state with a numeral overwritten. -/
abbrev Checker.overwrite (checker : Checker) (r : Ref) (node : Node) : Checker :=
  { checker with runtime := { checker.runtime with
      store := { checker.runtime.store with heap := checker.runtime.store.heap.set r node } } }

theorem run_put (r : Ref) (node : Node) : (liftM (put r node) : CheckerM Unit).run before =
    .ok ((), before.overwrite r node) := rfl

theorem CanRead.overwrite {r : Ref} {old node : Node} (ready : CanRead defect before)
    (found : before.store.heap[r]? = some old) (leaf : ∀ op kids flag, old ≠ .cexpr op kids flag)
    (leaf' : ∀ op kids flag, node ≠ .cexpr op kids flag) :
    Reads defect before (before.overwrite r node) := by
  have kept : Kept before.store.heap (before.overwrite r node).store.heap :=
    kept_set found leaf leaf'
  refine ⟨⟨ready.slots, ⟨fun name => (ready.table.symbols name).kept kept, ?_⟩, ready.defects⟩,
    kept⟩
  intro name e entry
  exact Nat.lt_of_lt_of_le (ready.table.prog name e entry) kept.grows

theorem ends_readTilde {fuel : Nat} {head : Lexeme} (isTilde : head.token = .Tilde)
    (reads : ReadsCode defect fuel code) (ready : CanRead defect before)
    (enough : (pending before).length < fuel) :
    Ends (Rejects defect) (FormRead defect head before) (readTilde code) before := by
  have other : head.token ≠ .Match := by
    rw [isTilde]
    simp
  rw [readTilde]
  refine ends_bind (reads.tree before ready enough) ?_
  rintro result middle ⟨kid_reads, source, plain, next, tree⟩
  -- only a mark operation out of range leaves no tree behind
  have broken (missing : ∀ e, result = some e → ¬ source.Tree middle.store.heap e) : defect := by
    have out : ¬ source.MarksInRange := fun marks => by
      obtain ⟨e, found, here⟩ := tree marks
      exact missing e found here
    obtain ⟨lexeme, mem, defective⟩ := Source.exists_defective out
    exact ready.defects lexeme (by rw [next]; exact List.mem_append_left _ mem) defective
  have parts : PartsRead defect false before [result] middle (source.lexemes ++ []) :=
    .cons kid_reads plain tree (partsRead_nil ⟨kid_reads.ready, kept_refl _⟩)
  cases result with
  | none => exact ends_bind (ends_stop (Or.inr ⟨rfl, broken (by simp)⟩)) fun _ _ => False.elim
  | some e =>
      refine ends_bind_of_ok (m := deref (some e)) rfl ?_
      cases found : middle.store.heap[e]? with
      | none =>
          have absent : Ends (Rejects defect) (fun _ _ => False) (liftM (load e) : CheckerM Node)
              middle := by
            refine ends_zoom (ends_zoom ?_)
            change Ends _ _ (deref middle.store.heap[e]?) middle.store
            rw [found]
            refine ends_stop (Or.inr ⟨rfl, broken ?_⟩)
            rintro _ ⟨⟩ here
            exact absurd here.lt_length (List.getElem?_eq_none_iff.mp found).not_gt
          exact ends_bind absent fun _ _ => False.elim
      | some old =>
          have load_run : (liftM (load e) : CheckerM Node).run middle = .ok (old, middle) :=
            run_onStore_ok.mpr ⟨middle.store, run_load_ok.mpr ⟨found, rfl⟩, rfl⟩
          refine ends_bind_of_ok load_run ?_
          have finish (node : Node) (leaf : ∀ op kids flag, old ≠ .cexpr op kids flag)
              (leaf' : ∀ op kids flag, node ≠ .cexpr op kids flag) :
              Ends (Rejects defect) (FormRead defect head before)
                (liftM (put e node) >>= fun _ => eatToken .Close >>= fun _ => pure (some e))
                middle := by
            have written := kid_reads.ready.overwrite found leaf leaf'
            refine ends_bind_of_ok (run_put e node) ?_
            refine ends_close other ?_ (parts.later written) ?_
            · rw [next, List.append_nil]
              rfl
            · rintro kids - same
              obtain ⟨kid, rfl⟩ : ∃ kid, kids = [kid] := by
                have count := congrArg List.length same
                simp at count
                exact List.length_eq_one_iff.mp count.symm
              obtain rfl : e = kid := by simpa using same
              refine ⟨e, rfl, ?_⟩
              rw [Assembled, isTilde]
              rfl
          split
          · exact finish _ (by simp) (by simp)
          · exact finish _ (by simp) (by simp)
          · exact ends_report _

theorem ends_readMatch {fuel : Nat} {head : Lexeme} (isMatch : head.token = .Match)
    (reads : ReadsCode defect fuel code) (ready : CanRead defect before)
    (enough : (pending before).length < fuel) :
    Ends (Rejects defect) (FormRead defect head before) (readMatch fuel code) before := by
  rw [readMatch]
  refine ends_bind (reads.tree before ready enough) ?_
  rintro result middle ⟨first_reads, source, plain, next, tree⟩
  have count := congrArg List.length next
  simp only [List.length_append] at count
  refine ends_bind (ends_readCases fuel reads first_reads.ready (by omega) (by omega)) ?_
  rintro results after ⟨new, lexemes, closing, rfl, rest, more, cases, length, isCase, rfl, trees⟩
  by_cases none : ([result] ++ new).length = 1
  · rw [if_pos none]
    exact ends_report _
  rw [if_neg none]
  refine ends_bind_of_ok (run_new (.cexpr .match_ (kidsOf ([result] ++ new)) false)) ?_
  have made := more.ready.allocate (.cexpr .match_ (kidsOf ([result] ++ new)) false)
  refine ends_pure ⟨(first_reads.trans more).trans made, source :: cases, closing, ?_, ?_⟩
  · rw [next, rest, lexemesOfAll, List.append_assoc]
    rfl
  · intro marks all
    rw [MarksInRangeAll] at all
    obtain ⟨kid, rfl, first⟩ := tree all.1
    obtain ⟨kids, rfl, others⟩ := trees all.2
    refine ⟨_, rfl, ?_, kid :: kids, ?_, ?_⟩
    · rw [ProperParts, if_pos isMatch]
      exact ⟨source, cases, rfl, plain, isCase⟩
    · rw [TreesOfAll]
      exact ⟨kid, kids, rfl, first.kept (more.trans made).kept, trees_kept made.kept others⟩
    · rw [Assembled, isMatch]
      refine ⟨?_, ?_⟩
      · simp at none
        have positive := List.length_pos_iff.mpr none
        simp only [List.length_cons]
        omega
      · have same : kidsOf ([some kid] ++ kids.map some) = kid :: kids :=
          kidsOf_map_some (kid :: kids)
        simpa only [same] using IsNode.allocate after .match_ (kidsOf ([some kid] ++ kids.map some))

theorem assembled_of_application {heap : List Node} {head : Lexeme} {kids : List Ref} {e : Ref}
    (other : operatorOf head.token = none)
    (special : head.token ∉ [.Do, .Match, .MarkVar, .IfMarked, .Tilde])
    (node : if kids = [] then e < heap.length
      else ∃ headKids, IsNode heap .app (headKids ++ kids) e) : Assembled heap head kids e := by
  rw [Assembled, other]
  dsimp only
  split
  case h_6 => exact node
  all_goals
    rename_i token
    simp [token] at special

theorem ends_readApp {fuel : Nat} {head : Lexeme} (other : operatorOf head.token = none)
    (special : head.token ∉ [.Do, .Match, .MarkVar, .IfMarked, .Tilde])
    (reads : ReadsCode defect fuel code)
    (ready : CanRead defect before) (enough : (pending before).length < fuel) :
    Ends (Rejects defect) (FormRead defect head before) (readApp fuel code) before := by
  have inner (ref : Ref) (middle : Checker) (bound : ref < middle.store.heap.length)
      (found : Reads defect before middle) (same : pending middle = pending before) :
      Ends (Rejects defect) (FormRead defect head before)
        (readArgs code fuel ref >>= fun e => pure (some e)) middle := by
    refine ends_bind (ends_readArgs fuel reads found.ready bound (by rwa [same]) (by rwa [same])) ?_
    rintro e after ⟨results, lexemes, closing, next, ⟨more, parts, length, plain, rfl, trees⟩,
      shape⟩
    refine ends_pure ⟨found.trans more, parts, closing, by rw [← same, next], ?_⟩
    intro marks all
    obtain ⟨kids, rfl, tree⟩ := trees all
    refine ⟨e, rfl, properParts_of_ne (by simp at special; exact special.2.1) plain, kids, tree, ?_⟩
    have node := shape kids rfl
    refine assembled_of_application other special ?_
    split at node
    case isTrue empty =>
        rw [if_pos empty, node]
        exact Nat.lt_of_lt_of_le bound more.kept.grows
    case isFalse filled =>
        rw [if_neg filled]
        exact ⟨_, node⟩
  rw [readApp]
  refine ends_tokenStr ?_
  refine ends_progsIndex ready fun entry middle found same bound => ?_
  cases entry with
  | some prog =>
      refine ends_bind_of_ok run_pure ?_
      exact inner prog middle (bound prog rfl) found same
  | none =>
      refine ends_symbolsGet ?_
      refine ends_bind_of_ok run_pure ?_
      cases symbol : (middle.symbols before.text).expr with
      | none => exact ends_report _
      | some ref =>
          exact inner ref middle ((found.ready.table.symbols before.text).bound ref symbol) found
            same

/-! ## All code -/

theorem ends_form {fuel : Nat} {head : Lexeme} (text : before.text = head.text)
    (reads : ReadsCode defect fuel (readCode fuel))
    (ready : CanRead defect before) (enough : (pending before).length < fuel) :
    Ends (Rejects defect) (FormRead defect head before)
      (match head.token with
        | .Do => readCode fuel >>= fun first => readDo (readCode fuel) fuel first
        | .Fail => readFixed (readCode fuel) .fail 1
        | .At => readLet (readCode fuel)
        | .IfMarked => readIfMarked (readCode fuel)
        | .IfEqual => readFixed (readCode fuel) .ifequal 4
        | .Match => readMatch fuel (readCode fuel)
        | .MarkVar => readMarkVar (readCode fuel)
        | .MpAdd => readFixed (readCode fuel) .add 2
        | .MpMul => readFixed (readCode fuel) .mul 2
        | .MpDiv => readFixed (readCode fuel) .div 2
        | .MpNeg => readFixed (readCode fuel) .neg 1
        | .MpzToMpq => readFixed (readCode fuel) .mpzToMpq 1
        | .MpIfNeg => readFixed (readCode fuel) .ifneg 3
        | .MpIfZero => readFixed (readCode fuel) .ifzero 3
        | .Tilde => readTilde (readCode fuel)
        | .Compare => readFixed (readCode fuel) .compare 4
        | .Eof => report "Unexpected end of file."
        | _ => readApp fuel (readCode fuel)) before := by
  split
  case h_1 isDo =>
      refine ends_bind (reads.tree before ready enough) ?_
      rintro first middle ⟨first_reads, source, first_plain, next, tree⟩
      have count := congrArg List.length next
      simp only [List.length_append] at count
      refine (ends_readDo fuel reads first_reads.ready (by omega) (by omega)).imp ?_
      rintro result after ⟨results, lexemes, closing, rest, parts, chain⟩
      obtain ⟨all_reads, sources, length, all_plain, same, trees⟩ :=
        PartsRead.cons first_reads first_plain tree parts
      refine ⟨all_reads, sources, closing, by rw [next, rest, ← same]; simp, ?_⟩
      intro marks all
      obtain ⟨kids, found, kid_trees⟩ := trees all
      cases kids with
      | nil => cases found
      | cons kid kids =>
          obtain ⟨rfl, others⟩ := List.cons.inj found
          obtain ⟨e, rfl, sequenced⟩ := chain kid kids rfl others
          refine ⟨e, rfl, properParts_of_ne (by rw [isDo]; simp) all_plain, kid :: kids, kid_trees,
            ?_⟩
          rw [Assembled, isDo]
          exact ⟨kid, kids, rfl, sequenced⟩
  case h_3 isLet => exact ends_readLet isLet reads ready enough
  case h_4 isMark => exact ends_readIfMarked isMark text reads ready enough
  case h_6 isMatch => exact ends_readMatch isMatch reads ready enough
  case h_7 isMark => exact ends_readMarkVar isMark text reads ready enough
  case h_15 isTilde => exact ends_readTilde isTilde reads ready enough
  case h_17 => exact ends_report _
  case h_18 =>
      refine ends_readApp ?_ ?_ reads ready enough
      · cases token : head.token <;> simp_all [operatorOf]
      · simp_all
  all_goals
    rename_i token
    exact ends_readFixed (by rw [token]; rfl) reads ready enough

/-- Code begins with a lexeme. -/
theorem ends_readCode_eof (fuel : Nat) {lexeme : Lexeme} {rest : List Lexeme}
    (next : pending before = lexeme :: rest) (eof : lexeme.token = .Eof) :
    Ends (Rejects defect) (fun _ _ => False) (readCode (fuel + 1)) before := by
  rw [readCode]
  refine ends_nextToken fun other middle took => ?_
  have same : other = lexeme := by
    rcases took.next with found | ⟨dry, -, -⟩
    · rw [next] at found
      exact (List.cons.inj found).1.symm
    · rw [next] at dry
      cases dry
  rw [same, eof]
  exact ends_report _

/-- A single lexeme has been read. -/
theorem readAs_leaf {lexeme : Lexeme} {middle after : Checker} {e : Ref}
    (next : pending before = lexeme :: pending middle) (first : Reads defect before middle)
    (reads : Reads defect middle after) (same : pending after = pending middle)
    (bound : e < after.store.heap.length) : ReadAs defect false before (some e) after := by
  refine ⟨first.trans reads, .leaf lexeme, rfl, by rw [next, same]; rfl, fun _ => ⟨e, rfl, ?_⟩⟩
  rw [Source.Tree]
  exact bound

theorem ends_newRat {lexeme : Lexeme} {middle : Checker} {numerator denominator : Nat}
    (ready : CanRead defect before) (took : Took before lexeme middle)
    (next : pending before = lexeme :: pending middle) (rational : lexeme.token = .Rational)
    (value : rationalValue lexeme.text = some (numerator, denominator)) :
    Ends (Rejects defect) (ReadAs defect false before)
      ((liftM (newRat numerator denominator) : CheckerM Ref) >>= fun e =>
        pure (some e)) middle := by
  have middle_reads := took.reads ready
  rw [newRat]
  by_cases zero : denominator = 0
  · rw [if_pos zero]
    have broken : defect := by
      refine ready.defects lexeme (by simp [next]) (Or.inl ⟨rational, numerator, ?_⟩)
      rw [value, zero]
    have stops : Ends (Rejects defect) (fun _ _ => False)
        (onStore (Exec.stop .undefined : StoreM Ref)) middle := by
      refine ends_zoom (ends_zoom ?_)
      exact ends_stop (Or.inr ⟨rfl, broken⟩)
    exact ends_bind stops fun _ _ => False.elim
  · rw [if_neg zero]
    refine ends_bind_of_ok (run_new _) ?_
    refine ends_pure (readAs_leaf next middle_reads (middle_reads.ready.allocate _) rfl ?_)
    simp

/-- Reading code reports an error or returns its tree, unless there is a defective lexeme. -/
theorem readsCode_readCode (fuel : Nat) : ReadsCode defect fuel (readCode fuel) := by
  induction fuel with
  | zero => exact ⟨fun _ _ enough => absurd enough (Nat.not_lt_zero _), fun positive =>
      absurd positive (Nat.lt_irrefl 0)⟩
  | succ fuel hyp =>
      refine ⟨fun before ready enough => ?_, fun _ _ _ _ => ends_readCode_eof fuel⟩
      rw [readCode]
      refine ends_nextToken fun lexeme middle took => ?_
      have middle_reads := took.reads ready
      split
      case h_1 opens =>
          have first := took.pending_of_token (by rw [opens]; simp)
          refine ends_nextToken fun head inner tookHead => ?_
          by_cases eof : head.token = .Eof
          · rw [eof]
            exact ends_report _
          have second := tookHead.pending_of_token eof
          have count := congrArg List.length first
          have inner_count := congrArg List.length second
          simp only [List.length_cons] at count inner_count
          have inner_reads := tookHead.reads middle_reads.ready
          refine (ends_form tookHead.text hyp inner_reads.ready (by omega)).imp ?_
          rintro result after ⟨form_reads, parts, closing, rest, tree⟩
          refine ⟨(middle_reads.trans inner_reads).trans form_reads,
            .form lexeme.text head parts closing, rfl, ?_, ?_⟩
          · rw [first, second, rest]
            simp [Source.lexemes, ← opens]
          · intro marks
            rw [Source.MarksInRange] at marks
            obtain ⟨e, found, proper, kids, trees, assembled⟩ := tree marks.1 marks.2
            refine ⟨e, found, ?_⟩
            rw [Source.Tree]
            exact ⟨marks.1, proper, kids, trees, assembled⟩
      case h_2 natural =>
          have next := took.pending_of_token (by rw [natural]; simp)
          refine ends_tokenStr ?_
          split
          · refine ends_bind_of_ok (run_new _) ?_
            refine ends_pure (readAs_leaf next middle_reads (middle_reads.ready.allocate _) rfl ?_)
            simp
          · exact ends_report _
      case h_3 rational =>
          have next := took.pending_of_token (by rw [rational]; simp)
          refine ends_tokenStr ?_
          split
          case h_1 numerator denominator value =>
              rw [took.text] at value
              exact ends_newRat ready took next rational value
          case h_2 => exact ends_report _
      case h_4 => exact ends_report _
      case h_5 eof =>
          have next := took.pending_of_token eof
          refine ends_tokenStr ?_
          refine ends_symbolsGet ?_
          split
          case h_1 symbol found =>
              have stored := middle_reads.ready.table.symbols middle.text
              exact ends_pure (readAs_leaf next middle_reads ⟨middle_reads.ready, kept_refl _⟩ rfl
                (stored.bound symbol found))
          case h_2 =>
              refine ends_progsIndex middle_reads.ready fun entry after reads same bound => ?_
              split
              · exact ends_pure (readAs_leaf next middle_reads reads same (bound _ rfl))
              · exact ends_report _

end Readers

/-! ## What is read -/

/-- `read_code`, or `read_case` with it. -/
def reader (fuel : Nat) : Bool → CheckerM (Option Ref)
  | false => readCode fuel
  | true => readCase fuel (readCode fuel)

/-- A reader reports an error or returns the tree of what was written, without leaving out a
part. -/
def ReadsWell (isCase : Bool) (before : Checker) (outcome : Except Stop (Option Ref × Checker)) :
    Prop :=
  (∃ message, outcome = .error (.report message)) ∨
    ∃ e after source, outcome = .ok (some e, after) ∧ Source.isCase source = isCase ∧
      pending before = source.lexemes ++ pending after ∧ source.Tree after.store.heap e

theorem ends_reader (isCase : Bool) (fuel : Nat) {checker : Checker} {defect : Prop}
    (ready : CanRead defect checker) (enough : (pending checker).length < fuel) :
    Ends (Rejects defect) (ReadAs defect isCase checker) (reader fuel isCase) checker := by
  have reads : ReadsCode defect fuel (readCode fuel) := readsCode_readCode fuel
  cases isCase with
  | false => exact reads.tree checker ready enough
  | true => exact ends_readCase fuel reads ready enough

/-- The first state of the program with texts to read. -/
abbrev readingTexts (texts : List String) : Checker :=
  { initChecker (fun _ _ => false) (fun _ => false) with input := scan texts }

theorem tableStored_readingTexts (texts : List String) : TableStored (readingTexts texts) := by
  refine ⟨fun name => ?_, by simp [initChecker]⟩
  change (if name = "type" then (⟨some statType, some statKind⟩ : Binding)
    else if name = "mpz" then ⟨some statMpz, some statType⟩
    else if name = "mpq" then ⟨some statMpq, some statType⟩
    else Binding.none).Stored (initChecker _ _).store.heap
  split_ifs
  all_goals
    refine ⟨?_, by simp [Binding.none]⟩
    rintro e ⟨⟩
  all_goals decide

end Lfsc
