import Mathlib.Data.List.Nodup
import Lfsc.CheckFile
import Lfsc.CodeWrites

/-!
# Accounts of holes

Every hole that is read becomes an argument of an application, and the application answers for it:
when it ends the hole is filled, or it is recorded why it is not.  An account says this of all holes
read between two states, except for those that an application still holds.
-/

namespace Lfsc

open Exec

/-! ## Holes in the store -/

/-- Whether an object is a hole. -/
def IsHole (heap : List Node) (r : Ref) : Prop := ∃ val, heap[r]? = some (.hole val)

theorem IsHole.lt_length {heap : List Node} {r : Ref} (hole : IsHole heap r) : r < heap.length := by
  obtain ⟨val, found⟩ := hole
  obtain ⟨bound, -⟩ := List.getElem?_eq_some_iff.mp found
  exact bound

theorem Writes.grows {before after : Store} (writes : Writes before after) :
    before.heap.length ≤ after.heap.length := by
  induction writes with
  | refl => exact Nat.le_refl _
  | tail _ write hyp =>
      cases write with
      | new solid => simpa using Nat.le_succ_of_le hyp
      | put loaded overwrites => simpa using hyp
      | ask => exact hyp

/-- A hole stays a hole. -/
theorem Writes.isHole {before after : Store} (writes : Writes before after) {r : Ref}
    (hole : IsHole before.heap r) : IsHole after.heap r := by
  induction writes with
  | refl => exact hole
  | tail _ write hyp =>
      obtain ⟨val, found⟩ := hyp
      cases write with
      | new solid =>
          exact ⟨val, by rw [List.getElem?_append_left (IsHole.lt_length ⟨val, found⟩), found]⟩
      | @put target old node loaded overwrites =>
          by_cases same : target = r
          · subst same
            rw [found] at loaded
            cases loaded
            cases overwrites with
            | hole value => exact ⟨some value, by
                simp [List.getElem?_set_self (IsHole.lt_length ⟨none, found⟩)]⟩
          · exact ⟨val, by rw [List.getElem?_set_ne same, found]⟩
      | ask => exact ⟨val, found⟩

/-! ## Accounts -/

/-- The hole of an event. -/
def HoleEvent.hole : HoleEvent → Ref
  | .deferred hole | .ascribed hole => hole

/-- Holes that are held by an application, or on record. -/
def listed (events : List HoleEvent) (held : List Ref) : List Ref :=
  held ++ events.map HoleEvent.hole

theorem listed_append (events events' : List HoleEvent) (held held' : List Ref) :
    (listed (events ++ events') (held ++ held')).Perm
      (listed events held ++ listed events' held') := by
  simp only [listed, List.map_append, List.append_assoc]
  exact (List.perm_append_comm_assoc _ _ _).append_left held

/-- An account of the holes read between two states, of which some are still held. -/
structure AccountedBy (events : List HoleEvent) (held : List Ref) (before after : Checker) :
    Prop where
  trace : after.holeTrace = before.holeTrace ++ events
  tailCalls : after.tailCalls = before.tailCalls
  grows : before.store.heap.length ≤ after.store.heap.length
  kept : ∀ r, IsHole before.store.heap r → IsHole after.store.heap r
  made : ∀ r ∈ listed events held,
    before.store.heap.length ≤ r ∧ IsHole after.store.heap r
  once : (listed events held).Nodup
  unfilled : ∀ r, after.store.heap[r]? = some (.hole none) →
    before.store.heap[r]? = some (.hole none) ∨ r ∈ listed events held
  deferred : ∀ r, .deferred r ∈ events → before.tailCalls = true

theorem Plain.accountedBy {before after : Checker} (plain : Plain before after) :
    AccountedBy [] [] before after where
  trace := by simp [plain.holeTrace]
  tailCalls := plain.tailCalls
  grows := plain.writes.grows
  kept := fun _ => plain.writes.isHole
  made := by simp [listed]
  once := by simp [listed]
  unfilled := fun _ hole => .inl (plain.writes.unfilled hole)
  deferred := by simp

theorem AccountedBy.trans {events events' : List HoleEvent} {held held' : List Ref}
    {first second third : Checker} (left : AccountedBy events held first second)
    (right : AccountedBy events' held' second third) :
    AccountedBy (events ++ events') (held ++ held') first third where
  trace := by rw [right.trace, left.trace, List.append_assoc]
  tailCalls := right.tailCalls.trans left.tailCalls
  grows := Nat.le_trans left.grows right.grows
  kept := fun r hole => right.kept r (left.kept r hole)
  made := by
    intro r mem
    rcases List.mem_append.mp ((listed_append ..).mem_iff.mp mem) with earlier | later
    · obtain ⟨fresh, hole⟩ := left.made r earlier
      exact ⟨fresh, right.kept r hole⟩
    · obtain ⟨fresh, hole⟩ := right.made r later
      exact ⟨Nat.le_trans left.grows fresh, hole⟩
  once := by
    refine (listed_append ..).nodup_iff.mpr (List.nodup_append.mpr ⟨left.once, right.once, ?_⟩)
    intro r earlier s later same
    obtain ⟨-, hole⟩ := left.made r earlier
    obtain ⟨fresh, -⟩ := right.made s later
    subst same
    exact Nat.not_lt.mpr fresh hole.lt_length
  unfilled := by
    intro r hole
    rw [(listed_append ..).mem_iff, List.mem_append]
    rcases right.unfilled r hole with old | later
    · rcases left.unfilled r old with older | earlier
      · exact .inl older
      · exact .inr (.inl earlier)
    · exact .inr (.inr later)
  deferred := by
    intro r mem
    rcases List.mem_append.mp mem with earlier | later
    · exact left.deferred r earlier
    · exact left.tailCalls ▸ right.deferred r later

/-- A held hole that turns out to be filled needs no account. -/
theorem AccountedBy.release {events : List HoleEvent} {hole : Ref} {held : List Ref}
    {before after : Checker} (account : AccountedBy events (hole :: held) before after)
    (filled : after.store.heap[hole]? ≠ some (.hole none)) : AccountedBy events held before after :=
  { account with
    made := fun r mem => account.made r (List.mem_cons_of_mem _ mem)
    once := (List.nodup_cons.mp account.once).2
    unfilled := by
      intro r unfilled
      rcases account.unfilled r unfilled with old | mem
      · exact .inl old
      · rcases List.mem_cons.mp mem with rfl | rest
        · exact (filled unfilled).elim
        · exact .inr rest }

/-- A held hole is put on record. -/
theorem AccountedBy.record {events : List HoleEvent} {event : HoleEvent} {held : List Ref}
    {before after next : Checker} (account : AccountedBy events (event.hole :: held) before after)
    (store : next.store = after.store) (tailCalls : next.tailCalls = after.tailCalls)
    (trace : next.holeTrace = after.holeTrace ++ [event])
    (deferred : ∀ r, event = .deferred r → before.tailCalls = true) :
    AccountedBy (events ++ [event]) held before next := by
  have moved : (listed (events ++ [event]) held).Perm (listed events (event.hole :: held)) := by
    simp only [listed, List.map_append, List.map_cons, List.map_nil, List.cons_append]
    rw [← List.append_assoc]
    exact List.perm_append_singleton _ _
  constructor
  · rw [trace, account.trace, List.append_assoc]
  · rw [tailCalls, account.tailCalls]
  · rw [store]
    exact account.grows
  · rw [store]
    exact account.kept
  · intro r mem
    rw [store]
    exact account.made r (moved.mem_iff.mp mem)
  · exact moved.nodup_iff.mpr account.once
  · intro r unfilled
    rw [store] at unfilled
    exact (account.unfilled r unfilled).imp_right moved.mem_iff.mpr
  · intro r mem
    rcases List.mem_append.mp mem with earlier | last
    · exact account.deferred r earlier
    · exact deferred r (List.mem_singleton.mp last).symm

/-! ## Promises -/

/-- An application that holds some expressions, null pointers among them or not, can give an
account. With a null pointer among them it cannot end. -/
def Promise (holes : List (Option Ref)) (before after : Checker) : Prop :=
  none ∈ holes ∨ ∃ events held, held.map some = holes ∧ AccountedBy events held before after

/-- All holes read between two states are accounted for. -/
abbrev Accounted : Checker → Checker → Prop := Promise []

theorem Promise.trans {holes holes' : List (Option Ref)} {first second third : Checker}
    (left : Promise holes first second) (right : Promise holes' second third) :
    Promise (holes ++ holes') first third := by
  rcases left with null | ⟨events, held, rfl, account⟩
  · exact .inl (List.mem_append_left _ null)
  · rcases right with null | ⟨events', held', rfl, account'⟩
    · exact .inl (List.mem_append_right _ null)
    · exact .inr ⟨_, _, List.map_append, account.trans account'⟩

theorem Promise.then {holes : List (Option Ref)} {first second third : Checker}
    (left : Promise holes first second) (right : Accounted second third) :
    Promise holes first third := by
  simpa using left.trans right

theorem Plain.accounted {before after : Checker} (plain : Plain before after) :
    Accounted before after := .inr ⟨[], [], rfl, plain.accountedBy⟩

instance : Std.Refl Accounted := ⟨fun checker => (Std.Refl.refl (r := Plain) checker).accounted⟩

instance : IsTrans Checker Accounted := ⟨fun _ _ _ => Promise.trans⟩

@[simp]
theorem keeps_accounted {α : Type} {m : CheckerM α} (kept : Keeps Plain m) : Keeps Accounted m :=
  kept.mono fun _ _ plain => plain.accounted

/-! ## The end of an application -/

/-- What follows the reading of an object, on the state as it is. -/
theorem run_load_bind_ok {α : Type} {r : Ref} {k : Node → CheckerM α} {value : α}
    {before after : Checker} :
    (onStore (load r) >>= k).run before = .ok (value, after) ↔
      ∃ node, before.store.heap[r]? = some node ∧ (k node).run before = .ok (value, after) := by
  constructor
  · intro run
    obtain ⟨_, node, read, rest⟩ := run_bind_ok.mp run
    obtain ⟨_, inner, rfl⟩ := run_onStore_ok.mp read
    obtain ⟨found, rfl⟩ := run_load_ok.mp inner
    exact ⟨node, found, rest⟩
  · rintro ⟨node, found, rest⟩
    exact run_bind_ok.mpr ⟨before, node,
      run_onStore_ok.mpr ⟨before.store, run_load_ok.mpr ⟨found, rfl⟩, rfl⟩, rest⟩

theorem Promise.release {hole : Ref} {holes : List (Option Ref)} {before after : Checker}
    (promise : Promise (some hole :: holes) before after)
    (filled : after.store.heap[hole]? ≠ some (.hole none)) : Promise holes before after := by
  rcases promise with null | ⟨events, held, same, account⟩
  · exact .inl (by simpa using null)
  · cases held with
    | nil => cases same
    | cons first rest =>
        cases same
        exact .inr ⟨events, rest, rfl, account.release filled⟩

theorem Promise.record (event : HoleEvent) {holes : List (Option Ref)}
    {before after next : Checker} (promise : Promise (some event.hole :: holes) before after)
    (store : next.store = after.store) (tailCalls : next.tailCalls = after.tailCalls)
    (trace : next.holeTrace = after.holeTrace ++ [event])
    (deferred : ∀ r, event = .deferred r → after.tailCalls = true) : Promise holes before next := by
  rcases promise with null | ⟨events, held, same, account⟩
  · exact .inl (by simpa using null)
  · cases held with
    | nil => cases same
    | cons first rest =>
        obtain ⟨rfl, rfl⟩ : event.hole = first ∧ rest.map some = holes := by
          simpa [eq_comm] using same
        exact .inr ⟨_, rest, rfl, account.record store tailCalls trace fun r mem =>
          account.tailCalls ▸ deferred r mem⟩

/-- At the end of an application every hole that it holds is accounted for. -/
theorem promise_checkHoles {inAsc : Bool} {holes : List (Option Ref)} {start before after : Checker}
    {value : Unit} (promise : Promise holes start before)
    (run : (checkHoles inAsc holes).run before = .ok (value, after)) : Accounted start after := by
  induction holes generalizing before with
  | nil =>
      obtain ⟨-, rfl⟩ := run_pure_ok.mp run
      exact promise
  | cons hole rest hyp =>
      rw [checkHoles] at run
      obtain ⟨_, r, read, run⟩ := run_bind_ok.mp run
      obtain ⟨rfl, rfl⟩ := run_deref_ok.mp read
      obtain ⟨node, found, run⟩ := run_load_bind_ok.mp run
      split at run
      · cases inAsc with
        | true =>
            simp only [if_true, recordHole, run_bind_ok, run_modify_ok] at run
            obtain ⟨_, _, rfl, _, _, rfl, run⟩ := run
            refine hyp ?_ run
            exact Promise.record (.ascribed r) promise rfl rfl rfl (by simp)
        | false => exact (run_report_bind_ok.mp run).elim
      · rename_i filled
        refine hyp (promise.release ?_) run
        rw [found]
        simpa using filled

/-- A tail call is made only if every hole that the application holds is accounted for. -/
theorem promise_checkHolesTail {fuel : Nat} {domain : Ref} {holes : List (Option Ref)}
    {start before after : Checker} {value : Unit} (promise : Promise holes start before)
    (tail : before.tailCalls = true)
    (run : (checkHolesTail fuel domain holes).run before = .ok (value, after)) :
    Accounted start after := by
  induction holes generalizing before with
  | nil =>
      obtain ⟨-, rfl⟩ := run_pure_ok.mp run
      exact promise
  | cons hole rest hyp =>
      rw [checkHolesTail] at run
      obtain ⟨_, r, read, run⟩ := run_bind_ok.mp run
      obtain ⟨rfl, rfl⟩ := run_deref_ok.mp read
      obtain ⟨node, found, run⟩ := run_load_bind_ok.mp run
      split at run
      · obtain ⟨_, occurs, test, run⟩ := run_bind_ok.mp run
        obtain ⟨_, inner, rfl⟩ := run_onStore_ok.mp test
        obtain rfl := keeps_freeIn _ _ _ _ _ _ inner
        split at run
        · exact (run_report_bind_ok.mp run).elim
        · simp only [recordHole, run_bind_ok, run_modify_ok] at run
          obtain ⟨_, _, rfl, run⟩ := run
          refine hyp ?_ ?_ run
          · exact Promise.record (.deferred r) promise rfl rfl rfl fun _ _ => tail
          · exact tail
      · rename_i filled
        refine hyp (promise.release ?_) tail run
        rw [found]
        simpa using filled

/-! ## Results of `check` -/

/-- The hole that a term leaves to the application whose argument it is. -/
def Checked.left (checked : Checked) : List (Option Ref) :=
  if checked.hole then [checked.term] else []

/-- A computation that reads a term accounts for all holes but one, which the term may be where a
hole is allowed. -/
def Reports (isHole : Bool) (m : CheckerM Checked) : Prop :=
  ∀ before result after, m.run before = .ok (result, after) →
    Promise result.left before after ∧ (isHole = false → result.hole = false)

/-- A computation that reads a term which is no hole. -/
abbrev Discharges (m : CheckerM Checked) : Prop :=
  Ensures Accounted (fun result => result.hole = false) m

theorem Discharges.answers {isHole : Bool} {m : CheckerM Checked} (settles : Discharges m) :
    Reports isHole m := by
  intro before result after run
  obtain ⟨accounted, solid⟩ := settles before result after run
  refine ⟨?_, fun _ => solid⟩
  simpa [Checked.left, solid] using accounted

theorem Reports.settles {m : CheckerM Checked} (answers : Reports false m) : Discharges m := by
  intro before result after run
  obtain ⟨promise, solid⟩ := answers before result after run
  have none := solid rfl
  exact ⟨by simpa [Checked.left, none] using promise, none⟩

theorem reports_bind {α : Type} {isHole : Bool} {m : CheckerM α} {k : α → CheckerM Checked}
    (first : Keeps Accounted m) (rest : ∀ value, Reports isHole (k value)) :
    Reports isHole (m >>= k) := by
  intro before result after run
  obtain ⟨middle, value, firstRun, restRun⟩ := run_bind_ok.mp run
  obtain ⟨promise, solid⟩ := rest value _ _ _ restRun
  exact ⟨by simpa using (first _ _ _ firstRun).trans promise, solid⟩

/-- What follows the reading of a term leaves the same hole to the application. -/
theorem reports_then {isHole : Bool} {m : CheckerM Checked} {k : Checked → CheckerM Checked}
    (first : Reports isHole m)
    (rest : ∀ checked, Ensures Accounted (fun result : Checked => result.hole = checked.hole ∧
      (result.term = checked.term ∨ result.term = none)) (k checked)) :
    Reports isHole (m >>= k) := by
  intro before result after run
  obtain ⟨middle, checked, firstRun, restRun⟩ := run_bind_ok.mp run
  obtain ⟨promise, solid⟩ := first _ _ _ firstRun
  obtain ⟨accounted, same, term⟩ := rest checked _ _ _ restRun
  refine ⟨?_, fun disallowed => same.trans (solid disallowed)⟩
  rcases term with kept | null
  · rw [Checked.left, same, kept]
    exact promise.then accounted
  · cases hole : checked.hole with
    | true => exact .inl (by simp [Checked.left, same, hole, null])
    | false =>
        rw [Checked.left, hole] at promise
        rw [Checked.left, same, hole]
        exact promise.then accounted

/-! ## Steps of the checker -/

@[simp]
theorem keeps_plain_getOpenParens : Keeps Plain getOpenParens :=
  keeps_bind keeps_tables_get fun _ => keeps_pure _

@[simp]
theorem keeps_plain_addOpenParens (change : Int) : Keeps Plain (addOpenParens change) :=
  keeps_plain_modify (fun _ => rfl) (fun _ => rfl) fun _ => rfl

@[simp]
theorem keeps_plain_setAllowRun (allow : Bool) : Keeps Plain (setAllowRun allow) :=
  keeps_plain_modify (fun _ => rfl) (fun _ => rfl) fun _ => rfl

@[simp]
theorem keeps_plain_record (event : Event) : Keeps Plain (record event) :=
  keeps_plain_modify (fun _ => rfl) (fun _ => rfl) fun _ => rfl

@[simp]
theorem keeps_plain_eatRparen : Keeps Plain eatRparen :=
  keeps_bind (keeps_plain_eatToken _) fun _ => keeps_plain_addOpenParens _

@[simp]
theorem keeps_plain_eatRparens (count : Nat) : Keeps Plain (eatRparens count) := by
  induction count with
  | zero => exact keeps_pure ()
  | succ count hyp => exact keeps_bind keeps_plain_eatRparen fun _ => hyp

@[simp]
theorem keeps_plain_eatExcess (prev : Int) : Keeps Plain (eatExcess prev) :=
  keeps_bind keeps_plain_getOpenParens fun _ => keeps_plain_eatRparens _

@[simp]
theorem keeps_plain_saveLocal (name : String) (old : Binding) : Keeps Plain (saveLocal name old) :=
  keeps_bind (keeps_plain_modify (fun _ => rfl) (fun _ => rfl) fun _ => rfl) fun _ =>
    keeps_plain_record _

@[simp]
theorem keeps_plain_writeComputed (pointer : Bool) (classifier : Ref) :
    Keeps Plain (writeComputed pointer classifier) :=
  keeps_ite (keeps_pure _) (keeps_stop _)

@[simp]
theorem keeps_writes_bindSymbol (fuel : Nat) (symbol e : Ref) :
    Keeps Writes (bindSymbol fuel symbol e) := by
  rw [bindSymbol]
  repeat' first
    | with_reducible refine keeps_bind ?_ fun _ => ?_
    | split
    | simp

@[simp]
theorem keeps_plain_insertAndBindSymbol (fuel : Nat) (name : String) (symbol e : Ref)
    (type : Option Ref) : Keeps Plain (insertAndBindSymbol fuel name symbol e type) :=
  keeps_bind (keeps_tables_liftM (keeps_writes_bindSymbol fuel symbol e)) fun _ =>
    keeps_tables_symbolsInsert _ _

@[simp]
theorem keeps_writes_isTypeOrKind (classifier : Ref) : Keeps Writes (isTypeOrKind classifier) := by
  rw [isTypeOrKind]
  repeat' first
    | with_reducible refine keeps_bind ?_ fun _ => ?_
    | simp

@[simp]
theorem keeps_writes_newPi (fuel : Nat) (symbol domain range : Option Ref) :
    Keeps Writes (newPi fuel symbol domain range) := by
  rw [newPi]
  repeat' first
    | with_reducible refine keeps_bind ?_ fun _ => ?_
    | simp

@[simp]
theorem keeps_writes_buildPis (fuel : Nat) (decls : List (Ref × Option Ref)) (ret : Option Ref) :
    Keeps Writes (buildPis fuel decls ret) := by
  induction decls generalizing ret with
  | nil => exact keeps_pure ret
  | cons decl earlier hyp => exact keeps_bind (keeps_writes_newPi _ _ _ _) fun _ => hyp _

@[simp]
theorem keeps_writes_buildValidatePi (fuel : Nat) (decls : List (Ref × Option Ref))
    (ret : Option Ref) (retKind : Ref) (create : Bool) :
    Keeps Writes (buildValidatePi fuel decls ret retKind create) := by
  rw [buildValidatePi]
  repeat' first
    | with_reducible refine keeps_bind ?_ fun _ => ?_
    | split
    | simp

@[simp]
theorem keeps_plain_annotatedRange (fuel : Nat) (domain expected : Option Ref) :
    Keeps Plain (annotatedRange fuel domain expected) := by
  cases expected with
  | none => exact keeps_pure none
  | some expected =>
      rw [annotatedRange]
      repeat' first
        | with_reducible refine keeps_bind ?_ fun _ => ?_
        | split
        | simp

@[simp]
theorem keeps_plain_readLambda (expected : Option Ref) : Keeps Plain (readLambda expected) := by
  unfold readLambda
  repeat' first
    | with_reducible refine keeps_bind ?_ fun _ => ?_
    | split
    | simp

@[simp]
theorem keeps_plain_inTailPosition (args : CheckArgs) : Keeps Plain (inTailPosition args) :=
  keeps_bind keeps_tables_get fun _ => keeps_pure _

@[simp]
theorem keeps_runWrites_runPremise (fuel : Nat) (code expected : Ref) :
    Keeps RunWrites (runPremise fuel code expected) := by
  rw [runPremise]
  repeat' first
    | exact keeps_stop _
    | with_reducible refine keeps_bind ?_ fun _ => ?_
    | split
    | simp

/-! ## Terms -/

section Terms

variable {check : CheckArgs → CheckerM Checked} (kept : ∀ args, Reports args.isHole (check args))

theorem discharges_check (kept : ∀ args, Reports args.isHole (check args)) {args : CheckArgs}
    (solid : args.isHole = false) : Discharges (check args) :=
  Reports.settles (solid ▸ kept args)

theorem keeps_check_solid (kept : ∀ args, Reports args.isHole (check args)) {args : CheckArgs}
    (solid : args.isHole = false) : Keeps Accounted (check args) :=
  (discharges_check kept solid).keeps

theorem keeps_accounted_withBinding {α : Type} {name : String} {pair : Binding}
    {body : CheckerM α} (keptBody : Keeps Accounted body) :
    Keeps Accounted (withBinding name pair body) := by
  rw [withBinding]
  refine keeps_bind (by simp) fun prev => keeps_bind keptBody fun result => ?_
  exact keeps_bind (by simp) fun _ => keeps_pure _

theorem ensures_withBinding {α : Type} {name : String} {pair : Binding} {body : CheckerM α}
    {post : α → Prop} (ensured : Ensures Accounted post body) :
    Ensures Accounted post (withBinding name pair body) := by
  rw [withBinding]
  refine ensures_step (by simp) fun prev => ensures_bind ensured fun result holds => ?_
  exact ensures_step (by simp) fun _ => ensures_pure holds

include kept

theorem keeps_accounted_checkDomain : Keeps Accounted (checkDomain check) := by
  rw [checkDomain]
  repeat' first
    | exact keeps_check_solid kept rfl
    | with_reducible refine keeps_bind ?_ fun _ => ?_
    | simp

theorem ensures_checkBangRange (args : CheckArgs) :
    Ensures Accounted (fun parts => parts.2.2.hole = false) (checkBangRange check args) := by
  rw [checkBangRange]
  refine ensures_step (by simp) fun id => ensures_step (by simp) fun sym => ?_
  refine ensures_step (by simp) fun prevo => ?_
  refine ensures_step (keeps_accounted_checkDomain kept) fun domain => ?_
  refine ensures_bind (ensures_withBinding ?_) fun range solid => ensures_pure solid
  refine ensures_bind (discharges_check kept rfl) fun range solid => ?_
  refine ensures_step (by simp) fun _ => ensures_step (by simp) fun _ => ?_
  exact ensures_pure solid

theorem discharges_checkBang (fuel : Nat) (args : CheckArgs) :
    Discharges (checkBang fuel check args) := by
  rw [checkBang]
  refine ensures_bind (ensures_checkBangRange kept args) fun parts solid => ?_
  repeat' first
    | exact ensures_stop
    | exact ensures_pure solid
    | with_reducible refine ensures_step ?_ fun _ => ?_
    | split
    | simp

theorem keeps_accounted_checkDeclListItem : Keeps Accounted (checkDeclListItem check) := by
  rw [checkDeclListItem]
  repeat' first
    | exact keeps_check_solid kept rfl
    | with_reducible refine keeps_bind ?_ fun _ => ?_
    | split
    | simp

omit kept in
@[simp]
theorem keeps_plain_bindDecl (id : String) (type : Option Ref) :
    Keeps Plain (bindDecl id type) := by
  rw [bindDecl]
  repeat' first
    | with_reducible refine keeps_bind ?_ fun _ => ?_
    | split
    | simp

theorem keeps_accounted_checkDeclItems (create : Bool) (rounds : Nat) (acc : DeclList) :
    Keeps Accounted (checkDeclItems create check rounds acc) := by
  induction rounds generalizing acc with
  | zero => exact keeps_stop _
  | succ rounds hyp =>
      rw [checkDeclItems]
      repeat' first
        | exact keeps_accounted_checkDeclListItem kept
        | with_reducible refine keeps_bind ?_ fun _ => ?_
        | split
        | simp [hyp]

theorem keeps_accounted_checkDeclList (fuel : Nat) (create : Bool) :
    Keeps Accounted (checkDeclList fuel create check) :=
  keeps_bind (by simp) fun _ => keeps_accounted_checkDeclItems kept create fuel _

theorem discharges_checkArrow (fuel : Nat) (args : CheckArgs) :
    Discharges (checkArrow fuel check args) := by
  rw [checkArrow]
  refine ensures_step (keeps_accounted_checkDeclList kept fuel _) fun decls => ?_
  refine ensures_step (keeps_check_solid kept rfl) fun ret => ?_
  repeat' first
    | exact ensures_pure rfl
    | with_reducible refine ensures_step ?_ fun _ => ?_
    | split
    | simp

theorem discharges_checkPound (fuel : Nat) (args : CheckArgs) :
    Discharges (checkPound fuel check args) := by
  rw [checkPound]
  refine ensures_step (by simp) fun id => ensures_step (by simp) fun sym => ?_
  refine ensures_step (by simp) fun prevo => ?_
  refine ensures_step (keeps_accounted_checkDomain kept) fun domain => ?_
  refine ensures_step (keeps_accounted_withBinding ?_) fun parts => ?_
  · repeat' first
      | exact keeps_check_solid kept rfl
      | with_reducible refine keeps_bind ?_ fun _ => ?_
      | split
      | simp
  · repeat' first
      | exact ensures_pure rfl
      | with_reducible refine ensures_step ?_ fun _ => ?_
      | split
      | simp

theorem discharges_checkPercent (args : CheckArgs) : Discharges (checkPercent check args) := by
  rw [checkPercent]
  repeat' first
    | exact ensures_stop
    | exact discharges_check kept rfl
    | exact keeps_check_solid kept rfl
    | with_reducible refine ensures_step ?_ fun _ => ?_
    | split
    | simp

theorem discharges_checkLambda (args : CheckArgs) : Discharges (checkLambda check args) := by
  rw [checkLambda]
  repeat' first
    | exact ensures_pure rfl
    | exact discharges_check kept rfl
    | exact keeps_check_solid kept rfl
    | with_reducible refine ensures_step ?_ fun _ => ?_
    | split
    | simp

theorem discharges_checkCaret (fuel : Nat) (args : CheckArgs) :
    Discharges (checkCaret fuel check args) := by
  rw [checkCaret]
  repeat' first
    | exact ensures_stop
    | exact ensures_pure rfl
    | exact keeps_check_solid kept rfl
    | with_reducible refine ensures_step ?_ fun _ => ?_
    | split
    | simp

theorem discharges_checkColon (fuel : Nat) (args : CheckArgs) :
    Discharges (checkColon fuel check args) := by
  rw [checkColon]
  repeat' first
    | exact ensures_stop
    | exact ensures_pure rfl
    | exact keeps_check_solid kept rfl
    | with_reducible refine ensures_step ?_ fun _ => ?_
    | split
    | simp

theorem reports_checkAt (fuel : Nat) (args : CheckArgs) :
    Reports args.isHole (checkAt fuel check args) := by
  rw [checkAt]
  refine reports_bind (by simp) fun id => reports_bind (by simp) fun sym => ?_
  refine reports_bind (by simp) fun prevo => reports_bind (keeps_check_solid kept rfl) fun trm => ?_
  refine reports_bind (by simp) fun _ => reports_bind (by simp) fun e => ?_
  refine reports_bind (by simp) fun prev => reports_bind (by simp) fun tail => ?_
  split
  · exact reports_bind (by simp) fun _ => kept args
  · refine reports_bind (by simp) fun inner => ?_
    refine reports_then (kept { args with inAsc := false }) fun body => ?_
    refine ensures_step (by simp) fun _ => ensures_step (by simp) fun _ => ?_
    exact ensures_step (by simp) fun _ => ensures_pure ⟨rfl, .inl rfl⟩

omit kept in
/-- A literal is negated in place and the term returned. -/
theorem ensures_negate {literal : Ref} {old node : Node} {e : Checked} {before after : Checker}
    {result : Checked} (found : before.store.heap[literal]? = some old)
    (overwrites : Overwrites old node)
    (run : (do
      onStore (put literal node)
      return e : CheckerM Checked).run before = .ok (result, after)) :
    Accounted before after ∧ result = e := by
  have plain := plain_put_bind found overwrites (keeps_tables_pure e) run
  obtain ⟨_, _, -, done⟩ := run_bind_ok.mp run
  exact ⟨plain.accounted, (run_pure_ok.mp done).1.symm⟩

omit kept in
/-- The sign of a numeral, which is changed in place. -/
theorem ensures_sign (create : Bool) (e : Checked) :
    Ensures Accounted (fun result : Checked => result.hole = e.hole ∧
      (result.term = e.term ∨ result.term = none)) (do
        if create then
          let literal ← deref e.term
          match ← load literal with
          | .int value =>
              put literal (.int (-value))
              return e
          | .rat value =>
              put literal (.rat (-value))
              return e
          | _ => report "Negative sign with expr that is not an int. literal."
        else return { e with term := none } : CheckerM Checked) := by
  refine ensures_ite (ensures_step (by simp) fun literal => ?_) (ensures_pure ⟨rfl, .inr rfl⟩)
  intro before result after run
  obtain ⟨node, found, run⟩ := run_load_bind_ok.mp run
  cases node with
  | int value =>
      obtain ⟨accounted, rfl⟩ := ensures_negate found (.int value) run
      exact ⟨accounted, rfl, .inl rfl⟩
  | rat value =>
      obtain ⟨accounted, rfl⟩ := ensures_negate found (.rat value) run
      exact ⟨accounted, rfl, .inl rfl⟩
  | _ => exact (run_stop_ok.mp run).elim

theorem reports_checkTilde (args : CheckArgs) : Reports args.isHole (checkTilde check args) := by
  rw [checkTilde]
  refine reports_bind (by simp) fun prevo => ?_
  refine reports_then (kept { args with inAsc := false }) fun e => ?_
  refine ensures_step (by simp) fun _ => ensures_step (by simp) fun _ => ?_
  have sign := ensures_sign args.create e
  cases args.expected with
  | none =>
      refine ensures_step (by simp) fun type => ensures_ite ?_ sign
      exact ensures_step (keeps_stop _) fun _ => sign
  | some expected =>
      refine ensures_step (by simp) fun type => ensures_ite ?_ sign
      exact ensures_step (keeps_stop _) fun _ => sign

/-! ### Applications -/

omit kept in
@[simp]
theorem keeps_plain_isTailArg (args : CheckArgs) (headtp range : Ref) :
    Keeps Plain (isTailArg args headtp range) := by
  rw [isTailArg]
  repeat' first
    | with_reducible refine keeps_bind ?_ fun _ => ?_
    | simp

omit kept in
theorem run_isTailArg_tailCalls {args : CheckArgs} {headtp range : Ref} {before after : Checker}
    (run : (isTailArg args headtp range).run before = .ok (true, after)) :
    after.tailCalls = true := by
  simp only [isTailArg, run_bind_ok] at run
  obtain ⟨flagged, flag, flagRun, got, checker, getRun, ranged, op, opRun, done⟩ := run
  have getPlain : Plain flagged got := keeps_tables_get _ _ _ getRun
  have opPlain : Plain got ranged := keeps_tables_liftM (keeps_writes_getop range) _ _ _ opRun
  obtain ⟨rfl, rfl⟩ : flagged = checker ∧ flagged = got := by
    change Except.ok (flagged, flagged) = Except.ok (checker, got) at getRun
    simpa using getRun
  obtain ⟨tail, rfl⟩ := run_pure_ok.mp done
  rw [opPlain.tailCalls]
  exact (by simpa using tail : _ ∧ _).1

/-- An argument may add a hole to those that the application holds. -/
theorem promise_checkArg {args : CheckArgs} {prevo : Int} {headtp domain : Ref}
    {headtrm : Option Ref} {holes : List (Option Ref)} {start before after : Checker}
    {result : Option Ref × List (Option Ref)} (promise : Promise holes start before)
    (run : (checkArg check args prevo headtp domain headtrm holes).run before =
      .ok (result, after)) : Promise result.2 start after := by
  simp only [checkArg, run_bind_ok] at run
  obtain ⟨named, var, varRun, flagged, varInRange, flagRun, argued, arg, argRun, eaten, _, eatRun,
    rest⟩ := run
  have first : Accounted before flagged := (keeps_accounted (by simp) _ _ _ varRun).trans
    (keeps_accounted (by simp) _ _ _ flagRun)
  obtain ⟨answer, -⟩ := kept _ _ _ _ argRun
  have second : Promise (holes ++ arg.left) start eaten :=
    ((promise.then first).trans answer).then (keeps_accounted (by simp) _ _ _ eatRun)
  have last : Accounted eaten after ∧ result.2 = holes ++ arg.left := by
    refine (?_ : Ensures Accounted (fun result => result.2 = holes ++ arg.left) _) _ _ _ rest
    have same : (if arg.hole then holes ++ [arg.term] else holes) = holes ++ arg.left := by
      cases hole : arg.hole <;> simp [Checked.left, hole]
    repeat' first
      | exact ensures_pure same
      | with_reducible refine ensures_step ?_ fun _ => ?_
      | split
      | simp
  rw [last.2]
  exact second.then last.1

omit kept in
/-- A computation that ends an application accounts for the holes that the application holds. -/
def Closes (tail : Bool) (holes : List (Option Ref)) (m : CheckerM Checked) : Prop :=
  ∀ start before result after, Promise holes start before →
    (tail = true → before.tailCalls = true) → m.run before = .ok (result, after) →
      Accounted start after ∧ result.hole = false

omit kept in
theorem closes_stop {tail : Bool} {holes : List (Option Ref)} {why : Stop} :
    Closes tail holes (Exec.stop why) := by
  intro start before result after _ _ run
  exact (run_stop_ok.mp run).elim

omit kept in
theorem closes_bind {α : Type} {tail : Bool} {holes : List (Option Ref)} {m : CheckerM α}
    {k : α → CheckerM Checked} (first : Keeps Plain m)
    (rest : ∀ value, Closes tail holes (k value)) : Closes tail holes (m >>= k) := by
  intro start before result after promise tailCalls run
  obtain ⟨middle, value, firstRun, restRun⟩ := run_bind_ok.mp run
  have plain := first _ _ _ firstRun
  exact rest value start middle result after (promise.then plain.accounted)
    (fun called => plain.tailCalls ▸ tailCalls called) restRun

omit kept in
theorem closes_ends {tail inAsc : Bool} {holes : List (Option Ref)} {term computed : Option Ref} :
    Closes tail holes (do
      checkHoles inAsc holes
      return { term, computed } : CheckerM Checked) := by
  intro start before result after promise _ run
  obtain ⟨_, _, holesRun, run⟩ := run_bind_ok.mp run
  obtain ⟨rfl, rfl⟩ := run_pure_ok.mp run
  exact ⟨promise_checkHoles promise holesRun, rfl⟩

theorem closes_tailCall {fuel : Nat} {domain : Ref} {holes : List (Option Ref)} {args : CheckArgs}
    {computed : Option Ref} (solid : args.isHole = false) :
    Closes true holes (do
      checkHolesTail fuel domain holes
      let arg ← check args
      return { arg with computed } : CheckerM Checked) := by
  intro start before result after promise tail run
  obtain ⟨_, _, holesRun, run⟩ := run_bind_ok.mp run
  obtain ⟨_, arg, argRun, run⟩ := run_bind_ok.mp run
  obtain ⟨rfl, rfl⟩ := run_pure_ok.mp run
  obtain ⟨answered, none⟩ := discharges_check kept solid _ _ _ argRun
  exact ⟨(promise_checkHolesTail promise (tail rfl) holesRun).then answered, none⟩

theorem closes_checkTailArg (fuel : Nat) (args : CheckArgs) (domain range : Ref)
    (holes : List (Option Ref)) :
    Closes true holes (checkTailArg fuel check args domain range holes) := by
  rw [checkTailArg]
  repeat' first
    | exact closes_tailCall kept rfl
    | exact closes_stop
    | with_reducible refine closes_bind ?_ fun _ => ?_
    | split
    | simp

omit kept in
theorem closes_checkAppEnd (fuel : Nat) (args : CheckArgs) (headtrm : Option Ref) (headtp : Ref)
    (holes : List (Option Ref)) :
    Closes false holes (checkAppEnd fuel args headtrm headtp holes) := by
  rw [checkAppEnd]
  generalize (if args.create = true then headtrm else none) = term
  repeat' first
    | exact closes_ends
    | exact closes_stop
    | with_reducible refine closes_bind ?_ fun _ => ?_
    | split
    | simp

omit kept in
theorem closes_isTailArg {args : CheckArgs} {headtp range : Ref} {holes : List (Option Ref)}
    {yes no : CheckerM Checked} (called : Closes true holes yes) (read : Closes false holes no) :
    Closes false holes (do if ← isTailArg args headtp range then yes else no) := by
  intro start before result after promise _ run
  obtain ⟨tested, tail, tailRun, run⟩ := run_bind_ok.mp run
  have plain := keeps_plain_isTailArg _ _ _ _ _ _ tailRun
  cases tail with
  | true =>
      exact called _ _ _ _ (promise.then plain.accounted)
        (fun _ => run_isTailArg_tailCalls tailRun) run
  | false => exact read _ _ _ _ (promise.then plain.accounted) (by simp) run

theorem closes_checkArg {args : CheckArgs} {prevo : Int} {headtp domain : Ref}
    {headtrm : Option Ref} {holes : List (Option Ref)}
    {k : Option Ref × List (Option Ref) → CheckerM Checked}
    (rest : ∀ headtrm holes, Closes false holes (k (headtrm, holes))) :
    Closes false holes (checkArg check args prevo headtp domain headtrm holes >>= k) := by
  intro start before result after promise _ run
  obtain ⟨_, ⟨headtrm', holes'⟩, argRun, run⟩ := run_bind_ok.mp run
  exact rest _ _ _ _ _ _ (promise_checkArg kept promise argRun) (by simp) run

theorem closes_checkAppArgs (fuel : Nat) (args : CheckArgs) (prevo : Int) (rounds : Nat)
    (headtrm : Option Ref) (headtp : Ref) (holes : List (Option Ref)) :
    Closes false holes (checkAppArgs fuel check args prevo rounds headtrm headtp holes) := by
  induction rounds generalizing headtrm headtp holes with
  | zero => exact closes_stop
  | succ rounds hyp =>
      rw [checkAppArgs]
      repeat' first
        | exact closes_stop
        | exact closes_checkAppEnd _ _ _ _ _
        | exact hyp _ _ _
        | exact closes_checkTailArg kept _ _ _ _ _
        | with_reducible refine closes_isTailArg ?_ ?_
        | with_reducible refine closes_checkArg kept fun _ _ => ?_
        | with_reducible refine closes_bind ?_ fun _ => ?_
        | split
        | simp

theorem discharges_checkApp (fuel : Nat) (args : CheckArgs) (c : Token) :
    Discharges (checkApp fuel check args c) := by
  have looped : ∀ headtrm headtp prevo, Discharges
      (checkAppArgs fuel check args prevo fuel headtrm headtp []) := by
    intro headtrm headtp prevo before result after run
    exact closes_checkAppArgs kept _ _ _ _ _ _ _ _ _ _ _ (Std.Refl.refl (r := Accounted) before)
      (by simp) run
  rw [checkApp]
  repeat' first
    | exact looped _ _ _
    | exact keeps_check_solid kept rfl
    | with_reducible refine ensures_step ?_ fun _ => ?_
    | split
    | simp

/-! ### Leaves and terms -/

omit kept in
theorem run_checkHole_ok {args : CheckArgs} {before after : Checker} {result : Checked}
    (run : (checkHole args).run before = .ok (result, after)) :
    args.isHole = true ∧
      { term := some before.store.heap.length, computed := none, hole := true } = result ∧
      { before with
        runtime := { before.runtime with
          store := { before.store with heap := before.store.heap ++ [.hole none] } } } = after := by
  rw [checkHole] at run
  cases allowed : args.isHole with
  | false =>
      rw [allowed] at run
      exact (run_report_bind_ok.mp run).elim
  | true =>
      rw [allowed] at run
      obtain ⟨_, hole, newRun, run⟩ := run_bind_ok.mp run
      obtain ⟨_, inner, rfl⟩ := run_onStore_ok.mp newRun
      obtain ⟨rfl, rfl⟩ := run_new_ok.mp inner
      obtain ⟨rfl, rfl⟩ := run_pure_ok.mp run
      exact ⟨rfl, rfl, rfl⟩

omit kept in
theorem reports_checkHole (args : CheckArgs) : Reports args.isHole (checkHole args) := by
  intro before result after run
  obtain ⟨allowed, rfl, rfl⟩ := run_checkHole_ok run
  refine ⟨.inr ⟨[], [before.store.heap.length], rfl, ?_⟩, by simp [allowed]⟩
  constructor
  · simp
  · rfl
  · simp
  · intro r hole
    obtain ⟨val, found⟩ := hole
    have bound : r < before.store.heap.length := IsHole.lt_length ⟨val, found⟩
    exact ⟨val, by simpa [List.getElem?_append_left bound] using found⟩
  · intro r mem
    obtain rfl : r = before.store.heap.length := by simpa [listed] using mem
    exact ⟨Nat.le_refl _, none, by simp⟩
  · simp [listed]
  · intro r unfilled
    by_cases bound : r < before.store.heap.length
    · exact .inl (by simpa [List.getElem?_append_left bound] using unfilled)
    · obtain ⟨within, -⟩ := List.getElem?_eq_some_iff.mp unfilled
      have last : r = before.store.heap.length := by
        simp only [List.length_append, List.length_singleton] at within
        exact Nat.le_antisymm (Nat.lt_succ_iff.mp within) (Nat.not_lt.mp bound)
      exact .inr (by simp [listed, last])
  · simp

omit kept in
theorem discharges_checkNumeralToken (args : CheckArgs) (type : Ref) (message : String)
    {create : CheckerM Ref} (keptCreate : Keeps Plain create) :
    Discharges (checkNumeralToken args type message create) := by
  rw [checkNumeralToken]
  repeat' first
    | exact ensures_pure rfl
    | with_reducible refine ensures_step ?_ fun _ => ?_
    | split
    | simp [keptCreate]

omit kept in
theorem discharges_checkNatural (args : CheckArgs) : Discharges (checkNatural args) := by
  refine discharges_checkNumeralToken _ _ _ ?_
  repeat' first
    | exact keeps_tables_onStore (keeps_writes_new (by simp))
    | with_reducible refine keeps_bind ?_ fun _ => ?_
    | split
    | simp

omit kept in
theorem discharges_checkRational (args : CheckArgs) : Discharges (checkRational args) := by
  refine discharges_checkNumeralToken _ _ _ ?_
  repeat' first
    | with_reducible refine keeps_bind ?_ fun _ => ?_
    | split
    | simp

omit kept in
theorem discharges_checkIdent (fuel : Nat) (args : CheckArgs) :
    Discharges (checkIdent fuel args) := by
  rw [checkIdent]
  repeat' first
    | exact ensures_stop
    | exact ensures_pure rfl
    | with_reducible refine ensures_step ?_ fun _ => ?_
    | split
    | simp

theorem reports_checkOpen (fuel : Nat) (args : CheckArgs) :
    Reports args.isHole (checkOpen fuel check args) := by
  rw [checkOpen]
  refine reports_bind (by simp) fun _ => reports_bind (by simp) fun token => ?_
  split
  · exact Discharges.answers ensures_stop
  · exact (discharges_checkBang kept fuel args).answers
  · exact (discharges_checkArrow kept fuel args).answers
  · exact (discharges_checkPound kept fuel args).answers
  · exact (discharges_checkPercent kept args).answers
  · exact (discharges_checkLambda kept args).answers
  · exact (discharges_checkCaret kept fuel args).answers
  · exact (discharges_checkColon kept fuel args).answers
  · exact reports_checkAt kept fuel args
  · exact reports_checkTilde kept args
  · exact (discharges_checkApp kept fuel args _).answers

end Terms

/-- A term accounts for all holes in it, but for itself where it is a hole. -/
theorem reports_check (fuel : Nat) (args : CheckArgs) : Reports args.isHole (check fuel args) := by
  induction fuel generalizing args with
  | zero => exact Discharges.answers ensures_stop
  | succ fuel hyp =>
      rw [check]
      refine reports_bind (by simp) fun token => ?_
      split
      · exact reports_checkOpen hyp fuel args
      · exact Discharges.answers ensures_stop
      · exact reports_checkHole args
      · exact (discharges_checkNatural args).answers
      · exact (discharges_checkRational args).answers
      · exact (discharges_checkIdent fuel args).answers

@[simp]
theorem keeps_accounted_check (fuel : Nat) {args : CheckArgs} (solid : args.isHole = false) :
    Keeps Accounted (check fuel args) := keeps_check_solid (reports_check fuel) solid

end Lfsc
