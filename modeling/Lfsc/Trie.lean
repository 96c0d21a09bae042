import Mathlib.Data.List.Basic
import Mathlib.Logic.Function.Basic
import Lfsc.Lexer

/-!
# The symbol trie

Names are found through a tree with one level for each byte.  A node that has no children keeps the
rest of the one key below it as a string, and pushes that string down when a second key arrives.
A tree built by insertions is a finite map from keys to data.
-/

namespace Lfsc

/-- The bytes of a key: a key is a C string, so it holds no zero byte, and `char` is signed. -/
abbrev Byte : Type := { code : Nat // 0 < code ∧ code < 128 }

/-- Keys, without the terminating zero. -/
abbrev Key : Type := List Byte

/-- `Trie`. -/
inductive Trie (Data : Type) where
  | node (str : Option Key) (d : Data) (using_next : Bool) (next : List (Option (Trie Data)))

namespace Trie

variable {Data : Type} [Inhabited Data]

/-- The constructor `Trie()`. -/
def new : Trie Data := .node none default false []

/-- `get_next`, with the recursive calls of `get`. -/
def getNext (get : Trie Data → Key → Except Stop Data) (next : List (Option (Trie Data))) :
    Key → Except Stop Data
  -- the assertion that the key is not empty
  | [] => .error .abort
  | c :: rest =>
      if next.length ≤ c.val then .ok default
      else
        match next[c.val]?.join with
        | none => .ok default
        | some n => get n rest

/-- `get`. -/
def get : Nat → Trie Data → Key → Except Stop Data
  | 0, _, _ => .error .fuel
  | fuel + 1, .node str d using_next next, s =>
      if s = [] ∧ (str = none ∨ str = some []) then .ok d
      else if str = some s then .ok d
      else if using_next then getNext (get fuel) next s
      else .ok default

/-- The vector after `next.resize(c + 1)`. -/
def resize (next : List (Option (Trie Data))) (c : Nat) : List (Option (Trie Data)) :=
  next ++ List.replicate (c + 1 - next.length) none

/-- `insert_next`, with the recursive calls of `insert`: the data returned, then the fields
`using_next` and `next`. -/
def insertNext (insert : Trie Data → Key → Data → Except Stop (Data × Trie Data))
    (using_next : Bool) (next : List (Option (Trie Data))) :
    Key → Data → Except Stop (Data × Bool × List (Option (Trie Data)))
  | [], _ => .error .abort
  | c :: rest, x => do
      let slots := if next.length ≤ c.val then resize next c.val else next
      let child := slots[c.val]?.join.getD new
      let (old, child) ← insert child rest x
      return (old, using_next || decide (next.length ≤ c.val), slots.set c.val (some child))

/-- `insert`. -/
def insert : Nat → Trie Data → Key → Data → Except Stop (Data × Trie Data)
  | 0, _, _, _ => .error .fuel
  | fuel + 1, .node str d using_next next, [], x =>
      match str with
      | none => .ok (default, .node (some []) x using_next next)
      | some [] => .ok (d, .node (some []) x using_next next)
      | some (c :: rest) => do
          let (_, using_next, next) ← insertNext (insert fuel) using_next next (c :: rest) d
          return (default, .node (some []) x using_next next)
  | fuel + 1, .node str d using_next next, s, x =>
      match str with
      | some [] => do
          let (old, using_next, next) ← insertNext (insert fuel) using_next next s x
          return (old, .node (some []) d using_next next)
      | some (c :: rest) => do
          let (_, using_next, next) ← insertNext (insert fuel) using_next next (c :: rest) d
          let (old, using_next, next) ← insertNext (insert fuel) using_next next s x
          return (old, .node none default using_next next)
      | none =>
          if using_next then do
            let (old, using_next, next) ← insertNext (insert fuel) using_next next s x
            return (old, .node none d using_next next)
          else .ok (default, .node (some s) x using_next next)

/-! ## Sequences of operations -/

/-- An operation on a trie. -/
inductive Operation (Data : Type) where
  | get (key : Key)
  | insert (key : Key) (x : Data)

/-- The key of an operation. -/
def Operation.key : Operation Data → Key
  | .get key | .insert key _ => key

/-- One operation: the data it returns and the trie after it. -/
def operate (fuel : Nat) (trie : Trie Data) : Operation Data → Except Stop (Data × Trie Data)
  | .get key => do return (← get fuel trie key, trie)
  | .insert key x => insert fuel trie key x

/-- A sequence of operations: the data they return, in order, and the trie after them. -/
def operateAll (fuel : Nat) :
    Trie Data → List (Operation Data) → Except Stop (List Data × Trie Data)
  | trie, [] => .ok ([], trie)
  | trie, operation :: rest => do
      let (answer, trie) ← operate fuel trie operation
      let (answers, trie) ← operateAll fuel trie rest
      return (answer :: answers, trie)

/-- The data of the last insertion for a key, the latest operation first. -/
def lastInserted (key : Key) : List (Operation Data) → Data
  | [] => default
  | .get _ :: past => lastInserted key past
  | .insert other x :: past => if key = other then x else lastInserted key past

/-- What a finite map answers to operations after those of the past. -/
def answers : List (Operation Data) → List (Operation Data) → List Data
  | _, [] => []
  | past, operation :: rest => lastInserted operation.key past :: answers (operation :: past) rest

/-! ## The map that a trie holds -/

/-- The data found by following a key from the root. -/
def contents : Trie Data → Key → Data
  | .node str d _ _, [] => if str = some [] then d else default
  | .node str d _ next, c :: rest =>
      if str = some (c :: rest) then d
      else
        match next[c.val]?.join with
        | none => default
        | some n => contents n rest

/-- A node that stores a suffix of a key that is not empty has no children, and a node without a
stored string holds the default data; so do all nodes below. -/
inductive WellFormed : Trie Data → Prop where
  | node {str : Option Key} {d : Data} {using_next : Bool} {next : List (Option (Trie Data))}
      (alone : ∀ suffix, str = some suffix → suffix ≠ [] → next = [])
      (plain : str = none → d = default)
      (used : using_next = true ↔ next ≠ [])
      (below : ∀ (c : Nat) (child : Trie Data), next[c]?.join = some child → WellFormed child) :
      WellFormed (.node str d using_next next)

theorem wellFormed_new : WellFormed (new : Trie Data) := by
  refine .node ?_ ?_ ?_ ?_ <;> simp

theorem contents_new (s : Key) : contents (new : Trie Data) s = default := by
  cases s <;> simp [new, contents]

/-- A lookup in a well-formed trie returns the data found by following the key. -/
theorem get_wellFormed {trie : Trie Data} (formed : WellFormed trie) (s : Key) (fuel : Nat)
    (enough : s.length < fuel) : get fuel trie s = .ok (contents trie s) := by
  induction s generalizing trie fuel with
  | nil =>
      obtain ⟨fuel, rfl⟩ := Nat.exists_eq_add_one_of_ne_zero (Nat.ne_of_gt enough)
      cases formed with
      | @node str d using_next next alone plain used below =>
          rcases str with _ | _ | ⟨c, suffix⟩
          · simp [get, contents, plain]
          · simp [get, contents]
          · have empty : next = [] := alone _ rfl (by simp)
            have unused : using_next = false := by
              simpa [empty] using used
            simp [get, contents, unused]
  | cons c rest hyp =>
      obtain ⟨fuel, rfl⟩ := Nat.exists_eq_add_one_of_ne_zero
        (Nat.ne_of_gt (Nat.zero_lt_of_lt enough))
      have shorter : rest.length < fuel := by
        simp at enough
        omega
      cases formed with
      | @node str d using_next next alone plain used below =>
          by_cases stored : str = some (c :: rest)
          · simp [get, contents, stored]
          by_cases goes : using_next = true
          · by_cases out : next.length ≤ c.val
            · simp [get, contents, stored, goes, getNext, out]
            · cases found : next[c.val]?.join with
              | none => simp [get, contents, stored, goes, getNext, out, found]
              | some n =>
                  have lookup := hyp (below _ _ found) fuel shorter
                  simp [get, contents, stored, goes, getNext, out, found, lookup]
          · have empty : next = [] := by
              by_contra filled
              exact goes (used.mpr filled)
            simp [get, contents, stored, goes, empty]

/-- What an insertion into a trie does: it returns the data of the key and changes the map at this
key only. -/
structure Inserts (trie : Trie Data) (s : Key) (x old : Data) (after : Trie Data) : Prop where
  answer : old = contents trie s
  formed : WellFormed after
  contents_eq : contents after = Function.update (contents trie) s x

/-- The first insertion stores the key at the root. -/
theorem insert_new (s : Key) (x : Data) (fuel : Nat) :
    ∃ after, insert (fuel + 1) new s x = .ok (default, after) ∧ Inserts new s x default after := by
  refine ⟨.node (some s) x false [], by cases s <;> rfl, (contents_new s).symm, ?_, ?_⟩
  · refine .node ?_ ?_ ?_ ?_ <;> simp
  · funext key
    by_cases same : key = s
    · subst same
      cases key <;> simp [contents]
    · rw [Function.update_of_ne same, contents_new]
      have other : ¬ (some s : Option Key) = some key := by
        simpa using Ne.symm same
      cases key <;> simp [contents, other]

/-- The vector of children with room for the index `c`. -/
abbrev grown (next : List (Option (Trie Data))) (c : Nat) : List (Option (Trie Data)) :=
  if next.length ≤ c then resize next c else next

omit [Inhabited Data] in
theorem length_grown (next : List (Option (Trie Data))) (c : Nat) : c < (grown next c).length := by
  unfold grown
  split
  · simp [resize]
    omega
  · omega

omit [Inhabited Data] in
theorem grown_get (next : List (Option (Trie Data))) (c i : Nat) :
    (grown next c)[i]?.join = next[i]?.join := by
  unfold grown
  split
  · by_cases inside : i < next.length
    · simp [resize, List.getElem?_append_left inside]
    · have outside : next[i]? = none := List.getElem?_eq_none (by omega)
      rw [outside, resize, List.getElem?_append_right (by omega), List.getElem?_replicate]
      split <;> rfl
  · rfl

omit [Inhabited Data] in
/-- The child that an insertion goes to. -/
theorem grown_set_get (next : List (Option (Trie Data))) (c i : Nat) (child : Trie Data) :
    ((grown next c).set c (some child))[i]?.join =
      if i = c then some child else next[i]?.join := by
  split
  case isTrue same =>
      subst same
      rw [List.getElem?_set_self (length_grown next i)]
      rfl
  case isFalse other =>
      rw [List.getElem?_set_ne (Ne.symm other), grown_get]

/-- An insertion into the children, when the insertion into the child is right. -/
theorem insertNext_inserts {insert : Trie Data → Key → Data → Except Stop (Data × Trie Data)}
    {using_next : Bool} {next : List (Option (Trie Data))} {c : Byte} {rest : Key} {x old : Data}
    {after : Trie Data} (used : using_next = true ↔ next ≠ [])
    (run : insert (next[c.val]?.join.getD new) rest x = .ok (old, after)) :
    insertNext insert using_next next (c :: rest) x =
      .ok (old, true, (grown next c.val).set c.val (some after)) := by
  have here : (grown next c.val)[c.val]?.join = next[c.val]?.join := grown_get next c.val c.val
  have flag : (using_next || decide (next.length ≤ c.val)) = true := by
    by_cases empty : next = []
    · simp [empty]
    · simp [used.mpr empty]
  have step : insert ((grown next c.val)[c.val]?.join.getD new) rest x = .ok (old, after) := by
    rw [here, run]
  simp only [insertNext, step, flag]
  rfl

/-- The map of a node without a stored suffix, after an insertion into its children. -/
theorem inserts_children {str : Option Key} {d x old : Data} {using_next : Bool}
    {next : List (Option (Trie Data))} {c : Byte} {rest : Key} {after : Trie Data}
    (short : ∀ suffix, str = some suffix → suffix = [])
    (formed : WellFormed (.node str d using_next next))
    (step : Inserts (next[c.val]?.join.getD new) rest x old after) :
    Inserts (.node str d using_next next) (c :: rest) x old
      (.node str d true ((grown next c.val).set c.val (some after))) := by
  have stored (byte : Byte) (key : Key) : ¬ str = some (byte :: key) := by
    intro same
    simpa using short _ same
  have child_contents (key : Key) : contents (next[c.val]?.join.getD new) key =
      contents (.node str d using_next next) (c :: key) := by
    cases found : next[c.val]?.join with
    | none => simp [contents, stored, found, contents_new]
    | some n => simp [contents, stored, found]
  obtain ⟨answer, after_formed, after_contents⟩ := step
  refine ⟨answer.trans (child_contents rest), ?_, ?_⟩
  · cases formed with
    | node alone plain used below =>
        refine .node ?_ plain ?_ ?_
        · intro suffix same filled
          exact absurd (short suffix same) filled
        · have filled : (grown next c.val).set c.val (some after) ≠ [] := by
            intro empty
            have long := length_grown next c.val
            have kept : ((grown next c.val).set c.val (some after)).length =
                (grown next c.val).length := List.length_set
            rw [← kept, empty] at long
            simp at long
          simp [filled]
        · intro i child found
          rw [grown_set_get] at found
          split at found
          · cases found
            exact after_formed
          · exact below i child found
  · funext key
    cases key with
    | nil => simp [contents]
    | cons byte key =>
        simp only [contents, stored, if_false, grown_set_get]
        by_cases same : byte.val = c.val
        · obtain rfl : byte = c := Subtype.ext same
          rw [if_pos rfl]
          simp only [after_contents]
          by_cases here : key = rest
          · simp [here]
          · have other : byte :: key ≠ byte :: rest := by
              simpa using here
            rw [Function.update_of_ne here, Function.update_of_ne other]
            exact child_contents key
        · have other : byte :: key ≠ c :: rest := by
            rintro ⟨⟩
            exact same rfl
          rw [if_neg same, Function.update_of_ne other]
          simp [contents, stored]

/-- Pushing a stored suffix down into a node without children leaves the map as it was. -/
theorem push_down (fuel : Nat) (d : Data) (c : Byte) (rest : Key) :
    ∃ next, insertNext (insert (fuel + 1)) false [] (c :: rest) d = .ok (default, true, next) ∧
      WellFormed (.node none default true next) ∧
      contents (.node none default true next) =
        contents (.node (some (c :: rest)) d false []) := by
  obtain ⟨after, run, step⟩ := insert_new rest d fuel
  have unused : false = true ↔ ([] : List (Option (Trie Data))) ≠ [] := by simp
  have run' := insertNext_inserts (c := c) unused run
  have short : ∀ suffix : Key, none = some suffix → suffix = [] := by simp
  obtain ⟨-, formed, same⟩ := inserts_children short wellFormed_new step
  refine ⟨_, run', formed, same.trans ?_⟩
  funext key
  by_cases here : key = c :: rest
  · subst here
    simp [contents]
  · rw [Function.update_of_ne here]
    have stored : ¬ (some (c :: rest) : Option Key) = some key := by
      simpa using Ne.symm here
    cases key <;> simp [contents, stored]

/-- Storing data for the empty key at a node that holds no other suffix. -/
theorem inserts_root {str : Option Key} {d x : Data} {using_next : Bool}
    {next : List (Option (Trie Data))} (short : ∀ suffix, str = some suffix → suffix = [])
    (formed : WellFormed (.node str d using_next next)) :
    Inserts (.node str d using_next next) [] x (contents (.node str d using_next next) [])
      (.node (some []) x using_next next) := by
  refine ⟨rfl, ?_, ?_⟩
  · cases formed with
    | node alone plain used below =>
        refine .node ?_ ?_ used below
        · intro suffix same filled
          exact absurd (Option.some.inj same).symm filled
        · simp
  · funext key
    cases key with
    | nil => simp [contents]
    | cons c rest =>
        have stored : ¬ str = some (c :: rest) := by
          intro same
          simpa using short _ same
        simp [contents, stored]

/-- An insertion into a well-formed trie returns the data of the key and replaces it. -/
theorem insert_wellFormed {trie : Trie Data} (formed : WellFormed trie) (s : Key) (x : Data)
    (fuel : Nat) (enough : s.length + 1 < fuel) :
    ∃ old after, insert fuel trie s x = .ok (old, after) ∧ Inserts trie s x old after := by
  induction s generalizing trie fuel with
  | nil =>
      obtain ⟨fuel, rfl⟩ := Nat.exists_eq_add_of_le' enough
      obtain ⟨str, d, using_next, next⟩ := trie
      rcases str with _ | _ | ⟨c, suffix⟩
      · refine ⟨_, _, rfl, ?_⟩
        simpa [contents] using inserts_root (x := x) (by simp) formed
      · refine ⟨_, _, rfl, ?_⟩
        simpa [contents] using inserts_root (x := x) (by simp) formed
      · cases formed with
        | node alone plain used below =>
            obtain rfl : next = [] := alone _ rfl (by simp)
            obtain rfl : using_next = false := by
              simpa using used
            obtain ⟨next, run, pushed, same⟩ := push_down fuel d c suffix
            obtain ⟨-, after_formed, after_contents⟩ := inserts_root (x := x) (by simp) pushed
            refine ⟨default, .node (some []) x true next, ?_, ?_, after_formed, ?_⟩
            · simp [insert, run]
            · simp [contents]
            · rw [after_contents, same]
  | cons c rest hyp =>
      obtain ⟨fuel, rfl⟩ : ∃ less, fuel = less + 2 := ⟨fuel - 2, by omega⟩
      have shorter : rest.length + 1 < fuel + 1 := by
        simp at enough
        omega
      -- the insertion goes to a child of a node that holds no suffix
      have descend {str : Option Key} {d : Data} {using_next : Bool}
          {next : List (Option (Trie Data))} (short : ∀ suffix, str = some suffix → suffix = [])
          (formed : WellFormed (.node str d using_next next)) :
          ∃ old next', insertNext (insert (fuel + 1)) using_next next (c :: rest) x =
              .ok (old, true, next') ∧
            Inserts (.node str d using_next next) (c :: rest) x old (.node str d true next') := by
        have child_formed : WellFormed (next[c.val]?.join.getD new) := by
          cases formed with
          | node alone plain used below =>
              cases found : next[c.val]?.join with
              | none => exact wellFormed_new
              | some n => exact below _ _ found
        obtain ⟨old, after, run, step⟩ := hyp child_formed (fuel + 1) shorter
        have flag : using_next = true ↔ next ≠ [] := by
          cases formed with
          | node alone plain used below => exact used
        exact ⟨old, _, insertNext_inserts flag run, inserts_children short formed step⟩
      obtain ⟨str, d, using_next, next⟩ := trie
      rcases str with _ | _ | ⟨byte, suffix⟩
      · by_cases goes : using_next = true
        · obtain ⟨old, next', run, step⟩ := descend (by simp) formed
          refine ⟨old, _, ?_, step⟩
          rw [goes] at run
          simp [insert, goes, run]
        · cases formed with
          | node alone plain used below =>
              obtain rfl : using_next = false := by
                simpa using goes
              obtain rfl : next = [] := by
                simpa using used
              obtain rfl := plain rfl
              obtain ⟨after, run, step⟩ := insert_new (c :: rest) x (fuel + 1)
              exact ⟨default, after, run, step⟩
      · obtain ⟨old, next', run, step⟩ := descend (by simp) formed
        refine ⟨old, _, ?_, step⟩
        simp [insert, run]
      · cases formed with
        | node alone plain used below =>
            obtain rfl : next = [] := alone _ rfl (by simp)
            obtain rfl : using_next = false := by
              simpa using used
            obtain ⟨next, pushes, pushed, same⟩ := push_down fuel d byte suffix
            obtain ⟨old, next', run, answer, after_formed, after_contents⟩ :=
              descend (by simp) pushed
            refine ⟨old, .node none default true next', ?_, ?_, after_formed, ?_⟩
            · simp [insert, pushes, bind, Except.bind, run]
            · rw [answer, same]
            · rw [after_contents, same]

/-! ## Runs of operations -/

/-- A trie after the operations of the past, the latest first. -/
structure After (past : List (Operation Data)) (trie : Trie Data) : Prop where
  formed : WellFormed trie
  last : ∀ key, contents trie key = lastInserted key past

/-- One operation answers with the data of the last insertion for its key. -/
theorem operate_after {past : List (Operation Data)} {trie : Trie Data} (now : After past trie)
    (operation : Operation Data) (fuel : Nat) (enough : operation.key.length + 1 < fuel) :
    ∃ trie', operate fuel trie operation = .ok (lastInserted operation.key past, trie') ∧
      After (operation :: past) trie' := by
  cases operation with
  | get key =>
      have found : get fuel trie key = .ok (contents trie key) :=
        get_wellFormed now.formed key fuel (Nat.lt_of_succ_lt enough)
      refine ⟨trie, ?_, now.formed, now.last⟩
      rw [operate, found, now.last]
      rfl
  | insert key x =>
      obtain ⟨old, trie', run, answer, formed, same⟩ :=
        insert_wellFormed now.formed key x fuel enough
      rw [now.last] at answer
      refine ⟨trie', answer ▸ run, formed, ?_⟩
      intro other
      rw [same, lastInserted]
      split
      case isTrue here => simp [here]
      case isFalse there => rw [Function.update_of_ne there, now.last]

theorem operateAll_after {past : List (Operation Data)} {trie : Trie Data}
    (now : After past trie) (operations : List (Operation Data)) (fuel : Nat)
    (enough : ∀ operation ∈ operations, operation.key.length + 1 < fuel) :
    ∃ trie', operateAll fuel trie operations = .ok (answers past operations, trie') ∧
      After (operations.reverse ++ past) trie' := by
  induction operations generalizing past trie with
  | nil => exact ⟨trie, rfl, now⟩
  | cons operation rest hyp =>
      obtain ⟨middle, run, between⟩ := operate_after now operation fuel
        (enough operation List.mem_cons_self)
      obtain ⟨trie', runs, after⟩ := hyp between fun other mem =>
        enough other (List.mem_cons_of_mem operation mem)
      refine ⟨trie', ?_, by simpa using after⟩
      rw [operateAll, run]
      simp only [bind, Except.bind, runs]
      rfl

omit [Inhabited Data] in
/-- The keys of finitely many operations are bounded. -/
theorem exists_depth (operations : List (Operation Data)) :
    ∃ depth, ∀ operation ∈ operations, operation.key.length + 1 < depth := by
  induction operations with
  | nil => exact ⟨0, by simp⟩
  | cons operation rest hyp =>
      obtain ⟨depth, bound⟩ := hyp
      refine ⟨operation.key.length + 2 + depth, ?_⟩
      intro other mem
      rcases List.mem_cons.mp mem with rfl | mem
      · omega
      · have := bound other mem
        omega

/-- Every sequence of operations on a new trie returns the answers of a finite map and leaves a
trie that is well formed at every node and holds the last insertion of every key. -/
theorem operateAll_new (operations : List (Operation Data)) :
    ∃ depth, ∀ fuel, depth ≤ fuel →
      ∃ trie, operateAll fuel new operations = .ok (answers [] operations, trie) ∧
        WellFormed trie ∧
        ∀ key, key.length < fuel → get fuel trie key =
          .ok (lastInserted key operations.reverse) := by
  obtain ⟨depth, bound⟩ := exists_depth operations
  refine ⟨depth, ?_⟩
  intro fuel enough
  have start : After [] (new : Trie Data) := ⟨wellFormed_new, contents_new⟩
  obtain ⟨trie, run, formed, last⟩ := operateAll_after start operations fuel
    fun operation mem => Nat.lt_of_lt_of_le (bound operation mem) enough
  refine ⟨trie, run, formed, ?_⟩
  intro key short
  rw [get_wellFormed formed key fuel short, last]
  simp

/-! ## The symbol table -/

instance : Inhabited Binding := ⟨Binding.none⟩

/-- The name that a key spells. -/
def nameOf (key : Key) : String := String.ofList (key.map fun byte => Char.ofNat byte.val)

/-- A trie holds the bindings of a symbol table. -/
structure Holds (trie : Trie Binding) (table : SymbolTable) : Prop where
  formed : WellFormed trie
  binding : ∀ key, contents trie key = table (nameOf key)

theorem nameOf_injective : Function.Injective nameOf := by
  have valid (byte : Byte) : (Char.ofNat byte.val).toNat = byte.val := by
    have small : byte.val.isValidChar := Or.inl (by have := byte.property; omega)
    rw [Char.ofNat, dif_pos small]
    rfl
  have codes : Function.Injective fun byte : Byte => Char.ofNat byte.val := by
    intro first second same
    have values := congrArg Char.toNat same
    simp only [valid] at values
    exact Subtype.ext values
  intro left right same
  exact List.map_injective_iff.mpr codes (String.ofList_injective same)

/-- A lookup in the symbol table is a lookup in the trie that holds it. -/
theorem Holds.symbolsGet {trie : Trie Binding} {checker : Checker}
    (holds : Holds trie checker.symbols) (key : Key) {fuel : Nat} (enough : key.length < fuel) :
    ∃ pair, get fuel trie key = .ok pair ∧
      (Lfsc.symbolsGet (nameOf key)).run checker = .ok (pair, checker) := by
  refine ⟨_, get_wellFormed holds.formed key fuel enough, ?_⟩
  rw [holds.binding]
  rfl

/-- An insertion into the symbol table is an insertion into the trie that holds it. -/
theorem Holds.symbolsInsert {trie : Trie Binding} {checker : Checker}
    (holds : Holds trie checker.symbols) (key : Key) (pair : Binding) {fuel : Nat}
    (enough : key.length + 1 < fuel) :
    ∃ old trie' after, insert fuel trie key pair = .ok (old, trie') ∧
      (Lfsc.symbolsInsert (nameOf key) pair).run checker = .ok (old, after) ∧
      Holds trie' after.symbols := by
  obtain ⟨old, trie', run, answer, formed, same⟩ :=
    insert_wellFormed holds.formed key pair fuel enough
  refine ⟨old, trie', { checker with symbols := Function.update checker.symbols (nameOf key) pair },
    run, ?_, formed, ?_⟩
  · rw [answer, holds.binding]
    rfl
  · intro other
    rw [same]
    by_cases here : other = key
    · simp [here]
    · have names : nameOf other ≠ nameOf key := nameOf_injective.ne here
      rw [Function.update_of_ne here, holds.binding]
      exact (Function.update_of_ne names pair checker.symbols).symm

end Trie

end Lfsc
