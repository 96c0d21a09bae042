import Lfsc.CheckCode
import Lfsc.RunCode
import Lfsc.Exec.Ends
import Lfsc.SymbolScope
import Lfsc.SideCondition.Arithmetic

/-!
# Arithmetic in side conditions

Code of the types `mpz` and `mpq` is numeric code over the symbols of the store.  What `check_code`
accepts is sorted, and `run_code` computes its exact result, or fails where an operation is blocked.
The one exception is `mpz_to_mpq`, which takes a symbol for an integer.
-/

namespace Lfsc

open Exec

/-! ## Numeric code in the store -/

/-- The type of a sort of numbers. -/
def statOf : Numeric.NumberSort → Ref
  | .integer => statMpz
  | .rational => statMpq

/-- The operator of an operation. -/
def operatorFor : Numeric.Operation → Op
  | .add => .add
  | .mul => .mul
  | .div => .div

/-- An expression is numeric code, when identifiers stand for the symbols of a scope. -/
inductive NumericCode (heap : List Node) :
    (String → Option Ref) → Ref → Numeric.Term Ref → Prop
  | int {scope : String → Option Ref} {e : Ref} {n : Int} (node : heap[e]? = some (.int n)) :
      NumericCode heap scope e (.int n)
  | rat {scope : String → Option Ref} {e : Ref} {q : Rat} (node : heap[e]? = some (.rat q)) :
      NumericCode heap scope e (.rat q)
  | name {scope : String → Option Ref} {e : Ref} {name : String} {val : Option Ref}
      (node : heap[e]? = some (.sym name val)) (resolved : scope name = some e) :
      NumericCode heap scope e (.name e)
  | arith {scope : String → Option Ref} {e a b : Ref} {flag : Bool} {left right : Numeric.Term Ref}
      (op : Numeric.Operation) (node : heap[e]? = some (.cexpr (operatorFor op) [a, b] flag))
      (first : NumericCode heap scope a left) (second : NumericCode heap scope b right) :
      NumericCode heap scope e (.arith op left right)
  | neg {scope : String → Option Ref} {e a : Ref} {flag : Bool} {operand : Numeric.Term Ref}
      (node : heap[e]? = some (.cexpr .neg [a] flag)) (inner : NumericCode heap scope a operand) :
      NumericCode heap scope e (.neg operand)
  | toRat {scope : String → Option Ref} {e a : Ref} {flag : Bool} {operand : Numeric.Term Ref}
      (node : heap[e]? = some (.cexpr .mpzToMpq [a] flag))
      (inner : NumericCode heap scope a operand) : NumericCode heap scope e (.toRat operand)
  | test {scope : String → Option Ref} {e a b c : Ref} {flag : Bool}
      {operand yes no : Numeric.Term Ref} (negative : Bool)
      (node : heap[e]? = some (.cexpr (if negative then .ifneg else .ifzero) [a, b, c] flag))
      (inner : NumericCode heap scope a operand) (first : NumericCode heap scope b yes)
      (second : NumericCode heap scope c no) :
      NumericCode heap scope e (.test negative operand yes no)
  | bind {scope : String → Option Ref} {e x a b : Ref} {flag : Bool} {name : String}
      {val : Option Ref} {value body : Numeric.Term Ref}
      (node : heap[e]? = some (.cexpr .let_ [x, a, b] flag))
      (var : heap[x]? = some (.sym name val)) (first : NumericCode heap scope a value)
      (second : NumericCode heap (Function.update scope name (some x)) b body) :
      NumericCode heap scope e (.bind x value body)
  | seq {scope : String → Option Ref} {e a b : Ref} {flag : Bool} {first second : Numeric.Term Ref}
      (node : heap[e]? = some (.cexpr .do_ [a, b] flag)) (left : NumericCode heap scope a first)
      (right : NumericCode heap scope b second) : NumericCode heap scope e (.seq first second)

/-- The objects of a heap are there, up to the values of symbols and holes. -/
structure SameCode (heap heap' : List Node) : Prop where
  solid : ∀ (r : Ref) node, heap[r]? = some node → (∀ name val, node ≠ .sym name val) →
    heap'[r]? = some node
  sym : ∀ (r : Ref) name val, heap[r]? = some (.sym name val) →
    ∃ val', heap'[r]? = some (.sym name val')

theorem NumericCode.later {heap heap' : List Node} (same : SameCode heap heap')
    {scope : String → Option Ref} {e : Ref} {term : Numeric.Term Ref}
    (represents : NumericCode heap scope e term) : NumericCode heap' scope e term := by
  induction represents with
  | int node => exact .int (same.solid _ _ node (by simp))
  | rat node => exact .rat (same.solid _ _ node (by simp))
  | name node resolved =>
      obtain ⟨val, node'⟩ := same.sym _ _ _ node
      exact .name node' resolved
  | arith op node _ _ first second =>
      exact .arith op (same.solid _ _ node (by simp)) first second
  | neg node _ inner => exact .neg (same.solid _ _ node (by simp)) inner
  | toRat node _ inner => exact .toRat (same.solid _ _ node (by simp)) inner
  | test negative node _ _ _ inner first second =>
      exact .test negative (same.solid _ _ node (by simp)) inner first second
  | bind node var _ _ first second =>
      obtain ⟨val, var'⟩ := same.sym _ _ _ var
      exact .bind (same.solid _ _ node (by simp)) var' first second
  | seq node _ _ left right => exact .seq (same.solid _ _ node (by simp)) left right

/-- Identifiers stand for symbols of their names. -/
def ScopeNamed (heap : List Node) (scope : String → Option Ref) : Prop :=
  ∀ name x, scope name = some x → ∃ val, heap[x]? = some (.sym name val)

/-! ## Accepted code is sorted -/

/-- The types of the identifiers of a scope are `mpz` and `mpq`, or defined as these. -/
def TableSorts (symbols : SymbolTable) (heap : List Node) (scope : String → Option Ref)
    (sorts : Ref → Numeric.NumberSort) : Prop :=
  ∀ name x, scope name = some x →
    ∃ type, (symbols name).type = some type ∧ followDefs heap type = some (statOf (sorts x))

/-- The state in which an identifier is bound to a type. -/
def Checker.typing (checker : Checker) (name : String) (type : Option Ref) : Checker :=
  { checker with symbols := Function.update checker.symbols name ⟨none, type⟩ }

/-- A type that `check_code` computed for code of a sort. -/
def TypeOfSort (heap : List Node) (sort : Numeric.NumberSort) (type : Option Ref) : Prop :=
  ∃ last, type = some last ∧ followDefs heap last = some (statOf sort)

theorem ScopeNamed.update {heap : List Node} {scope : String → Option Ref} {name : String} {x : Ref}
    {val : Option Ref} (named : ScopeNamed heap scope) (var : heap[x]? = some (.sym name val)) :
    ScopeNamed heap (Function.update scope name (some x)) := by
  intro other y resolved
  by_cases same : other = name
  · subst same
    obtain rfl : x = y := by simpa using resolved
    exact ⟨val, var⟩
  · exact named other y (by simpa [same] using resolved)

theorem TableSorts.update {symbols : SymbolTable} {heap : List Node}
    {scope : String → Option Ref} {sorts : Ref → Numeric.NumberSort} {name : String} {x : Ref}
    {val type : Option Ref} {sort : Numeric.NumberSort}
    (table : TableSorts symbols heap scope sorts)
    (named : ScopeNamed heap scope) (var : heap[x]? = some (.sym name val))
    (typed : TypeOfSort heap sort type) :
    TableSorts (Function.update symbols name ⟨none, type⟩) heap
      (Function.update scope name (some x)) (Function.update sorts x sort) := by
  intro other y resolved
  by_cases same : other = name
  · subst same
    obtain rfl : x = y := by simpa using resolved
    obtain ⟨last, rfl, followed⟩ := typed
    exact ⟨last, by simp, by simpa using followed⟩
  · have before : scope other = some y := by simpa [same] using resolved
    have apart : y ≠ x := by
      rintro rfl
      obtain ⟨old, found⟩ := named other y before
      rw [var, Option.some.injEq, Node.sym.injEq] at found
      exact same found.1.symm
    obtain ⟨last, found, followed⟩ := table other y before
    exact ⟨last, by simpa [same] using found, by simpa [apart] using followed⟩

theorem statOf_injective : Function.Injective statOf := by
  intro left right same
  cases left <;> cases right <;> first | rfl | cases same

section Checking

variable {checker : Checker} {scope : String → Option Ref} {sorts : Ref → Numeric.NumberSort}

theorem run_followType {type last : Ref} (followed : followDefs checker.store.heap type =
    some last) :
    (followType (some type)).run checker = .ok (last, checker) := by
  have run : (liftM (follow type) : CheckerM Ref).run checker = .ok (last, checker) :=
    run_onStore_ok.mpr ⟨_, run_follow_ok.mpr ⟨followed, rfl⟩, rfl⟩
  exact run

theorem TypeOfSort.run_followType {sort : Numeric.NumberSort} {type : Option Ref}
    (typed : TypeOfSort checker.store.heap sort type) :
    (followType type).run checker = .ok (statOf sort, checker) := by
  obtain ⟨last, rfl, followed⟩ := typed
  exact Lfsc.run_followType followed

theorem run_sameBranchType_sorts {first second : Numeric.NumberSort} {left right type : Option Ref}
    {message : String} {after : Checker} (typed : TypeOfSort checker.store.heap first left)
    (typed' : TypeOfSort checker.store.heap second right)
    (run : (sameBranchType left right message).run checker = .ok (type, after)) :
    first = second ∧ type = some (statOf first) ∧ checker = after := by
  rw [sameBranchType, run_bind_of_ok typed.run_followType,
    run_bind_of_ok typed'.run_followType] at run
  by_cases same : statOf first = statOf second
  · rw [if_neg (not_not.mpr same)] at run
    obtain ⟨rfl, rfl⟩ := run_pure_ok.mp run
    exact ⟨statOf_injective same, rfl, rfl⟩
  · rw [if_pos same] at run
    exact (run_report_bind_ok.mp run).elim

theorem exists_fuel_of_checkCode {fuel : Nat} {e : Ref} {type : Option Ref} {after : Checker}
    (run : (checkCode fuel e).run checker = .ok (type, after)) : ∃ less, fuel = less + 1 := by
  cases fuel with
  | zero => cases run
  | succ less => exact ⟨less, rfl⟩

theorem run_map_some_ok {m : CheckerM Ref} {type : Option Ref} {before after : Checker} :
    (some <$> m).run before = .ok (type, after) ↔
      ∃ last, m.run before = .ok (last, after) ∧ type = some last := by
  rw [map_eq_pure_bind, run_bind_ok]
  constructor
  · rintro ⟨_, last, inner, rest⟩
    obtain ⟨rfl, rfl⟩ := run_pure_ok.mp rest
    exact ⟨last, inner, rfl⟩
  · rintro ⟨last, inner, rfl⟩
    exact ⟨after, last, inner, run_pure_ok.mpr ⟨rfl, rfl⟩⟩

theorem run_withBinding_ok {α : Type} {name : String} {pair : Binding} {body : CheckerM α}
    {value : α} {before after : Checker} :
    (withBinding name pair body).run before = .ok (value, after) ↔
      ∃ inner, body.run { before with symbols := Function.update before.symbols name pair } =
        .ok (value, inner) ∧
        { inner with symbols := Function.update inner.symbols name (before.symbols name) } =
          after := by
  simp only [withBinding, run_bind_ok, run_symbolsInsert_ok, run_pure_ok]
  constructor
  · rintro ⟨_, _, ⟨rfl, rfl⟩, inner, _, run, _, _, ⟨-, rfl⟩, rfl, rfl⟩
    exact ⟨inner, run, rfl⟩
  · rintro ⟨inner, run, rfl⟩
    exact ⟨_, _, ⟨rfl, rfl⟩, inner, value, run, _, _, ⟨rfl, rfl⟩, rfl, rfl⟩

/-- The operand of `mp_neg`, `mp_ifneg` and `mp_ifzero` has a sort. -/
theorem checkNumeral_numeric {fuel : Nat} {e a last : Ref} {op : Op} {rest : List Ref} {flag : Bool}
    {operand : Numeric.Term Ref} {message : String} {after : Checker}
    (node : checker.store.heap[e]? = some (.cexpr op (a :: rest) flag))
    (inner : ∀ {type : Option Ref} {after : Checker},
      (checkCode fuel a).run checker = .ok (type, after) → checker = after ∧
        ∃ sort, TypeOfSort checker.store.heap sort type ∧ operand.HasSort sorts sort)
    (run : (checkNumeral (checkCode fuel) e message).run checker = .ok (last, after)) :
    checker = after ∧ ∃ sort, last = statOf sort ∧ operand.HasSort sorts sort := by
  rw [checkNumeral, run_bind_of_ok (run_kid_found node rfl)] at run
  obtain ⟨_, type, inner_run, run⟩ := run_bind_ok.mp run
  obtain ⟨rfl, sort, typed, operand_sort⟩ := inner inner_run
  rw [run_bind_of_ok typed.run_followType] at run
  have proper : ¬ (statOf sort ≠ statMpz ∧ statOf sort ≠ statMpq) := by
    cases sort <;> decide
  rw [if_neg proper] at run
  obtain ⟨rfl, rfl⟩ := run_pure_ok.mp run
  exact ⟨rfl, sort, rfl, operand_sort⟩

/-- Code that `check_code` accepts has a sort, and nothing is changed by the check. -/
theorem checkCode_numeric {fuel : Nat} {e : Ref} {term : Numeric.Term Ref} {type : Option Ref}
    {after : Checker} (represents : NumericCode checker.store.heap scope e term)
    (named : ScopeNamed checker.store.heap scope)
    (table : TableSorts checker.symbols checker.store.heap scope sorts)
    (builtins : ∀ sort, followDefs checker.store.heap (statOf sort) = some (statOf sort))
    (run : (checkCode fuel e).run checker = .ok (type, after)) :
    checker = after ∧ ∃ sort, TypeOfSort checker.store.heap sort type ∧
      term.HasSort sorts sort := by
  induction term generalizing checker scope sorts fuel e type after with
  | int n =>
      cases represents with
      | int node =>
          obtain ⟨fuel, rfl⟩ := exists_fuel_of_checkCode run
          rw [checkCode, run_bind_of_ok (run_load_found node)] at run
          obtain ⟨rfl, rfl⟩ := run_pure_ok.mp run
          exact ⟨rfl, .integer, ⟨_, rfl, builtins .integer⟩, .int n⟩
  | rat q =>
      cases represents with
      | rat node =>
          obtain ⟨fuel, rfl⟩ := exists_fuel_of_checkCode run
          rw [checkCode, run_bind_of_ok (run_load_found node)] at run
          obtain ⟨rfl, rfl⟩ := run_pure_ok.mp run
          exact ⟨rfl, .rational, ⟨_, rfl, builtins .rational⟩, .rat q⟩
  | name x =>
      cases represents with
      | name node resolved =>
          obtain ⟨fuel, rfl⟩ := exists_fuel_of_checkCode run
          obtain ⟨last, found, followed⟩ := table _ _ resolved
          rw [checkCode, run_bind_of_ok (run_load_found node)] at run
          obtain ⟨_, _, got, run⟩ := run_bind_ok.mp run
          cases got
          rw [found] at run
          obtain ⟨rfl, rfl⟩ := run_pure_ok.mp run
          exact ⟨rfl, sorts x, ⟨last, rfl, followed⟩, .name x⟩
  | arith op left right first_hyp second_hyp =>
      cases represents with
      | arith _ node first second =>
          obtain ⟨fuel, rfl⟩ := exists_fuel_of_checkCode run
          rw [checkCode, run_bind_of_ok (run_load_found node)] at run
          have arith : (checkArith (checkCode fuel) e).run checker = .ok (type, after) := by
            cases op <;> exact run
          rw [checkArith, run_bind_of_ok (run_kid_found node rfl)] at arith
          obtain ⟨_, tp0, firstRun, arith⟩ := run_bind_ok.mp arith
          obtain ⟨rfl, sort, typed, left_sort⟩ := first_hyp first named table builtins firstRun
          rw [run_bind_of_ok (run_kid_found node rfl)] at arith
          obtain ⟨_, tp1, secondRun, arith⟩ := run_bind_ok.mp arith
          obtain ⟨rfl, sort', typed', right_sort⟩ :=
            second_hyp second named table builtins secondRun
          rw [run_bind_of_ok typed.run_followType, run_bind_of_ok typed'.run_followType] at arith
          have proper : ¬ (statOf sort ≠ statMpz ∧ statOf sort ≠ statMpq) := by
            cases sort <;> decide
          rw [if_neg proper] at arith
          by_cases same : statOf sort = statOf sort'
          · rw [if_neg (not_not.mpr same)] at arith
            obtain ⟨rfl, rfl⟩ := run_pure_ok.mp arith
            obtain rfl := statOf_injective same
            exact ⟨rfl, sort, ⟨_, rfl, builtins sort⟩, .arith op left_sort right_sort⟩
          · rw [if_pos same] at arith
            exact (run_report_bind_ok.mp arith).elim
  | neg operand hyp =>
      cases represents with
      | neg node inner =>
          obtain ⟨fuel, rfl⟩ := exists_fuel_of_checkCode run
          rw [checkCode, run_bind_of_ok (run_load_found node)] at run
          obtain ⟨last, checked, rfl⟩ := run_map_some_ok.mp run
          obtain ⟨rfl, sort, typed, operand_sort⟩ :=
            checkNumeral_numeric node (hyp inner named table builtins) checked
          exact ⟨rfl, sort, ⟨_, rfl, typed ▸ builtins sort⟩, .neg operand_sort⟩
  | toRat operand hyp =>
      cases represents with
      | toRat node inner =>
          obtain ⟨fuel, rfl⟩ := exists_fuel_of_checkCode run
          rw [checkCode, run_bind_of_ok (run_load_found node)] at run
          change (checkMpzToMpq (checkCode fuel) e).run checker = _ at run
          rw [checkMpzToMpq, run_bind_of_ok (run_kid_found node rfl)] at run
          obtain ⟨_, tp, inner_run, run⟩ := run_bind_ok.mp run
          obtain ⟨rfl, sort, typed, operand_sort⟩ := hyp inner named table builtins inner_run
          rw [run_bind_of_ok typed.run_followType] at run
          cases sort with
          | integer =>
              rw [if_neg (by simp [statOf])] at run
              obtain ⟨rfl, rfl⟩ := run_pure_ok.mp run
              exact ⟨rfl, .rational, ⟨_, rfl, builtins .rational⟩, .toRat operand_sort⟩
          | rational =>
              rw [if_pos (by decide)] at run
              exact (run_report_bind_ok.mp run).elim
  | test negative operand yes no hyp first_hyp second_hyp =>
      cases represents with
      | test _ node inner first second =>
          obtain ⟨fuel, rfl⟩ := exists_fuel_of_checkCode run
          rw [checkCode, run_bind_of_ok (run_load_found node)] at run
          have test : (checkIfNumeral (checkCode fuel) e).run checker = .ok (type, after) := by
            cases negative <;> exact run
          rw [checkIfNumeral] at test
          obtain ⟨_, last, checked, test⟩ := run_bind_ok.mp test
          obtain ⟨rfl, sort, -, operand_sort⟩ :=
            checkNumeral_numeric node (hyp inner named table builtins) checked
          rw [checkBranches, run_bind_of_ok (run_kid_found node rfl)] at test
          obtain ⟨_, tp1, firstRun, test⟩ := run_bind_ok.mp test
          obtain ⟨rfl, sort1, typed1, yes_sort⟩ := first_hyp first named table builtins firstRun
          rw [run_bind_of_ok (run_kid_found node rfl)] at test
          obtain ⟨_, tp2, secondRun, test⟩ := run_bind_ok.mp test
          obtain ⟨rfl, sort2, typed2, no_sort⟩ := second_hyp second named table builtins secondRun
          obtain ⟨rfl, rfl, rfl⟩ := run_sameBranchType_sorts typed1 typed2 test
          exact ⟨rfl, sort1, ⟨_, rfl, builtins sort1⟩, .test negative operand_sort yes_sort no_sort⟩
  | bind x value body first_hyp second_hyp =>
      cases represents with
      | @bind _ _ _ a b _ name val _ _ node var first second =>
          obtain ⟨fuel, rfl⟩ := exists_fuel_of_checkCode run
          rw [checkCode, run_bind_of_ok (run_load_found node)] at run
          change (checkLet (checkCode fuel) e).run checker = _ at run
          have named_run : (liftM (symName x) : CheckerM String).run checker =
            .ok (name, checker) :=
            run_onStore_ok.mpr ⟨_, run_symName_ok.mpr ⟨⟨val, var⟩, rfl⟩, rfl⟩
          rw [checkLet, run_bind_of_ok (run_kid_found node rfl), run_bind_of_ok named_run,
            run_bind_of_ok (run_kid_found node rfl)] at run
          obtain ⟨_, tp1, firstRun, run⟩ := run_bind_ok.mp run
          obtain ⟨rfl, sort, typed, value_sort⟩ := first_hyp first named table builtins firstRun
          rw [run_bind_of_ok (run_kid_found node rfl)] at run
          obtain ⟨inner, body_run, restored⟩ := run_withBinding_ok.mp run
          have body_code : NumericCode (checker.typing name tp1).store.heap
              (Function.update scope name (some x)) b body := second
          have body_table : TableSorts (checker.typing name tp1).symbols
              (checker.typing name tp1).store.heap (Function.update scope name (some x))
              (Function.update sorts x sort) := table.update named var typed
          obtain ⟨rfl, sort', typed', body_sort⟩ :=
            second_hyp body_code (named.update var) body_table builtins body_run
          refine ⟨?_, sort', typed', .bind x value_sort body_sort⟩
          rw [← restored]
          simp [Checker.typing]
  | seq first second first_hyp second_hyp =>
      cases represents with
      | seq node left right =>
          obtain ⟨fuel, rfl⟩ := exists_fuel_of_checkCode run
          rw [checkCode, run_bind_of_ok (run_load_found node)] at run
          change (checkDo (checkCode fuel) e).run checker = _ at run
          rw [checkDo, run_bind_of_ok (run_kid_found node rfl)] at run
          obtain ⟨_, tp1, firstRun, run⟩ := run_bind_ok.mp run
          obtain ⟨rfl, sort, -, left_sort⟩ := first_hyp left named table builtins firstRun
          rw [run_bind_of_ok (run_kid_found node rfl)] at run
          obtain ⟨rfl, sort', typed, right_sort⟩ := second_hyp right named table builtins run
          exact ⟨rfl, sort', typed, .seq left_sort right_sort⟩

end Checking

/-! ## Numbers in the store -/

/-- An object is a number, or a symbol without a value. -/
def IsNumber (heap : List Node) (r : Ref) : Numeric.Number Ref → Prop
  | .int n => heap[r]? = some (.int n)
  | .rat q => heap[r]? = some (.rat q)
  | .symbol c => r = c ∧ ∃ name, heap[r]? = some (.sym name none)

/-- An object leads to another one by values, and not through symbols to be avoided. -/
inductive Leads (heap : List Node) (avoid : Set Ref) : Nat → Ref → Ref → Prop
  | here {steps : Nat} {r : Ref} (last : valOf heap r = none) (outside : r ∉ avoid) :
      Leads heap avoid steps r r
  | step {steps : Nat} {x next r : Ref} (linked : valOf heap x = some next) (outside : x ∉ avoid)
      (rest : Leads heap avoid steps next r) : Leads heap avoid (steps + 1) x r

/-- The identifiers of a scope stand for numbers. -/
def Prepared (heap : List Node) (avoid : Set Ref) (scope : String → Option Ref)
    (env : Ref → Numeric.Number Ref) : Prop :=
  ∀ name x, scope name = some x →
    ∃ r, Leads heap avoid heap.length x r ∧ IsNumber heap r (env x)

theorem IsNumber.valOf_eq_none {heap : List Node} {r : Ref} {v : Numeric.Number Ref}
    (number : IsNumber heap r v) : valOf heap r = none := by
  cases v with
  | int n => simp [valOf, show heap[r]? = _ from number]
  | rat q => simp [valOf, show heap[r]? = _ from number]
  | symbol c =>
      obtain ⟨-, name, found⟩ := number
      simp [valOf, found]

theorem IsNumber.found {heap : List Node} {r : Ref} {v : Numeric.Number Ref}
    (number : IsNumber heap r v) : ∃ node, heap[r]? = some node := by
  cases v with
  | int n => exact ⟨_, number⟩
  | rat q => exact ⟨_, number⟩
  | symbol c =>
      obtain ⟨-, name, found⟩ := number
      exact ⟨_, found⟩

theorem IsNumber.lt_length {heap : List Node} {r : Ref} {v : Numeric.Number Ref}
    (number : IsNumber heap r v) : r < heap.length := by
  obtain ⟨node, found⟩ := number.found
  exact (List.getElem?_eq_some_iff.mp found).1

theorem IsNumber.append {heap : List Node} {r : Ref} {v : Numeric.Number Ref}
    (number : IsNumber heap r v) (extra : List Node) : IsNumber (heap ++ extra) r v := by
  have same : (heap ++ extra)[r]? = heap[r]? := List.getElem?_append_left number.lt_length
  cases v <;> simpa only [IsNumber, same] using number

/-- Another object is overwritten. -/
theorem IsNumber.set {heap : List Node} {r x : Ref} {v : Numeric.Number Ref} {node : Node}
    (number : IsNumber heap r v) (apart : x ≠ r) : IsNumber (heap.set x node) r v := by
  have same : (heap.set x node)[r]? = heap[r]? := List.getElem?_set_ne apart
  cases v <;> simpa only [IsNumber, same] using number

theorem Leads.outside {heap : List Node} {avoid : Set Ref} {steps : Nat} {x r : Ref}
    (leads : Leads heap avoid steps x r) : r ∉ avoid := by
  induction leads with
  | here last outside => exact outside
  | step linked outside rest hyp => exact hyp

theorem Leads.followFor {heap : List Node} {avoid : Set Ref} {steps : Nat} {x r : Ref}
    (leads : Leads heap avoid steps x r) : followFor heap steps x = some r := by
  induction leads with
  | @here steps r last outside => cases steps <;> simp [Lfsc.followFor, last]
  | step linked outside rest hyp => simp [Lfsc.followFor, linked, hyp]

/-- A way remains where the objects on it have their values. -/
theorem Leads.imp {heap heap' : List Node} {avoid avoid' : Set Ref} {steps : Nat} {x r : Ref}
    (leads : Leads heap avoid steps x r) (fewer : avoid' ⊆ avoid) (more : Nat)
    (same : ∀ y, y ∉ avoid → y < heap.length → valOf heap' y = valOf heap y)
    (allocated : r < heap.length) : Leads heap' avoid' (steps + more) x r := by
  induction leads with
  | here last outside =>
      exact .here ((same _ outside allocated).trans last) fun inside => outside (fewer inside)
  | @step steps x next r linked outside rest hyp =>
      rw [Nat.add_right_comm]
      exact .step ((same _ outside (lt_length_of_valOf linked)).trans linked)
        (fun inside => outside (fewer inside)) (hyp allocated)

theorem Prepared.append {heap : List Node} {avoid : Set Ref} {scope : String → Option Ref}
    {env : Ref → Numeric.Number Ref} (prepared : Prepared heap avoid scope env)
    (extra : List Node) : Prepared (heap ++ extra) avoid scope env := by
  intro name x resolved
  obtain ⟨r, leads, number⟩ := prepared name x resolved
  refine ⟨r, ?_, number.append extra⟩
  rw [List.length_append]
  exact leads.imp subset_rfl extra.length (fun y _ allocated => valOf_append allocated)
    number.lt_length

theorem SameCode.append (heap extra : List Node) : SameCode heap (heap ++ extra) := by
  have kept : ∀ (r : Ref) (node : Node), heap[r]? = some node → (heap ++ extra)[r]? =
    some node := by
    intro r node found
    rwa [List.getElem?_append_left (List.getElem?_eq_some_iff.mp found).1]
  exact ⟨fun r node found _ => kept r node found, fun r name val found => ⟨val, kept r _ found⟩⟩

/-- A symbol gets a value. -/
theorem SameCode.set {heap : List Node} {x : Ref} {name : String} {old val : Option Ref}
    (var : heap[x]? = some (.sym name old)) : SameCode heap (heap.set x (.sym name val)) := by
  have allocated := (List.getElem?_eq_some_iff.mp var).1
  constructor
  · intro r node found solid
    have apart : x ≠ r := by
      rintro rfl
      rw [var, Option.some.injEq] at found
      exact solid _ _ found.symm
    rwa [List.getElem?_set_ne apart]
  · intro r other before found
    by_cases same : x = r
    · subst same
      rw [var, Option.some.injEq, Node.sym.injEq] at found
      exact ⟨val, by rw [List.getElem?_set_self allocated, found.1]⟩
    · exact ⟨before, by rwa [List.getElem?_set_ne same]⟩

theorem ScopeNamed.later {heap heap' : List Node} {scope : String → Option Ref}
    (named : ScopeNamed heap scope) (same : SameCode heap heap') : ScopeNamed heap' scope := by
  intro name x resolved
  obtain ⟨val, found⟩ := named name x resolved
  exact same.sym _ _ _ found

/-- A bound symbol gets its value, and need not be avoided any more. -/
theorem Prepared.update {heap : List Node} {avoid : Set Ref} {scope : String → Option Ref}
    {env : Ref → Numeric.Number Ref} {name : String} {x r : Ref} {old : Option Ref}
    {v : Numeric.Number Ref} (prepared : Prepared heap avoid scope env)
    (named : ScopeNamed heap scope) (var : heap[x]? = some (.sym name old)) (inside : x ∈ avoid)
    (number : IsNumber heap r v) (outside : r ∉ avoid) :
    Prepared (heap.set x (.sym name (some r))) (avoid \ {x}) (Function.update scope name (some x))
      (Function.update env x v) := by
  have allocated := (List.getElem?_eq_some_iff.mp var).1
  have apart_last : x ≠ r := by
    rintro rfl
    exact outside inside
  have same : ∀ y, y ∉ avoid → valOf (heap.set x (.sym name (some r))) y = valOf heap y := by
    intro y out
    have apart : x ≠ y := by
      rintro rfl
      exact out inside
    simp [valOf, List.getElem?_set_ne apart]
  intro other y resolved
  rw [List.length_set]
  by_cases here : other = name
  · subst here
    obtain rfl : x = y := by simpa using resolved
    have linked : valOf (heap.set x (.sym other (some r))) x = some r := by
      simp [valOf, List.getElem?_set_self allocated]
    have last : Leads (heap.set x (.sym other (some r))) (avoid \ {x}) (heap.length - 1) r r :=
      .here ((same r outside).trans number.valOf_eq_none) fun member => outside member.1
    refine ⟨r, ?_, by simpa using number.set apart_last⟩
    have positive : heap.length - 1 + 1 = heap.length := by omega
    rw [← positive]
    exact .step linked (by simp) last
  · have before : scope other = some y := by simpa [here] using resolved
    obtain ⟨last, leads, found⟩ := prepared other y before
    have apart : y ≠ x := by
      rintro rfl
      obtain ⟨val, loaded⟩ := named other y before
      rw [var, Option.some.injEq, Node.sym.injEq] at loaded
      exact here loaded.1.symm
    have elsewhere : x ≠ last := by
      rintro rfl
      exact leads.outside inside
    refine ⟨last, leads.imp (fun z member => member.1) 0 (fun z out _ => same z out)
      found.lt_length, ?_⟩
    rw [Function.update_of_ne apart]
    exact found.set elsewhere

/-! ## Results are exact -/

/-- The state with further objects. -/
def Runtime.grow (runtime : Runtime) (extra : List Node) : Runtime :=
  { runtime with store := { runtime.store with heap := runtime.store.heap ++ extra } }

theorem Runtime.grow_grow (runtime : Runtime) (extra more : List Node) :
    (runtime.grow extra).grow more = runtime.grow (extra ++ more) := by
  simp [Runtime.grow]

/-- What is returned for a result of numeric code. -/
def Yields (heap : List Node) (avoid : Set Ref) : Option Ref → Option (Numeric.Number Ref) → Prop
  | none, none => True
  | some r, some v => IsNumber heap r v ∧ r ∉ avoid
  | _, _ => False

theorem Yields.append {heap : List Node} {avoid : Set Ref} {result : Option Ref}
    {value : Option (Numeric.Number Ref)} (yields : Yields heap avoid result value)
    (extra : List Node) : Yields (heap ++ extra) avoid result value := by
  cases result with
  | none => cases value <;> exact yields
  | some r =>
      cases value with
      | none => exact yields
      | some v => exact ⟨yields.1.append extra, yields.2⟩

/-- Running code gives its result and allocates objects, or the code converts a symbol. -/
def ComputesNumber (env : Ref → Numeric.Number Ref) (avoid : Set Ref) (term : Numeric.Term Ref)
    (code : RunM (Option Ref)) (before : Runtime) : Prop :=
  Ends (fun why => why = .undefined ∧ term.ConvertsSymbol env)
    (fun result after => ¬ term.ConvertsSymbol env ∧ ∃ extra, after = before.grow extra ∧
      Yields after.store.heap avoid result (term.eval env)) code before

section Running

variable {runtime : Runtime} {scope : String → Option Ref} {env : Ref → Numeric.Number Ref}
  {avoid : Set Ref} {useCache : Bool}

theorem run_loadObject {r : Ref} {node : Node} (found : runtime.store.heap[r]? = some node) :
    (liftM (load r) : RunM Node).run runtime = .ok (node, runtime) :=
  run_lift_ok.mpr ⟨_, run_load_ok.mpr ⟨found, rfl⟩, rfl⟩

theorem run_kidObject {r child : Ref} {op : Op} {kids : List Ref} {flag : Bool} {index : Nat}
    (found : runtime.store.heap[r]? = some (.cexpr op kids flag))
    (same : kids[index]? = some child) :
    (liftM (kid r index) : RunM Ref).run runtime = .ok (child, runtime) :=
  run_lift_ok.mpr ⟨_, run_kid_ok.mpr ⟨⟨_, _, _, found, same⟩, rfl⟩, rfl⟩

theorem exists_fuel {fuel height : Nat} (enough : height < fuel) : ∃ less, fuel = less + 1 :=
  Nat.exists_eq_succ_of_ne_zero (by omega)

theorem computes_pure {term : Numeric.Term Ref} {result : Option Ref}
    (quiet : ¬ term.ConvertsSymbol env)
    (yields : Yields runtime.store.heap avoid result (term.eval env)) :
    ComputesNumber env avoid term (pure result) runtime :=
  ends_pure ⟨quiet, [], by simp [Runtime.grow], yields⟩

/-- Code that converts a symbol and has a result where other code does. -/
theorem ComputesNumber.congr {env' : Ref → Numeric.Number Ref} {term term' : Numeric.Term Ref}
    {code : RunM (Option Ref)} (computes : ComputesNumber env avoid term code runtime)
    (converts : term'.ConvertsSymbol env' ↔ term.ConvertsSymbol env)
    (value : term'.eval env' = term.eval env) : ComputesNumber env' avoid term' code runtime := by
  rw [ComputesNumber, converts, value]
  exact computes

/-- An operation on the store returns a result and allocates objects. -/
def Delivers (m : StoreM (Option Ref)) (store : Store) (avoid : Set Ref)
    (value : Option (Numeric.Number Ref)) : Prop :=
  ∃ result extra, m.run store = .ok (result, { store with heap := store.heap ++ extra }) ∧
    Yields (store.heap ++ extra) avoid result value

theorem delivers_none {store : Store} : Delivers (pure none) store avoid none := by
  refine ⟨none, [], ?_, trivial⟩
  rw [List.append_nil]
  rfl

theorem delivers_new {store : Store} {v : Numeric.Number Ref} {node : Node}
    (number : IsNumber (store.heap ++ [node]) store.heap.length v)
    (allocated : ∀ x ∈ avoid, x < store.heap.length) :
    Delivers (do return some (← new node)) store avoid (some v) :=
  ⟨some store.heap.length, [node], rfl, number, fun inside => (allocated _ inside).false⟩

theorem delivers_load {store : Store} {r : Ref} {node : Node} {k : Node → StoreM (Option Ref)}
    {value : Option (Numeric.Number Ref)} (found : store.heap[r]? = some node)
    (rest : Delivers (k node) store avoid value) : Delivers (load r >>= k) store avoid value := by
  obtain ⟨result, extra, run, yields⟩ := rest
  exact ⟨result, extra, (run_bind_of_ok (run_load_ok.mpr ⟨found, rfl⟩)).trans run, yields⟩

theorem Delivers.computes {m : StoreM (Option Ref)} {term : Numeric.Term Ref}
    (quiet : ¬ term.ConvertsSymbol env)
    (delivers : Delivers m runtime.store avoid (term.eval env)) :
    ComputesNumber env avoid term (liftM m) runtime := by
  obtain ⟨result, extra, run, yields⟩ := delivers
  exact ends_of_ok (run_lift_ok.mpr ⟨_, run, rfl⟩) ⟨quiet, extra, rfl, yields⟩

theorem fdiv_eq_floor (m n : Int) : m.fdiv n = ⌊(m : ℚ) / n⌋ := by
  have natural : ∀ (m : Int) (k : Nat), m.fdiv k = ⌊(m : ℚ) / (k : Int)⌋ := by
    intro m k
    rw [Int.fdiv_eq_ediv_of_nonneg _ (Int.natCast_nonneg k), Int.cast_natCast,
      Rat.floor_intCast_div_natCast]
  obtain ⟨k, rfl | rfl⟩ := n.eq_nat_or_neg
  · exact natural m k
  · have flipped : m.fdiv (-(k : Int)) = (-m).fdiv k := by
      rw [← Int.neg_fdiv_neg (-m), neg_neg]
    rw [flipped, natural]
    push_cast
    rw [div_neg, neg_div]

theorem intArith_operatorFor (op : Numeric.Operation) (m n : Int) :
    intArith (operatorFor op) m n = op.onInt m n := by
  cases op with
  | add => rfl
  | mul => rfl
  | div => simp only [intArith, operatorFor, Numeric.Operation.onInt, fdiv_eq_floor]

theorem ratArith_operatorFor (op : Numeric.Operation) (p q : Rat) :
    ratArith (operatorFor op) p q = op.onRat p q := by
  cases op <;> rfl

theorem delivers_arithmetic {store : Store} {a b : Ref} {u v : Numeric.Number Ref}
    (op : Numeric.Operation) (first : IsNumber store.heap a u) (second : IsNumber store.heap b v)
    (allocated : ∀ x ∈ avoid, x < store.heap.length) :
    Delivers (arithmetic (operatorFor op) a b) store avoid (op.apply u v) := by
  obtain ⟨left, first_found⟩ := first.found
  obtain ⟨right, second_found⟩ := second.found
  refine delivers_load first_found (delivers_load second_found ?_)
  cases u with
  | symbol c =>
      obtain ⟨-, name, found⟩ := first
      obtain rfl := Option.some.inj (first_found.symm.trans found)
      exact delivers_none
  | int m =>
      obtain rfl := Option.some.inj (first_found.symm.trans first)
      cases v with
      | symbol c =>
          obtain ⟨-, name, found⟩ := second
          obtain rfl := Option.some.inj (second_found.symm.trans found)
          exact delivers_none
      | rat q =>
          obtain rfl := Option.some.inj (second_found.symm.trans second)
          exact delivers_none
      | int n =>
          obtain rfl := Option.some.inj (second_found.symm.trans second)
          simp only [intArith_operatorFor, Numeric.Operation.apply]
          cases op.onInt m n with
          | none => exact delivers_none
          | some value => exact delivers_new (by simp [IsNumber]) allocated
  | rat p =>
      obtain rfl := Option.some.inj (first_found.symm.trans first)
      cases v with
      | symbol c =>
          obtain ⟨-, name, found⟩ := second
          obtain rfl := Option.some.inj (second_found.symm.trans found)
          exact delivers_none
      | int n =>
          obtain rfl := Option.some.inj (second_found.symm.trans second)
          exact delivers_none
      | rat q =>
          obtain rfl := Option.some.inj (second_found.symm.trans second)
          simp only [ratArith_operatorFor, Numeric.Operation.apply]
          cases op.onRat p q with
          | none => exact delivers_none
          | some value => exact delivers_new (by simp [IsNumber]) allocated

theorem delivers_negation {store : Store} {a : Ref} {u : Numeric.Number Ref}
    (operand : IsNumber store.heap a u) (allocated : ∀ x ∈ avoid, x < store.heap.length) :
    Delivers (negation a) store avoid u.negate := by
  rw [negation]
  cases u with
  | symbol c =>
      obtain ⟨-, name, found⟩ := operand
      exact delivers_load found delivers_none
  | int n => exact delivers_load operand (delivers_new (by simp [IsNumber]) allocated)
  | rat q => exact delivers_load operand (delivers_new (by simp [IsNumber]) allocated)

theorem run_numeralTest {a : Ref} {u : Numeric.Number Ref} {negative : Bool}
    (operand : IsNumber runtime.store.heap a u) :
    (liftM (numeralTest (if negative then .ifneg else .ifzero) a) : RunM (Option Bool)).run
      runtime =
      .ok (u.test negative, runtime) := by
  have run : (numeralTest (if negative then .ifneg else .ifzero) a).run runtime.store =
      .ok (u.test negative, runtime.store) := by
    rw [numeralTest]
    cases u with
    | symbol c =>
        obtain ⟨-, name, found⟩ := operand
        rw [run_bind_of_ok (run_load_ok.mpr ⟨found, rfl⟩)]
        rfl
    | int n =>
        rw [run_bind_of_ok (run_load_ok.mpr ⟨operand, rfl⟩)]
        cases negative <;> rfl
    | rat q =>
        rw [run_bind_of_ok (run_load_ok.mpr ⟨operand, rfl⟩)]
        cases negative <;> rfl
  exact run_lift_ok.mpr ⟨_, run, rfl⟩

/-- A subterm is run first. -/
theorem ComputesNumber.bind {env' : Ref → Numeric.Number Ref} {avoid' : Set Ref}
    {operand term : Numeric.Term Ref} {code : RunM (Option Ref)}
    {k : Option Ref → RunM (Option Ref)} (computes : ComputesNumber env avoid operand code runtime)
    (quits : k none = pure none) (stops : operand.ConvertsSymbol env → term.ConvertsSymbol env')
    (failed : ¬ operand.ConvertsSymbol env → operand.eval env = none →
      ¬ term.ConvertsSymbol env' ∧ term.eval env' = none)
    (returned : ¬ operand.ConvertsSymbol env → ∀ v, operand.eval env = some v → ∀ r extra,
      IsNumber (runtime.grow extra).store.heap r v → r ∉ avoid →
      ComputesNumber env' avoid' term (k (some r)) (runtime.grow extra)) :
    ComputesNumber env' avoid' term (code >>= k) runtime := by
  have weaker : Ends (fun why => why = .undefined ∧ term.ConvertsSymbol env')
      (fun result after => ¬ operand.ConvertsSymbol env ∧ ∃ extra, after = runtime.grow extra ∧
        Yields after.store.heap avoid result (operand.eval env)) code runtime :=
    computes.weaken fun why stopped => ⟨stopped.1, stops stopped.2⟩
  refine ends_bind weaker ?_
  rintro result middle ⟨quiet, extra, rfl, yields⟩
  cases result with
  | none =>
      cases value : operand.eval env with
      | some v =>
          rw [value] at yields
          exact yields.elim
      | none =>
          obtain ⟨still, nothing⟩ := failed quiet value
          rw [quits]
          exact ends_pure ⟨still, extra, rfl, nothing ▸ trivial⟩
  | some r =>
      cases value : operand.eval env with
      | none =>
          rw [value] at yields
          exact yields.elim
      | some v =>
          rw [value] at yields
          refine (returned quiet v value r extra yields.1 yields.2).imp ?_
          rintro result after ⟨still, more, rfl, last⟩
          exact ⟨still, extra ++ more, runtime.grow_grow extra more, last⟩

theorem Runtime.grow_found {r : Ref} {node : Node} (found : runtime.store.heap[r]? = some node)
    (extra : List Node) : (runtime.grow extra).store.heap[r]? = some node := by
  rw [Runtime.grow, List.getElem?_append_left (List.getElem?_eq_some_iff.mp found).1]
  exact found

theorem Runtime.grow_allocated (allocated : ∀ x ∈ avoid, x < runtime.store.heap.length)
    (extra : List Node) : ∀ x ∈ avoid, x < (runtime.grow extra).store.heap.length := by
  intro x inside
  rw [Runtime.grow, List.length_append]
  exact Nat.lt_add_right _ (allocated x inside)

/-- The state with a symbol assigned. -/
def Runtime.assign (runtime : Runtime) (x : Ref) (name : String) (val : Option Ref) : Runtime :=
  { runtime with store :=
    { runtime.store with heap := runtime.store.heap.set x (.sym name val) } }

theorem run_assignVar {x r : Ref} {name : String} {old : Option Ref}
    (var : runtime.store.heap[x]? = some (.sym name old)) :
    (liftM (assignVars [(x, r)]) : RunM _).run runtime =
      .ok ([(x, old)], runtime.assign x name (some r)) := by
  have written : (setSymVal x (some r)).run runtime.store =
      .ok ((), (runtime.assign x name (some r)).store) :=
    run_setSymVal_ok.mpr ⟨name, old, var, rfl⟩
  have run : (assignVars [(x, r)]).run runtime.store =
      .ok ([(x, old)], (runtime.assign x name (some r)).store) := by
    rw [assignVars, run_bind_of_ok (run_symVal_ok.mpr ⟨⟨name, var⟩, rfl⟩), run_bind_of_ok written]
    rfl
  exact run_lift_ok.mpr ⟨_, run, rfl⟩

section Restoring

variable {x r : Ref} {name : String} {old : Option Ref} {more : List Node}

theorem Runtime.assign_grow_found (var : runtime.store.heap[x]? = some (.sym name old)) :
    ((runtime.assign x name (some r)).grow more).store.heap[x]? = some (.sym name (some r)) := by
  refine Runtime.grow_found ?_ more
  exact List.getElem?_set_self (List.getElem?_eq_some_iff.mp var).1

theorem Runtime.assign_grow_set (var : runtime.store.heap[x]? = some (.sym name old)) :
    ((runtime.assign x name (some r)).grow more).store.heap.set x (.sym name old) =
      (runtime.grow more).store.heap := by
  obtain ⟨allocated, here⟩ := List.getElem?_eq_some_iff.mp var
  rw [Runtime.grow, Runtime.assign, List.set_append_left _ _ (by simpa using allocated),
    List.set_set, ← here, List.set_getElem_self]
  rfl

/-- The old value is assigned back. -/
theorem run_restoreVar (var : runtime.store.heap[x]? = some (.sym name old)) :
    (liftM (restoreVals [(x, old)]) : RunM Unit).run
      ((runtime.assign x name (some r)).grow more) = .ok ((), runtime.grow more) := by
  have written : (setSymVal x old).run ((runtime.assign x name (some r)).grow more).store =
      .ok ((), (runtime.grow more).store) := by
    refine run_setSymVal_ok.mpr ⟨name, some r, Runtime.assign_grow_found var, ?_⟩
    rw [Runtime.assign_grow_set var]
    rfl
  have run : (restoreVals [(x, old)]).run ((runtime.assign x name (some r)).grow more).store =
      .ok ((), (runtime.grow more).store) := by
    rw [restoreVals, run_bind_of_ok written]
    rfl
  exact run_lift_ok.mpr ⟨_, run, rfl⟩

/-- A result under an assignment is none of the symbol assigned. -/
theorem Yields.restored {result : Option Ref} {value : Option (Numeric.Number Ref)}
    (var : runtime.store.heap[x]? = some (.sym name old))
    (yields : Yields ((runtime.assign x name (some r)).grow more).store.heap (avoid \ {x})
      result value) : Yields (runtime.grow more).store.heap avoid result value := by
  cases result with
  | none => cases value <;> exact yields
  | some last =>
      cases value with
      | none => exact yields
      | some v =>
          obtain ⟨number, outside⟩ := yields
          have apart : x ≠ last := by
            rintro rfl
            have unassigned := number.valOf_eq_none
            simp [valOf, Runtime.assign_grow_found var] at unassigned
          have same : last ∉ avoid := fun inside => outside ⟨inside, fun here => apart here.symm⟩
          rw [← Runtime.assign_grow_set var]
          exact ⟨number.set apart, same⟩

end Restoring

section Formers

variable {self : Ref → RunM (Option Ref)} {e a b c : Ref} {op : Op} {kids : List Ref} {flag : Bool}
  {left right operand yes no : Numeric.Term Ref}

attribute [local simp] Numeric.Term.ConvertsSymbol Numeric.Term.eval

theorem computes_arith (operation : Numeric.Operation)
    (node : runtime.store.heap[e]? = some (.cexpr op [a, b] flag))
    (first : ComputesNumber env avoid left (self a) runtime)
    (second : ∀ extra, ComputesNumber env avoid right (self b) (runtime.grow extra))
    (allocated : ∀ x ∈ avoid, x < runtime.store.heap.length) :
    ComputesNumber env avoid (.arith operation left right) (runArith self (operatorFor operation) e)
      runtime := by
  rw [runArith]
  refine ends_bind_of_ok (run_kidObject node rfl) ?_
  refine first.bind rfl .inl (fun quiet nothing => ?_) fun quiet u value r extra number outside =>
    ?_
  · simp [Numeric.Term.ConvertsSymbol, Numeric.Term.eval, quiet, nothing]
  refine ends_bind_of_ok (run_kidObject (Runtime.grow_found node extra) rfl) ?_
  refine (second extra).bind rfl (fun converts => .inr ⟨u, value, converts⟩)
    (fun quiet' nothing => ?_) fun quiet' v value' r' more number' outside' => ?_
  · simp [Numeric.Term.ConvertsSymbol, Numeric.Term.eval, quiet, quiet', value, nothing]
  · refine Delivers.computes (by simp [Numeric.Term.ConvertsSymbol, quiet, quiet']) ?_
    simp only [Numeric.Term.eval, value, value']
    exact delivers_arithmetic operation (number.append more) number'
      (Runtime.grow_allocated (Runtime.grow_allocated allocated extra) more)

theorem computes_neg (node : runtime.store.heap[e]? = some (.cexpr op [a] flag))
    (inner : ComputesNumber env avoid operand (self a) runtime)
    (allocated : ∀ x ∈ avoid, x < runtime.store.heap.length) :
    ComputesNumber env avoid (.neg operand) (runNeg self e) runtime := by
  rw [runNeg]
  refine ends_bind_of_ok (run_kidObject node rfl) ?_
  refine inner.bind rfl id (fun quiet nothing => ?_) fun quiet u value r extra number outside => ?_
  · simp [Numeric.Term.ConvertsSymbol, Numeric.Term.eval, quiet, nothing]
  · refine Delivers.computes quiet ?_
    simp only [Numeric.Term.eval, value, Option.bind_some]
    exact delivers_negation number (Runtime.grow_allocated allocated extra)

/-- An integer is converted; a symbol is read as an integer. -/
theorem computes_toRat (node : runtime.store.heap[e]? = some (.cexpr op [a] flag))
    (inner : ComputesNumber env avoid operand (self a) runtime)
    (integral : ∀ u, operand.eval env = some u → u.HasSort .integer)
    (allocated : ∀ x ∈ avoid, x < runtime.store.heap.length) :
    ComputesNumber env avoid (.toRat operand) (runMpzToMpq self e) runtime := by
  rw [runMpzToMpq]
  refine ends_bind_of_ok (run_kidObject node rfl) ?_
  refine inner.bind rfl .inl (fun quiet nothing => ?_) fun quiet u value r extra number outside =>
    ?_
  · simp [Numeric.Term.ConvertsSymbol, Numeric.Term.eval, quiet, nothing]
  · cases u with
    | symbol d =>
        obtain ⟨-, name, found⟩ := number
        exact ends_bind_of_ok (run_loadObject found)
          (ends_stop ⟨rfl, .inr ⟨_, value, trivial⟩⟩)
    | rat q => cases integral _ value
    | int n =>
        refine ends_bind_of_ok (run_loadObject number) ?_
        have still : ¬ (Numeric.Term.toRat operand).ConvertsSymbol env := by
          simp [Numeric.Term.ConvertsSymbol, quiet, value, Numeric.Number.IsSymbol]
        refine Delivers.computes (m := do return some (← new (.rat n))) still ?_
        simp only [Numeric.Term.eval, value, Option.bind_some, Numeric.Number.toRat]
        exact delivers_new (by simp [IsNumber]) (Runtime.grow_allocated allocated extra)

theorem computes_test (negative : Bool)
    (node : runtime.store.heap[e]? = some (.cexpr op [a, b, c] flag))
    (inner : ComputesNumber env avoid operand (self a) runtime)
    (first : ∀ extra, ComputesNumber env avoid yes (self b) (runtime.grow extra))
    (second : ∀ extra, ComputesNumber env avoid no (self c) (runtime.grow extra)) :
    ComputesNumber env avoid (.test negative operand yes no)
      (runIfNumeral self (if negative then .ifneg else .ifzero) e) runtime := by
  rw [runIfNumeral]
  refine ends_bind_of_ok (run_kidObject node rfl) ?_
  refine inner.bind rfl .inl (fun quiet nothing => ?_) fun quiet u value r extra number outside =>
    ?_
  · simp [Numeric.Term.ConvertsSymbol, Numeric.Term.eval, quiet, nothing]
  refine ends_bind_of_ok (run_numeralTest number) ?_
  cases condition : u.test negative with
  | none =>
      refine computes_pure ?_ ?_
      · simp [Numeric.Term.ConvertsSymbol, quiet, value, condition]
      · simp [Numeric.Term.eval, value, condition, Yields]
  | some holds =>
      cases holds with
      | true =>
          refine ends_bind_of_ok (run_kidObject (Runtime.grow_found node extra) rfl) ?_
          refine (first extra).congr ?_ ?_
          · simp [Numeric.Term.ConvertsSymbol, quiet, value, condition]
          · simp [Numeric.Term.eval, value, condition]
      | false =>
          refine ends_bind_of_ok (run_kidObject (Runtime.grow_found node extra) rfl) ?_
          refine (second extra).congr ?_ ?_
          · simp [Numeric.Term.ConvertsSymbol, quiet, value, condition]
          · simp [Numeric.Term.eval, value, condition]

theorem computes_seq (node : runtime.store.heap[e]? = some (.cexpr op [a, b] flag))
    (first : ComputesNumber env avoid left (self a) runtime)
    (second : ∀ extra, ComputesNumber env avoid right (self b) (runtime.grow extra)) :
    ComputesNumber env avoid (.seq left right) (runDo self e) runtime := by
  rw [runDo]
  refine ends_bind_of_ok (run_kidObject node rfl) ?_
  refine first.bind rfl .inl (fun quiet nothing => ?_) fun quiet u value r extra number outside =>
    ?_
  · simp [Numeric.Term.ConvertsSymbol, Numeric.Term.eval, quiet, nothing]
  · refine ends_bind_of_ok (run_kidObject (Runtime.grow_found node extra) rfl) ?_
    refine (second extra).congr ?_ ?_
    · simp [Numeric.Term.ConvertsSymbol, quiet, value]
    · simp [Numeric.Term.eval, value]

/-- A variable has its value while the body runs. -/
theorem computes_let {x : Ref} {name : String} {old : Option Ref} {value body : Numeric.Term Ref}
    (node : runtime.store.heap[e]? = some (.cexpr op [x, a, b] flag))
    (var : runtime.store.heap[x]? = some (.sym name old))
    (first : ComputesNumber env avoid value (self a) runtime)
    (second : ∀ u r extra, value.eval env = some u → IsNumber (runtime.grow extra).store.heap r u →
      r ∉ avoid → ComputesNumber (Function.update env x u) (avoid \ {x}) body (self b)
        ((runtime.grow extra).assign x name (some r))) :
    ComputesNumber env avoid (.bind x value body) (runLet self e) runtime := by
  rw [runLet]
  refine ends_bind_of_ok (run_kidObject node rfl) ?_
  refine first.bind rfl .inl (fun quiet nothing => ?_) fun quiet u valued r extra number outside =>
    ?_
  · simp [Numeric.Term.ConvertsSymbol, Numeric.Term.eval, quiet, nothing]
  have node' := Runtime.grow_found node extra
  have var' := Runtime.grow_found var extra
  refine ends_bind_of_ok (run_kidObject node' rfl) (ends_bind_of_ok (run_assignVar var') ?_)
  have assigned : SameCode (runtime.grow extra).store.heap
      ((runtime.grow extra).assign x name (some r)).store.heap := .set var'
  have node'' := assigned.solid _ _ node' (by simp)
  refine ends_bind_of_ok (run_kidObject node'' rfl) ?_
  have inner : Ends (fun why => why = .undefined ∧
    (Numeric.Term.bind x value body).ConvertsSymbol env)
      _ (self b) ((runtime.grow extra).assign x name (some r)) :=
    (second u r extra valued number outside).weaken
      fun why stopped => ⟨stopped.1, .inr ⟨u, valued, stopped.2⟩⟩
  refine ends_bind inner ?_
  rintro result after ⟨still, more, rfl, yields⟩
  refine ends_bind_of_ok (run_restoreVar var') (ends_pure ⟨?_, more, rfl, ?_⟩)
  · simp [Numeric.Term.ConvertsSymbol, quiet, valued, still]
  · simp only [Numeric.Term.eval, valued]
    exact yields.restored var'

end Formers

theorem computes_runCExpr {e : Ref} {op : Op} {kids : List Ref} {flag : Bool} {fuel : Nat}
    {term : Numeric.Term Ref} (node : runtime.store.heap[e]? = some (.cexpr op kids flag))
    (computes : ComputesNumber env avoid term
      (runCExpr fuel (runCodeInternal fuel) useCache op e) runtime) :
    ComputesNumber env avoid term (runCodeInternal (fuel + 1) e useCache) runtime := by
  rw [runCodeInternal]
  exact ends_bind_of_ok (run_loadObject node) computes

/-- The identifiers of a scope are symbols that stand for numbers. -/
structure Setting (heap : List Node) (avoid : Set Ref) (scope : String → Option Ref)
    (env : Ref → Numeric.Number Ref) : Prop where
  named : ScopeNamed heap scope
  prepared : Prepared heap avoid scope env
  binders : ∀ x ∈ avoid, ∃ name val, heap[x]? = some (.sym name val)

theorem Setting.allocated {heap : List Node} (setting : Setting heap avoid scope env) :
    ∀ x ∈ avoid, x < heap.length := by
  intro x inside
  obtain ⟨name, val, found⟩ := setting.binders x inside
  exact (List.getElem?_eq_some_iff.mp found).1

theorem Setting.grow (setting : Setting runtime.store.heap avoid scope env) (extra : List Node) :
    Setting (runtime.grow extra).store.heap avoid scope env := by
  refine ⟨setting.named.later (.append _ extra), setting.prepared.append extra, ?_⟩
  intro x inside
  obtain ⟨name, val, found⟩ := setting.binders x inside
  exact ⟨name, val, Runtime.grow_found found extra⟩

theorem Setting.assign {x r : Ref} {name : String} {old : Option Ref} {v : Numeric.Number Ref}
    (setting : Setting runtime.store.heap avoid scope env)
    (var : runtime.store.heap[x]? = some (.sym name old)) (inside : x ∈ avoid)
    (number : IsNumber runtime.store.heap r v) (outside : r ∉ avoid) :
    Setting (runtime.assign x name (some r)).store.heap (avoid \ {x})
      (Function.update scope name (some x)) (Function.update env x v) := by
  have same : SameCode runtime.store.heap (runtime.assign x name (some r)).store.heap :=
    .set var
  obtain ⟨val, var'⟩ := same.sym _ _ _ var
  refine ⟨(setting.named.later same).update var', ?_, ?_⟩
  · exact setting.prepared.update setting.named var inside number outside
  · intro y member
    obtain ⟨other, old, found⟩ := setting.binders y member.1
    exact ⟨other, same.sym _ _ _ found⟩

/-- A numeral is its own value. -/
theorem computes_numeral {e : Ref} {node : Node} {v : Numeric.Number Ref} {fuel : Nat}
    {term : Numeric.Term Ref} (setting : Setting runtime.store.heap avoid scope env)
    (found : runtime.store.heap[e]? = some node)
    (leaf : (∃ n, node = .int n) ∨ ∃ q, node = .rat q) (quiet : ¬ term.ConvertsSymbol env)
    (value : term.eval env = some v) (number : IsNumber runtime.store.heap e v) :
    ComputesNumber env avoid term (runCodeInternal (fuel + 1) e useCache) runtime := by
  have outside : e ∉ avoid := by
    intro inside
    obtain ⟨name, val, symbol⟩ := setting.binders e inside
    obtain rfl := Option.some.inj (found.symm.trans symbol)
    simp at leaf
  have run : (runLeaf e).run runtime.store = .ok (some e, runtime.store) := by
    rw [runLeaf, run_bind_of_ok (run_load_ok.mpr ⟨found, rfl⟩)]
    rcases leaf with ⟨n, rfl⟩ | ⟨q, rfl⟩ <;> rfl
  have delivers : Delivers (runLeaf e) runtime.store avoid (term.eval env) :=
    ⟨some e, [], by rw [run, List.append_nil], by simpa [value] using ⟨number, outside⟩⟩
  rw [runCodeInternal]
  refine ends_bind_of_ok (run_loadObject found) ?_
  rcases leaf with ⟨n, rfl⟩ | ⟨q, rfl⟩ <;> exact delivers.computes quiet

/-- An identifier has the value of its symbol. -/
theorem computes_name {x : Ref} {name : String} {val : Option Ref} {fuel : Nat}
    (setting : Setting runtime.store.heap avoid scope env)
    (found : runtime.store.heap[x]? = some (.sym name val)) (resolved : scope name = some x) :
    ComputesNumber env avoid (.name x) (runCodeInternal (fuel + 1) x useCache) runtime := by
  obtain ⟨r, leads, number⟩ := setting.prepared name x resolved
  have run : (runLeaf x).run runtime.store = .ok (some r, runtime.store) := by
    rw [runLeaf, run_bind_of_ok (run_load_ok.mpr ⟨found, rfl⟩)]
    change (do return some (← follow x) : StoreM (Option Ref)).run runtime.store = _
    rw [run_bind_of_ok (run_follow_ok.mpr ⟨leads.followFor, rfl⟩)]
    rfl
  have delivers : Delivers (runLeaf x) runtime.store avoid ((Numeric.Term.name x).eval env) :=
    ⟨some r, [], by rw [run, List.append_nil],
      by simpa [Numeric.Term.eval] using ⟨number, leads.outside⟩⟩
  rw [runCodeInternal]
  exact ends_bind_of_ok (run_loadObject found)
    (delivers.computes (by simp [Numeric.Term.ConvertsSymbol]))

/-- Code of a sort computes its result, unless it converts a symbol. -/
theorem runCodeInternal_numeric {term : Numeric.Term Ref} {sorts : Ref → Numeric.NumberSort}
    {sort : Numeric.NumberSort} (typed : term.HasSort sorts sort) {fuel : Nat} {e : Ref}
    (represents : NumericCode runtime.store.heap scope e term) (sorted : Numeric.Sorted sorts env)
    (setting : Setting runtime.store.heap avoid scope env) (distinct : term.binders.Nodup)
    (bound : ∀ x ∈ term.binders, x ∈ avoid) (enough : term.height < fuel) :
    ComputesNumber env avoid term (runCodeInternal fuel e useCache) runtime := by
  induction typed generalizing runtime scope env avoid fuel e with
  | int n =>
      obtain ⟨fuel, rfl⟩ := exists_fuel enough
      cases represents with
      | int node =>
          exact computes_numeral setting node (.inl ⟨n, rfl⟩)
            (by simp [Numeric.Term.ConvertsSymbol])
            rfl node
  | rat q =>
      obtain ⟨fuel, rfl⟩ := exists_fuel enough
      cases represents with
      | rat node =>
          exact computes_numeral setting node (.inr ⟨q, rfl⟩)
            (by simp [Numeric.Term.ConvertsSymbol])
            rfl node
  | name x =>
      obtain ⟨fuel, rfl⟩ := exists_fuel enough
      cases represents with
      | name node resolved => exact computes_name setting node resolved
  | @arith _ _ left right op _ _ first_hyp second_hyp =>
      obtain ⟨fuel, rfl⟩ := exists_fuel enough
      rw [Numeric.Term.height] at enough
      rw [Numeric.Term.binders, List.nodup_append] at distinct
      simp only [Numeric.Term.binders, List.mem_append] at bound
      cases represents with
      | arith _ node first second =>
          have goal : ComputesNumber env avoid (.arith op left right)
              (runArith (runCodeInternal fuel · useCache) (operatorFor op) e) runtime := by
            refine computes_arith op node ?_ (fun extra => ?_) setting.allocated
            · exact first_hyp first sorted setting distinct.1
                (fun x member => bound x (.inl member))
                (by omega)
            · exact second_hyp (second.later (.append _ extra)) sorted (setting.grow extra)
                distinct.2.1 (fun x member => bound x (.inr member)) (by omega)
          refine computes_runCExpr node ?_
          cases op <;> exact goal
  | neg _ hyp =>
      obtain ⟨fuel, rfl⟩ := exists_fuel enough
      cases represents with
      | neg node inner =>
          exact computes_runCExpr node (computes_neg node
            (hyp inner sorted setting distinct bound (Nat.lt_of_succ_lt_succ enough))
            setting.allocated)
  | toRat typed hyp =>
      obtain ⟨fuel, rfl⟩ := exists_fuel enough
      cases represents with
      | toRat node inner =>
          exact computes_runCExpr node (computes_toRat node
            (hyp inner sorted setting distinct bound (Nat.lt_of_succ_lt_succ enough))
            (fun u value => typed.eval sorted value) setting.allocated)
  | @test _ _ _ operand yes no negative _ _ _ hyp first_hyp second_hyp =>
      obtain ⟨fuel, rfl⟩ := exists_fuel enough
      rw [Numeric.Term.height] at enough
      rw [Numeric.Term.binders, List.nodup_append, List.nodup_append] at distinct
      simp only [Numeric.Term.binders, List.mem_append] at bound
      cases represents with
      | test _ node inner first second =>
          have goal : ComputesNumber env avoid (.test negative operand yes no)
              (runIfNumeral (runCodeInternal fuel · useCache)
                (if negative then .ifneg else .ifzero) e) runtime := by
            refine computes_test negative node ?_ (fun extra => ?_) fun extra => ?_
            · exact hyp inner sorted setting distinct.1.1
                (fun x member => bound x (.inl (.inl member))) (by omega)
            · exact first_hyp (first.later (.append _ extra)) sorted (setting.grow extra)
                distinct.1.2.1 (fun x member => bound x (.inl (.inr member))) (by omega)
            · exact second_hyp (second.later (.append _ extra)) sorted (setting.grow extra)
                distinct.2.1 (fun x member => bound x (.inr member)) (by omega)
          refine computes_runCExpr node ?_
          cases negative <;> exact goal
  | @bind _ _ _ value body x value_typed _ first_hyp second_hyp =>
      obtain ⟨fuel, rfl⟩ := exists_fuel enough
      rw [Numeric.Term.height] at enough
      rw [Numeric.Term.binders, List.nodup_append, List.nodup_cons] at distinct
      simp only [Numeric.Term.binders, List.mem_append, List.mem_cons] at bound
      have inside : x ∈ avoid := bound x (.inr (.inl rfl))
      cases represents with
      | bind node var first second =>
          refine computes_runCExpr node (computes_let node var ?_ ?_)
          · exact first_hyp first sorted setting distinct.1 (fun y member => bound y (.inl member))
              (by omega)
          · intro u r extra valued number outside
            have var' := Runtime.grow_found var extra
            have assigned : SameCode (runtime.grow extra).store.heap
                ((runtime.grow extra).assign x _ (some r)).store.heap := .set var'
            have code := (second.later (.append _ extra)).later assigned
            refine second_hyp code (sorted.update (value_typed.eval sorted valued))
              ((setting.grow extra).assign var' inside number outside) distinct.2.1.2 ?_ (by omega)
            intro y member
            refine ⟨bound y (.inr (.inr member)), ?_⟩
            rintro rfl
            exact distinct.2.1.1 member
  | seq _ _ first_hyp second_hyp =>
      obtain ⟨fuel, rfl⟩ := exists_fuel enough
      rw [Numeric.Term.height] at enough
      rw [Numeric.Term.binders, List.nodup_append] at distinct
      simp only [Numeric.Term.binders, List.mem_append] at bound
      cases represents with
      | seq node first second =>
          refine computes_runCExpr node (computes_seq node ?_ fun extra => ?_)
          · exact first_hyp first sorted setting distinct.1 (fun x member => bound x (.inl member))
              (by omega)
          · exact second_hyp (second.later (.append _ extra)) sorted (setting.grow extra)
              distinct.2.1 (fun x member => bound x (.inr member)) (by omega)

end Running

/-! ## Accepted code is exact -/

/-- Numeric code that `check_code` accepted, and a later state in which its identifiers have
numbers. Every `@` has a symbol of its own. -/
structure AcceptedCode (checker : Checker) (runtime : Runtime) (scope : String → Option Ref)
    (sorts : Ref → Numeric.NumberSort) (env : Ref → Numeric.Number Ref) (e : Ref)
    (term : Numeric.Term Ref) : Prop where
  represents : NumericCode checker.store.heap scope e term
  named : ScopeNamed checker.store.heap scope
  table : TableSorts checker.symbols checker.store.heap scope sorts
  builtins : ∀ sort, followDefs checker.store.heap (statOf sort) = some (statOf sort)
  accepted : ∃ depth type after, (checkCode depth e).run checker = .ok (type, after)
  distinct : term.binders.Nodup
  later : SameCode checker.store.heap runtime.store.heap
  prepared : Prepared runtime.store.heap {x | x ∈ term.binders} scope env
  sorted : Numeric.Sorted sorts env

/-- A run returns the exact result, or fails where an operation on a symbol or a division by zero
blocks it. -/
def Exact (env : Ref → Numeric.Number Ref) (term : Numeric.Term Ref) (code : RunM (Option Ref))
    (before : Runtime) : Prop :=
  (¬ term.Blocked env → ∃ r v after, code.run before = .ok (some r, after) ∧
    term.eval env = some v ∧ IsNumber after.store.heap r v) ∧
  (term.Blocked env → ∃ after, code.run before = .ok (none, after))

/-- The variables that code binds are symbols. -/
theorem NumericCode.binders {heap : List Node} {scope : String → Option Ref} {e : Ref}
    {term : Numeric.Term Ref} (represents : NumericCode heap scope e term) :
    ∀ x ∈ term.binders, ∃ name val, heap[x]? = some (.sym name val) := by
  induction represents with
  | int | rat | name => simp [Numeric.Term.binders]
  | neg _ _ hyp | toRat _ _ hyp => exact hyp
  | arith _ _ _ _ first_hyp second_hyp | seq _ _ _ first_hyp second_hyp =>
      intro x member
      rcases List.mem_append.mp member with left | right
      · exact first_hyp x left
      · exact second_hyp x right
  | test _ _ _ _ _ hyp first_hyp second_hyp =>
      intro x member
      rcases List.mem_append.mp member with front | right
      · rcases List.mem_append.mp front with condition | left
        · exact hyp x condition
        · exact first_hyp x left
      · exact second_hyp x right
  | bind _ var _ _ first_hyp second_hyp =>
      intro x member
      rcases List.mem_append.mp member with front | rest
      · exact first_hyp x front
      · rcases List.mem_cons.mp rest with rfl | inner
        · exact ⟨_, _, var⟩
        · exact second_hyp x inner

section Accepted

variable {checker : Checker} {runtime : Runtime} {scope : String → Option Ref}
  {sorts : Ref → Numeric.NumberSort} {env : Ref → Numeric.Number Ref} {e : Ref}
  {term : Numeric.Term Ref}

theorem AcceptedCode.hasSort (code : AcceptedCode checker runtime scope sorts env e term) :
    ∃ sort, term.HasSort sorts sort := by
  obtain ⟨depth, type, after, run⟩ := code.accepted
  obtain ⟨-, sort, -, typed⟩ :=
    checkCode_numeric code.represents code.named code.table code.builtins run
  exact ⟨sort, typed⟩

theorem AcceptedCode.computes (code : AcceptedCode checker runtime scope sorts env e term)
    {fuel : Nat} (enough : term.height < fuel) :
    ComputesNumber env {x | x ∈ term.binders} term (runCodeInternal fuel e false)
      { runtime with cache := [] } := by
  obtain ⟨sort, typed⟩ := code.hasSort
  have represents : NumericCode runtime.store.heap scope e term := code.represents.later code.later
  have setting : Setting runtime.store.heap {x | x ∈ term.binders} scope env :=
    ⟨code.named.later code.later, code.prepared, represents.binders⟩
  exact runCodeInternal_numeric typed represents
    code.sorted setting code.distinct (fun x member => member) enough

theorem run_runCode {fuel : Nat} :
    (runCode fuel e).run runtime =
      (runCodeInternal fuel e false).run { runtime with cache := [] } := rfl

/-- Accepted code is run exactly, unless it converts a symbol. -/
theorem arithmetic_exact_iff (code : AcceptedCode checker runtime scope sorts env e term)
    {fuel : Nat} (enough : term.height < fuel) :
    Exact env term (runCode fuel e) runtime ↔ ¬ term.ConvertsSymbol env := by
  obtain ⟨sort, typed⟩ := code.hasSort
  have blocked := typed.eval_eq_none code.sorted
  have computes := code.computes enough
  rw [Exact, run_runCode]
  constructor
  · rintro ⟨-, fails⟩ converts
    obtain ⟨after, run⟩ := fails converts.blocked
    exact (computes.ok run).1 converts
  · intro quiet
    cases run : (runCodeInternal fuel e false).run { runtime with cache := [] } with
    | error why => exact (quiet (computes.error run).2).elim
    | ok pair =>
        obtain ⟨result, after⟩ := pair
        obtain ⟨-, extra, -, yields⟩ := computes.ok run
        cases value : term.eval env with
        | none =>
            rw [value] at yields
            cases result with
            | none => exact ⟨fun open_ => (open_ (blocked.mp value)).elim, fun _ => ⟨after, rfl⟩⟩
            | some r => exact yields.elim
        | some v =>
            rw [value] at yields
            have free : ¬ term.Blocked env := by
              rw [← blocked, value]
              simp
            cases result with
            | none => exact yields.elim
            | some r => exact ⟨fun _ => ⟨r, v, after, rfl, rfl, yields.1⟩, fun shut =>
              (free shut).elim⟩

end Accepted

/-! ## A sum and a conversion -/

/-- The initial state with further objects, the first of which is the symbol `x` of type `mpz`. -/
def numericChecker (objects : List Node) : Checker :=
  let checker := initChecker (fun _ _ => false) fun _ => false
  { checker with
    runtime := checker.runtime.grow objects
    symbols := Function.update checker.symbols "x" ⟨some 4, some statMpz⟩ }

/-- The scope of the one identifier `x`. -/
def numericScope : String → Option Ref := Function.update (fun _ => none) "x" (some 4)

theorem eq_of_numericScope {name : String} {x : Ref} (resolved : numericScope name = some x) :
    name = "x" ∧ x = 4 := by
  by_cases same : name = "x"
  · subst same
    simp only [numericScope, Function.update_self, Option.some.injEq] at resolved
    exact ⟨rfl, resolved.symm⟩
  · simp [numericScope, same] at resolved

/-- `(mp_add x 2)` with the parameter 3. -/
theorem parameter_sum_exact :
    Exact (fun _ => .int 3) (.arith .add (.name 4) (.int 2)) (runCode 2 7)
      (numericChecker
        [.sym "x" (some 5), .int 3, .int 2, .cexpr .add [4, 6] false]).runtime := by
  suffices code : AcceptedCode (numericChecker
    [.sym "x" none, .int 3, .int 2, .cexpr .add [4, 6] false])
      (numericChecker [.sym "x" (some 5), .int 3, .int 2, .cexpr .add [4, 6] false]).runtime
      numericScope (fun _ => .integer) (fun _ => .int 3) 7 (.arith .add (.name 4) (.int 2)) from
    (arithmetic_exact_iff code (by decide)).mpr (by simp [Numeric.Term.ConvertsSymbol])
  refine ⟨.arith .add rfl (.name rfl rfl) (.int rfl), ?_, ?_, ?_, ⟨2, some statMpz, _, rfl⟩,
    List.nodup_nil, ?_, ?_, fun x => rfl⟩
  · intro name x resolved
    obtain ⟨rfl, rfl⟩ := eq_of_numericScope resolved
    exact ⟨none, rfl⟩
  · intro name x resolved
    obtain ⟨rfl, rfl⟩ := eq_of_numericScope resolved
    exact ⟨statMpz, rfl, rfl⟩
  · intro sort
    cases sort <;> rfl
  · exact .set (x := 4) rfl
  · intro name x resolved
    obtain ⟨rfl, rfl⟩ := eq_of_numericScope resolved
    refine ⟨5, .step rfl (by simp [Numeric.Term.binders]) (.here rfl ?_), rfl⟩
    simp [Numeric.Term.binders]

/-- `(mpz_to_mpq x)` for the constant `x`, which is read as an integer. -/
theorem symbol_conversion_not_exact :
    ¬ ∀ (checker : Checker) (runtime : Runtime) (scope : String → Option Ref)
      (sorts : Ref → Numeric.NumberSort) (env : Ref → Numeric.Number Ref) (e : Ref)
      (term : Numeric.Term Ref) (fuel : Nat),
      AcceptedCode checker runtime scope sorts env e term → term.height < fuel →
      Exact env term (runCode fuel e) runtime := by
  intro claim
  have exact_ := claim (numericChecker [.sym "x" none, .cexpr .mpzToMpq [4] false])
    (numericChecker [.sym "x" none, .cexpr .mpzToMpq [4] false]).runtime numericScope
    (fun _ => .integer) (fun x => .symbol x) 5 (.toRat (.name 4)) 2 ?_ (by decide)
  · obtain ⟨after, run⟩ := exact_.2 (.inr ⟨.symbol 4, rfl, trivial⟩)
    cases run
  · refine ⟨.toRat rfl (.name rfl rfl), ?_, ?_, ?_, ⟨2, some statMpq, _, rfl⟩,
      List.nodup_nil, ?_, ?_, fun x => trivial⟩
    · intro name x resolved
      obtain ⟨rfl, rfl⟩ := eq_of_numericScope resolved
      exact ⟨none, rfl⟩
    · intro name x resolved
      obtain ⟨rfl, rfl⟩ := eq_of_numericScope resolved
      exact ⟨statMpz, rfl, rfl⟩
    · intro sort
      cases sort <;> rfl
    · exact .append _ []
    · intro name x resolved
      obtain ⟨rfl, rfl⟩ := eq_of_numericScope resolved
      exact ⟨4, .here rfl (by simp [Numeric.Term.binders]), rfl, "x", rfl⟩

end Lfsc
