import Lfsc.Compiled.Preservation
import Lfsc.SideCondition.Refinement
import Mathlib.Data.List.Nodup

/-!
# Compiled programs

Every function of the file that the writer writes returns what the evaluator says of its program,
and so what the interpreter returns.
-/

namespace Lfsc

open Exec

namespace Compiled

/-- A program whose code can be compiled: its variables are known, its parameters have different
names, and no variable of its body hides another one. -/
structure CompilableProgram (sig : Signature) (text : Ref → String) (progs : List Ref)
    (symbols : String → Pointer) (bound : List String) (params : List Ref) (body : Code) :
    Prop where
  /-- No variable has a name that the writer makes up. -/
  proper : ∀ name ∈ bound, Proper text progs (getVarName name)
  /-- The parameters are variables. -/
  fresh : ∀ param ∈ params, Fresh sig text bound [] param
  /-- The parameters have different names. -/
  distinct : (params.map fun param => getVarName (text param)).Nodup
  /-- The body can be compiled. -/
  admissible : Admissible sig text progs symbols bound
    (params.map fun param => getVarName (text param)) body

/-- Programs that can be compiled, with different names. -/
structure Compilable (sig : Signature) (text : Ref → String) (progs : List Ref)
    (symbols : String → Pointer) : Prop where
  /-- The programs have different names. -/
  distinct : (progs.map text).Nodup
  /-- Each of them can be compiled. -/
  each : ∀ prog ∈ progs, ∃ params body bound, sig prog = .program params body ∧
    CompilableProgram sig text progs symbols bound params body

section Programs

variable {sig : Signature} {order : Ref → Ref → Bool} {text : Ref → String} {progs : List Ref}
  {symbols : String → Pointer} {bound syms : List String} {linked : Linked} {fuel : Nat}
  {before after : Writer}

/-! ## The parameters -/

/-- Variables that are bound once have the values that they are bound to. -/
theorem bind_lookup {env : Env} {pairs : List (Ref × Val)} (distinct : (pairs.map Prod.fst).Nodup)
    (var : Ref) : env.bind pairs var = (pairs.lookup var).or (env var) := by
  induction pairs generalizing env with
  | nil => rfl
  | cons pair pairs hyp =>
      obtain ⟨other, value⟩ := pair
      rw [List.map_cons, List.nodup_cons] at distinct
      rw [Env.bind, hyp distinct.2]
      by_cases same : var = other
      · subst same
        have absent : pairs.lookup var = none := by
          rw [List.lookup_eq_none_iff]
          rintro ⟨inner, found⟩ member
          rw [bne_iff_ne]
          rintro rfl
          exact distinct.1 (List.mem_map.mpr ⟨_, member, rfl⟩)
        simp [absent]
      · have other_ne : (var == other) = false := by simpa using same
        rw [Function.update_of_ne same, List.lookup_cons, other_ne]

/-- A parameter is found under its mapped name. -/
theorem lookup_params {params : List Ref} {values : List Val} {var : Ref} {value : Val}
    (distinct : (params.map fun param => getVarName (text param)).Nodup)
    (found : (params.zip values).lookup var = some value) :
    ((params.map fun param => getVarName (text param)).zip (values.map some)).lookup
      (getVarName (text var)) = some (some value) := by
  induction params generalizing values with
  | nil => simp at found
  | cons param params hyp =>
      cases values with
      | nil => simp at found
      | cons inner values =>
          rw [List.map_cons, List.nodup_cons] at distinct
          rw [List.zip_cons_cons, List.lookup_cons] at found
          rw [List.map_cons, List.map_cons, List.zip_cons_cons, List.lookup_cons]
          by_cases same : var = param
          · subst same
            simpa using found
          · have param_ne : (var == param) = false := by simpa using same
            rw [param_ne] at found
            have member : var ∈ params := by
              by_contra absent
              have missing : (params.zip values).lookup var = none := by
                rw [List.lookup_eq_none_iff]
                rintro ⟨other, value'⟩ pair
                rw [bne_iff_ne]
                rintro rfl
                exact absent (List.of_mem_zip pair).1
              rw [missing] at found
              cases found
            have name_ne : (getVarName (text var) == getVarName (text param)) = false := by
              rw [beq_eq_false_iff_ne]
              intro clash
              exact distinct.1 (List.mem_map.mpr ⟨var, member, clash⟩)
            rw [name_ne]
            exact hyp distinct.2 found

theorem of_lookup {α β : Type} [BEq α] [LawfulBEq α] {pairs : List (α × β)} {key : α} {value : β}
    (found : pairs.lookup key = some value) : (key, value) ∈ pairs := by
  induction pairs with
  | nil => simp at found
  | cons pair pairs hyp =>
      obtain ⟨other, inner⟩ := pair
      rw [List.lookup_cons] at found
      cases same : key == other with
      | true =>
          rw [same] at found
          obtain rfl := eq_of_beq same
          cases found
          exact List.mem_cons_self
      | false =>
          rw [same] at found
          exact List.mem_cons_of_mem _ (hyp found)

/-- On entry, the parameters have the arguments as their values, and nothing else is visible. -/
theorem follows_enter {params : List Ref} {body : Code} {values : List Val} {function : Function}
    (compilable : CompilableProgram sig text progs symbols bound params body)
    (names : function.params = params.map fun param => getVarName (text param))
    (length : params.length = values.length) (exact : ∀ value ∈ values, value.Exact sig) :
    Follows sig text progs bound (params.map fun param => getVarName (text param))
      ⟨params.map text, syms, 0, 0⟩ (function.enter (values.map some))
      (Env.bind (fun _ => none) (params.zip values)) := by
  have zipped : ((params.zip values).map Prod.fst).Nodup := by
    rw [List.map_fst_zip length.le]
    exact List.Nodup.of_map _ compilable.distinct
  refine ⟨fun var value found => ?_, fun name member => ?_, fun name found => ?_, ?_⟩
  · rw [bind_lookup zipped, Option.or_none] at found
    have pair := of_lookup found
    refine ⟨List.mem_map_of_mem (List.of_mem_zip pair).1, ?_, exact value (List.of_mem_zip pair).2⟩
    rw [Function.enter, names]
    exact lookup_params compilable.distinct found
  · obtain ⟨param, inside, rfl⟩ := List.mem_map.mp member
    exact .inl (compilable.fresh param inside).bound
  · rw [Function.enter, names] at found
    obtain ⟨value, found⟩ := Option.ne_none_iff_exists'.mp found
    exact .inl (List.of_mem_zip (of_lookup found)).1
  · intro name member
    obtain ⟨param, inside, rfl⟩ := List.mem_map.mp member
    exact compilable.proper _ (compilable.fresh param inside).bound

/-! ## The file -/

/-- What the writer wrote for a program. -/
structure Written (sig : Signature) (text : Ref → String) (progs : List Ref) (syms : List String)
    (prog : Ref) (entry : Ref × Function) : Prop where
  /-- It is tried for the program. -/
  key : entry.1 = prog
  /-- It has the name of the program. -/
  name : entry.2.name = getFunctionName (text prog)
  /-- It was written from the program. -/
  code : ∀ params body, sig prog = .program params body →
    entry.2.params = params.map (fun param => getVarName (text param)) ∧
      ∃ start stop, (writeExpr sig text progs body).run ⟨params.map text, start, 0, 0⟩ =
        .ok ((entry.2.body, entry.2.result), stop) ∧ stop.globalSyms ⊆ syms

theorem run_writeFunction {prog : Ref} {entry : Ref × Function}
    (run : (writeFunction sig text progs prog).run before = .ok (entry, after)) :
    Written sig text progs after.globalSyms prog entry := by
  unfold writeFunction at run
  split at run
  · rename_i params body role
    obtain ⟨_, _, resetRun, run⟩ := run_bind_ok.mp run
    obtain rfl := run_modify_ok.mp resetRun
    obtain ⟨stop, ⟨written, expr⟩, bodyRun, run⟩ := run_bind_ok.mp run
    obtain ⟨rfl, rfl⟩ := run_pure_ok.mp run
    refine ⟨rfl, rfl, fun params' body' role' => ?_⟩
    cases role.symm.trans role'
    exact ⟨rfl, before.globalSyms, stop, bodyRun, List.Subset.refl _⟩
  · exact (run_stop_ok.mp run).elim

theorem Written.mono {prog : Ref} {entry : Ref × Function} {more : List String}
    (written : Written sig text progs syms prog entry) (subset : syms ⊆ more) :
    Written sig text progs more prog entry := by
  refine ⟨written.key, written.name, fun params body role => ?_⟩
  obtain ⟨names, start, stop, run, known⟩ := written.code params body role
  exact ⟨names, start, stop, run, List.Subset.trans known subset⟩

/-- Symbols that were looked up stay. -/
theorem subset_writeFunction {prog : Ref} {entry : Ref × Function}
    (compilable : ∃ params body bound, sig prog = .program params body ∧
      CompilableProgram sig text progs symbols bound params body)
    (run : (writeFunction sig text progs prog).run before = .ok (entry, after)) :
    before.globalSyms ⊆ after.globalSyms := by
  obtain ⟨params, body, bound, role, compiles⟩ := compilable
  simp only [writeFunction, role] at run
  obtain ⟨_, _, resetRun, run⟩ := run_bind_ok.mp run
  obtain rfl := run_modify_ok.mp resetRun
  obtain ⟨stop, ⟨written, expr⟩, bodyRun, run⟩ := run_bind_ok.mp run
  obtain ⟨rfl, rfl⟩ := run_pure_ok.mp run
  have grown : Grown bound _ stop := keeps_writeExpr compiles.admissible _ _ _ bodyRun
  exact grown.globalSyms

theorem run_writeFunctions {these : List Ref} {entries : List (Ref × Function)}
    (compilable : ∀ prog ∈ these, ∃ params body bound, sig prog = .program params body ∧
      CompilableProgram sig text progs symbols bound params body)
    (run : (these.mapM (writeFunction sig text progs)).run before = .ok (entries, after)) :
    before.globalSyms ⊆ after.globalSyms ∧
      List.Forall₂ (Written sig text progs after.globalSyms) these entries := by
  induction these generalizing before entries with
  | nil =>
      obtain ⟨rfl, rfl⟩ := run_pure_ok.mp run
      exact ⟨List.Subset.refl _, .nil⟩
  | cons prog these hyp =>
      rw [List.forall_mem_cons] at compilable
      rw [List.mapM_cons] at run
      obtain ⟨middle, entry, firstRun, run⟩ := run_bind_ok.mp run
      obtain ⟨last, entries', restRun, run⟩ := run_bind_ok.mp run
      obtain ⟨rfl, rfl⟩ := run_pure_ok.mp run
      obtain ⟨subset, others⟩ := hyp compilable.2 restRun
      exact ⟨List.Subset.trans (subset_writeFunction compilable.1 firstRun) subset,
        .cons ((run_writeFunction firstRun).mono subset) others⟩

theorem find_of_distinct {α β : Type} [DecidableEq β] {entries : List α} {key : α → β} {entry : α}
    (distinct : (entries.map key).Nodup) (member : entry ∈ entries) :
    entries.find? (fun other => key other = key entry) = some entry := by
  induction entries with
  | nil => cases member
  | cons other entries hyp =>
      rw [List.map_cons, List.nodup_cons] at distinct
      rw [List.find?_cons]
      rcases List.mem_cons.mp member with rfl | inside
      · simp
      · have apart : key other ≠ key entry := by
          intro same
          exact distinct.1 (same ▸ List.mem_map_of_mem inside)
        simp only [apart, decide_false]
        exact hyp distinct.2 inside

theorem forall₂_mem {α β : Type} {relation : α → β → Prop} {these : List α} {those : List β}
    (all : List.Forall₂ relation these those) {this : α} (member : this ∈ these) :
    ∃ that ∈ those, relation this that := by
  induction all with
  | nil => cases member
  | cons here _ hyp =>
      rcases List.mem_cons.mp member with rfl | inside
      · exact ⟨_, List.mem_cons_self, here⟩
      · obtain ⟨that, found, related⟩ := hyp inside
        exact ⟨that, List.mem_cons_of_mem _ found, related⟩

theorem forall₂_map_eq {α β γ : Type} {relation : α → β → Prop} {f : α → γ} {g : β → γ}
    (same : ∀ this that, relation this that → g that = f this) {these : List α} {those : List β}
    (all : List.Forall₂ relation these those) : those.map g = these.map f := by
  induction all with
  | nil => rfl
  | cons here _ hyp => rw [List.map_cons, List.map_cons, same _ _ here, hyp]

/-- The functions of a file, and the symbols that it looks up. -/
structure Complete (sig : Signature) (text : Ref → String) (progs : List Ref) (file : File) :
    Prop where
  /-- Every program has its function. -/
  functions : List.Forall₂ (Written sig text progs file.globals) progs file.functions

theorem complete_writeFile {file : File} (compilable : Compilable sig text progs symbols)
    (written : writeFile sig text progs = some file) : Complete sig text progs file := by
  unfold writeFile at written
  split at written
  · rename_i functions writer run
    cases written
    exact ⟨(run_writeFunctions compilable.each run).2⟩
  · cases written

section Files

variable {file : File} (compilable : Compilable sig text progs symbols)
  (complete : Complete sig text progs file)

include compilable complete

/-- The function of a program is found under its name. -/
theorem Complete.find_name {prog : Ref} (member : prog ∈ progs) :
    ∃ entry, file.functions.find?
        (fun entry => entry.2.name = getFunctionName (text prog)) = some entry ∧
      Written sig text progs file.globals prog entry := by
  obtain ⟨entry, inside, written⟩ := forall₂_mem complete.functions member
  refine ⟨entry, ?_, written⟩
  have names : file.functions.map (fun entry => entry.2.name) =
      progs.map fun prog => getFunctionName (text prog) :=
    forall₂_map_eq (fun _ _ written => written.name) complete.functions
  have distinct : (file.functions.map fun entry => entry.2.name).Nodup := by
    rw [names]
    have mapped := compilable.distinct.map getFunctionName_injective
    rwa [List.map_map] at mapped
  have found := find_of_distinct distinct inside
  rwa [written.name] at found

/-- The function of a program is tried for the program. -/
theorem Complete.find_key {prog : Ref} (member : prog ∈ progs) :
    ∃ entry, file.functions.find? (fun entry => entry.1 = prog) = some entry ∧
      Written sig text progs file.globals prog entry := by
  obtain ⟨entry, inside, written⟩ := forall₂_mem complete.functions member
  refine ⟨entry, ?_, written⟩
  have keys : file.functions.map Prod.fst = progs.map id :=
    forall₂_map_eq (fun _ _ written => written.key) complete.functions
  have distinct : (file.functions.map Prod.fst).Nodup := by
    rw [keys, List.map_id]
    exact List.Nodup.of_map _ compilable.distinct
  have found := find_of_distinct distinct inside
  rwa [written.key] at found

omit compilable complete in
theorem global_entry (file : File) (symbols : String → Pointer) {symbol : String}
    (member : symbol ∈ file.globals) :
    file.global symbols (globalName symbol) = some (symbols symbol) := by
  unfold File.global
  cases found : file.globals.find? fun name => "e_" ++ name = globalName symbol with
  | none => simpa [globalName] using List.find?_eq_none.mp found symbol member
  | some name =>
      have same : globalName name = globalName symbol := by
        simpa [globalName] using List.find?_some found
      rw [globalName_injective same]
      rfl

omit compilable complete in
theorem global_other (file : File) (symbols : String → Pointer) {name : String}
    (other : ∀ symbol, name ≠ globalName symbol) : file.global symbols name = none := by
  unfold File.global
  rw [List.find?_eq_none.mpr]
  · rfl
  · intro symbol _ same
    exact other symbol (by simpa [globalName, eq_comm] using same)

/-- A compiled function returns what the evaluator says, if calls may nest deeply enough. -/
theorem calls_eq {fuel depth : Nat} (lt : fuel < depth) {prog : Ref} (member : prog ∈ progs)
    {params : List Ref} {body : Code} {values : List Val} {value : Val}
    (role : sig prog = .program params body) (length : params.length = values.length)
    (exact : ∀ arg ∈ values, arg.Exact sig)
    (yields : Yields sig order fuel (Env.bind (fun _ => none) (params.zip values)) body value) :
    file.calls symbols depth (getFunctionName (text prog)) (values.map some) = some (some value) ∧
      value.Exact sig := by
  induction fuel using Nat.strong_induction_on generalizing depth prog params body values value with
  | _ fuel hyp =>
      obtain ⟨depth, rfl⟩ := Nat.exists_eq_add_of_le' (Nat.lt_of_le_of_lt (Nat.zero_le _) lt)
      obtain ⟨entry, found, written⟩ := complete.find_name compilable member
      obtain ⟨names, start, stop, bodyRun, known⟩ := written.code params body role
      obtain ⟨params', body', bound, role', compiles⟩ := compilable.each prog member
      cases role.symm.trans role'
      set linked : Linked := ⟨file.calls symbols depth, file.global symbols⟩
      have serves : Serves sig order text progs symbols file.globals linked fuel :=
        { entry := fun symbol member => global_entry file symbols member
          other := fun name other => global_other file symbols other
          calls := fun fuel' lt' prog member params body values value role length exact yields =>
            hyp fuel' lt' (by omega) member role length exact yields }
      obtain ⟨exact', locals, exec, -, held, -⟩ := preserves_writeExpr serves compiles.proper
        (preserves_all compiles.proper serves) bodyRun compiles.admissible
        (follows_enter compiles names length exact) known yields
      refine ⟨?_, exact'⟩
      have params_length : entry.2.params.length = (values.map some).length := by
        rw [names, List.length_map, List.length_map, length]
      rw [File.calls, found]
      simp only [Option.bind_eq_bind, Option.bind_some]
      rw [Function.call, if_neg (not_not.mpr params_length)]
      simp [linked, exec, read_of_local held]

end Files

/-! ## Compiled programs, the evaluator and the interpreter -/

/-- `run_compiled_scc` calls the function of the program. -/
theorem run_eq {file : File} (compilable : Compilable sig text progs symbols)
    (written : writeFile sig text progs = some file) {fuel depth : Nat} (lt : fuel < depth)
    {prog : Ref} (member : prog ∈ progs) {params : List Ref} {body : Code} {values : List Val}
    {value : Val} (role : sig prog = .program params body) (length : params.length = values.length)
    (exact : ∀ arg ∈ values, arg.Exact sig)
    (yields : Yields sig order fuel (Env.bind (fun _ => none) (params.zip values)) body value) :
    file.run symbols depth prog (values.map some) = some (some value) := by
  have complete := complete_writeFile compilable written
  obtain ⟨entry, found, wrote⟩ := complete.find_key compilable member
  rw [File.run, found]
  simp only [Option.bind_eq_bind, Option.bind_some]
  rw [wrote.name]
  exact (calls_eq compilable complete lt member role length exact yields).1

end Programs

/-! ## A compiled program -/

/-- The texts of the symbols of `copy`. -/
def copyText (r : Ref) : String :=
  match r with
  | 5 => "z"
  | 8 => "s"
  | 9 => "copy"
  | 12 => "y"
  | _ => "x"

/-- The symbol table that `copy` is linked with. -/
def copySymbols (name : String) : Pointer :=
  if name = "z" then some (.sym 5) else if name = "s" then some (.sym 8) else none

theorem copy_found {name : Ref} (symbol : name = 5 ∨ name = 8) :
    Found copyText copySymbols ["x", "y"] name := by
  have entries : copySymbols (getVarName "z") = some (.sym 5) ∧
      copySymbols (getVarName "s") = some (.sym 8) := by
    decide +kernel
  rcases symbol with rfl | rfl
  · have proper : Proper copyText [] "z" := proper_of_head rfl (by decide)
    exact ⟨entries.1, by decide, proper.expr⟩
  · have proper : Proper copyText [] "s" := proper_of_head rfl (by decide)
    exact ⟨entries.2, by decide, proper.expr⟩

theorem copy_compilable : Compilable copySig copyText [9] copySymbols := by
  have proper : ∀ name ∈ ["x", "y"], Proper copyText [9] (getVarName name) := by
    intro name member
    simp only [List.mem_cons, List.not_mem_nil, or_false] at member
    rcases member with rfl | rfl
    · have chars : (getVarName "x").toList = ['x'] := by decide +kernel
      exact proper_of_head chars (by decide)
    · have chars : (getVarName "y").toList = ['y'] := by decide +kernel
      exact proper_of_head chars (by decide)
  refine ⟨by simp, fun prog member => ?_⟩
  obtain rfl : prog = 9 := by simpa using member
  refine ⟨[10], copyBody, ["x", "y"], rfl, proper, ?_, by simp, ?_⟩
  · simpa using ⟨rfl, by decide, by simp⟩
  · have y_ne_x : getVarName "y" ≠ getVarName "x" := by decide +kernel
    have fresh : Fresh copySig copyText ["x", "y"] [getVarName "x"] 12 :=
      ⟨rfl, by decide, by simpa [copyText] using y_ne_x⟩
    simpa [copyBody, Admissible, AdmissibleBranches, AdmissibleAll, copySig, copy_found, blockNames,
      copyText] using fresh

end Compiled

end Lfsc
