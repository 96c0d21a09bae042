import Lfsc.Cloning

/-!
# Expansion without capture

The expansion of an expression replaces a free symbol by the expansion of its value on its own: what
the value mentions is not bound by the abstractions around the symbol.  A filled hole holds a part
of the expression, which these abstractions do bind.  Where no value mentions a symbol bound around
it, the expansion is what the expression stands for.
-/

namespace Lfsc

open Exec Lambda

/-! ## Expressions -/

/-- An acyclic expression without unfilled holes, below abstractions that bind some symbols.  Values
may mention symbols bound around them only if that is allowed. -/
inductive Expression (heap : List Node) (captures : Prop) : List Ref → List Ref → Ref → Prop
  | int {outer env : List Ref} {r : Ref} {value : Int} (loaded : heap[r]? = some (.int value)) :
      Expression heap captures outer env r
  | rat {outer env : List Ref} {r : Ref} {value : Rat} (loaded : heap[r]? = some (.rat value)) :
      Expression heap captures outer env r
  | filled {outer env : List Ref} {r val : Ref} (loaded : heap[r]? = some (.hole (some val)))
      (value : Expression heap captures outer env val) : Expression heap captures outer env r
  | bound {outer env : List Ref} {r : Ref} {name : String} {val : Option Ref}
      (loaded : heap[r]? = some (.sym name val)) (member : r ∈ env) :
      Expression heap captures outer env r
  | free {outer env : List Ref} {r : Ref} {name : String}
      (loaded : heap[r]? = some (.sym name none)) (outside : r ∉ env)
      (apart : r ∈ outer → captures) : Expression heap captures outer env r
  | prog {outer env : List Ref} {r val : Ref} {name : String}
      (loaded : heap[r]? = some (.sym name (some val))) (outside : r ∉ env)
      (apart : r ∈ outer → captures) (program : opOf heap val = some .prog) :
      Expression heap captures outer env r
  | defined {outer env : List Ref} {r val : Ref} {name : String}
      (loaded : heap[r]? = some (.sym name (some val))) (outside : r ∉ env)
      (apart : r ∈ outer → captures) (other : opOf heap val ≠ some .prog)
      (value : Expression heap captures (env ++ outer) [] val) :
      Expression heap captures outer env r
  | lam {outer env : List Ref} {r var body : Ref} {flag : Bool} {name : String} {val : Option Ref}
      (loaded : heap[r]? = some (.cexpr .lam [var, body] flag))
      (symbol : heap[var]? = some (.sym name val))
      (under : Expression heap captures outer (var :: env) body) :
      Expression heap captures outer env r
  | pi {outer env : List Ref} {r var domain range : Ref} {flag : Bool} {name : String}
      {val : Option Ref} (loaded : heap[r]? = some (.cexpr .pi [var, domain, range] flag))
      (symbol : heap[var]? = some (.sym name val))
      (first : Expression heap captures outer env domain)
      (under : Expression heap captures outer (var :: env) range) :
      Expression heap captures outer env r
  | node {outer env : List Ref} {r : Ref} {op : Op} {kids : List Ref} {flag : Bool}
      (loaded : heap[r]? = some (.cexpr op kids flag))
      (plain : op ≠ .lam ∧ op ≠ .pi ∧ op ≠ .prog)
      (each : ∀ kid ∈ kids, Expression heap captures outer env kid) :
      Expression heap captures outer env r

/-- The expansion of an expression, below abstractions that bind some symbols. -/
inductive Expands (heap : List Node) : List Ref → Ref → Term Leaf → Prop
  | int {env : List Ref} {r : Ref} {value : Int} (loaded : heap[r]? = some (.int value)) :
      Expands heap env r (.leaf (.int value))
  | rat {env : List Ref} {r : Ref} {value : Rat} (loaded : heap[r]? = some (.rat value)) :
      Expands heap env r (.leaf (.rat value))
  | unfilled {env : List Ref} {r : Ref} (loaded : heap[r]? = some (.hole none)) :
      Expands heap env r (.leaf (.hole r))
  | filled {env : List Ref} {r val : Ref} {t : Term Leaf}
      (loaded : heap[r]? = some (.hole (some val))) (value : Expands heap env val t) :
      Expands heap env r t
  | bound {env : List Ref} {r : Ref} {name : String} {val : Option Ref}
      (loaded : heap[r]? = some (.sym name val)) (member : r ∈ env) :
      Expands heap env r (.bvar (env.idxOf r))
  | free {env : List Ref} {r : Ref} {name : String} (loaded : heap[r]? = some (.sym name none))
      (outside : r ∉ env) : Expands heap env r (.leaf (.sym r))
  | prog {env : List Ref} {r val : Ref} {name : String}
      (loaded : heap[r]? = some (.sym name (some val))) (outside : r ∉ env)
      (program : opOf heap val = some .prog) : Expands heap env r (.leaf (.prog val))
  | defined {env : List Ref} {r val : Ref} {name : String} {t : Term Leaf}
      (loaded : heap[r]? = some (.sym name (some val))) (outside : r ∉ env)
      (other : opOf heap val ≠ some .prog) (value : Expands heap [] val t) : Expands heap env r t
  | lam {env : List Ref} {r var body : Ref} {flag : Bool} {name : String} {val : Option Ref}
      {t : Term Leaf} (loaded : heap[r]? = some (.cexpr .lam [var, body] flag))
      (symbol : heap[var]? = some (.sym name val)) (under : Expands heap (var :: env) body t) :
      Expands heap env r (.lam t)
  | pi {env : List Ref} {r var domain range : Ref} {flag : Bool} {name : String} {val : Option Ref}
      {d t : Term Leaf} (loaded : heap[r]? = some (.cexpr .pi [var, domain, range] flag))
      (symbol : heap[var]? = some (.sym name val)) (first : Expands heap env domain d)
      (under : Expands heap (var :: env) range t) : Expands heap env r (spine .pi [d, .lam t])
  | node {env : List Ref} {r : Ref} {op : Op} {kids : List Ref} {flag : Bool}
      {terms : List (Term Leaf)} (loaded : heap[r]? = some (.cexpr op kids flag))
      (plain : op ≠ .lam ∧ op ≠ .pi ∧ op ≠ .prog) (len : kids.length = terms.length)
      (each : ∀ kid term, (kid, term) ∈ kids.zip terms → Expands heap env kid term) :
      Expands heap env r (spine op terms)

theorem Expands.lam_inv {heap : List Node} {env : List Ref} {r var body : Ref} {flag : Bool}
    {t : Lambda.Term Leaf} (loaded : heap[r]? = some (.cexpr .lam [var, body] flag))
    (expands : Expands heap env r t) : ∃ t', t = .lam t' ∧ Expands heap (var :: env) body t' := by
  cases expands with
  | int found | rat found | unfilled found | filled found | bound found | free found | prog found
  | defined found | pi found => simp [loaded] at found
  | lam found symbol under =>
      rw [loaded, Option.some.injEq] at found
      cases found
      exact ⟨_, rfl, under⟩
  | node found plain =>
      rw [loaded, Option.some.injEq] at found
      cases found
      exact (plain.1 rfl).elim

/-- The expansion of a symbol. -/
theorem Expands.sym_inv {heap : List Node} {env : List Ref} {r : Ref} {name : String}
    {val : Option Ref} {t : Lambda.Term Leaf} (loaded : heap[r]? = some (.sym name val))
    (expands : Expands heap env r t) :
    r ∈ env ∧ t = .bvar (env.idxOf r) ∨ r ∉ env ∧ (val = none ∧ t = .leaf (.sym r) ∨
      ∃ v, val = some v ∧ (opOf heap v = some .prog ∧ t = .leaf (.prog v) ∨
        opOf heap v ≠ some .prog ∧ Expands heap [] v t)) := by
  cases expands with
  | int found | rat found | unfilled found | filled found | lam found | node found | pi found =>
      simp [loaded] at found
  | bound _ member => exact .inl ⟨member, rfl⟩
  | free found outside =>
      rw [loaded, Option.some.injEq] at found
      cases found
      exact .inr ⟨outside, .inl ⟨rfl, rfl⟩⟩
  | prog found outside program =>
      rw [loaded, Option.some.injEq] at found
      cases found
      exact .inr ⟨outside, .inr ⟨_, rfl, .inl ⟨program, rfl⟩⟩⟩
  | defined found outside other value =>
      rw [loaded, Option.some.injEq] at found
      cases found
      exact .inr ⟨outside, .inr ⟨_, rfl, .inr ⟨other, value⟩⟩⟩

/-! ## The expansion and what an expression stands for -/

/-- A term for each child. -/
theorem exists_terms {kids : List Ref} {holds : Ref → Term Leaf → Prop}
    (each : ∀ kid ∈ kids, ∃ term, holds kid term) :
    ∃ terms : List (Term Leaf), kids.length = terms.length ∧
      ∀ kid term, (kid, term) ∈ kids.zip terms → holds kid term := by
  induction kids with
  | nil => exact ⟨[], rfl, by simp⟩
  | cons kid kids hyp =>
      obtain ⟨term, here⟩ := each kid List.mem_cons_self
      obtain ⟨terms, len, rest⟩ := hyp fun other member =>
        each other (List.mem_cons_of_mem _ member)
      refine ⟨term :: terms, by simp [len], fun other term' member => ?_⟩
      rcases List.mem_cons.mp member with same | member
      · obtain ⟨rfl, rfl⟩ := Prod.mk.inj same
        exact here
      · exact rest other term' member

/-- Every expression stands for a term.  If no value mentions a symbol bound around it, the term is
the expansion. -/
theorem Expression.exists_term {heap : List Node} {captures : Prop} {outer env : List Ref} {r : Ref}
    (expression : Expression heap captures outer env r) :
    ∃ t, Denotes .any heap (env ++ outer) r t ∧ (¬ captures → Expands heap env r t) := by
  induction expression with
  | int loaded => exact ⟨_, .int loaded, fun _ => .int loaded⟩
  | rat loaded => exact ⟨_, .rat loaded, fun _ => .rat loaded⟩
  | filled loaded _ hyp =>
      obtain ⟨t, denotes, expands⟩ := hyp
      exact ⟨t, .filled loaded denotes, fun clear => .filled loaded (expands clear)⟩
  | bound loaded member =>
      refine ⟨_, .bound loaded (List.mem_append_left _ member), fun _ => ?_⟩
      rw [List.idxOf_append_of_mem member]
      exact .bound loaded member
  | @free outer env r name loaded outside apart =>
      by_cases member : r ∈ outer
      · exact ⟨_, .bound loaded (List.mem_append_right _ member), fun clear =>
          (clear (apart member)).elim⟩
      · exact ⟨_, .free loaded (by simp [outside, member]) trivial, fun _ => .free loaded outside⟩
  | @prog outer env r val name loaded outside apart program =>
      by_cases member : r ∈ outer
      · exact ⟨_, .bound loaded (List.mem_append_right _ member), fun clear =>
          (clear (apart member)).elim⟩
      · exact ⟨_, .prog loaded (by simp [outside, member]) trivial program, fun _ =>
          .prog loaded outside program⟩
  | @defined outer env r val name loaded outside apart other _ hyp =>
      by_cases member : r ∈ outer
      · exact ⟨_, .bound loaded (List.mem_append_right _ member), fun clear =>
          (clear (apart member)).elim⟩
      · obtain ⟨t, denotes, expands⟩ := hyp
        exact ⟨t, .defined loaded (by simp [outside, member]) trivial other denotes, fun clear =>
          .defined loaded outside other (expands clear)⟩
  | lam loaded symbol _ hyp =>
      obtain ⟨t, denotes, expands⟩ := hyp
      exact ⟨_, .lam loaded symbol trivial denotes, fun clear => .lam loaded symbol (expands clear)⟩
  | pi loaded symbol _ _ first_hyp hyp =>
      obtain ⟨d, outer, first⟩ := first_hyp
      obtain ⟨t, denotes, expands⟩ := hyp
      exact ⟨_, .pi loaded symbol trivial outer denotes, fun clear =>
        .pi loaded symbol (first clear) (expands clear)⟩
  | node loaded plain _ hyp =>
      obtain ⟨terms, len, each⟩ := exists_terms hyp
      refine ⟨_, .node loaded plain len fun kid term member => (each kid term member).1, ?_⟩
      exact fun clear => .node loaded plain len fun kid term member =>
        (each kid term member).2 clear

/-- What stands for a term without an assigned symbol expands to it. -/
theorem Denotes.expands {names : Names} {heap : List Node} {env : List Ref} {r : Ref}
    {t : Term Leaf}
    (denotes : Denotes names heap env r t) (unvalued : ∀ x, names.free x → Unvalued heap x) :
    Expands heap env r t := by
  induction denotes with
  | int loaded => exact .int loaded
  | rat loaded => exact .rat loaded
  | unfilled loaded => exact .unfilled loaded
  | filled loaded _ hyp => exact .filled loaded hyp
  | bound loaded member => exact .bound loaded member
  | free loaded outside _ => exact .free loaded outside
  | prog loaded outside _ program => exact .prog loaded outside program
  | defined loaded outside named other _ _ =>
      obtain ⟨name, val, found, program⟩ := unvalued _ named
      rw [loaded, Option.some.injEq, Node.sym.injEq] at found
      exact (other (program _ found.2.symm)).elim
  | lam loaded symbol _ _ hyp => exact .lam loaded symbol hyp
  | pi loaded symbol _ _ _ first under => exact .pi loaded symbol first under
  | node loaded plain len _ each => exact .node loaded plain len each

end Lfsc
