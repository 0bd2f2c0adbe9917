import PropSat.Proofs.NormalForm.FixedPoint
import PropSat.Proofs.NormalForm.Occurrence

/-!
# Clauses survive as formulas

The left-leaning disjunction of the literals of a clause is in conjunctive normal form, and its
literals are read off in the order in which they were put in. So clauses written as formulas and
converted again are the same clauses, each without its repetitions.
-/

namespace PropSat

theorem Formula.toClauses_cnf_of_disjuncts? {f : Formula} {c : Clause String}
    (h : f.disjuncts? = .ok c) : f.cnf.toClauses f.isCnf_cnf = [c.distinct] := by
  have hcnf : f.cnf = f := cnf_eq_self (isCnf_of_isClause (isClause_of_disjuncts? h))
  have hread : f.cnf.clauses? = .ok [c.distinct] := by rw [hcnf, clauses?_of_disjuncts? h]
  exact Except.ok.inj ((clauses?_eq_toClauses f.isCnf_cnf).symm.trans hread)

namespace ClauseSet

variable {cs : ClauseSet String} {fs : List Formula}

theorem ReadOff.ne_nil (h : cs.ReadOff fs) : ∀ c ∈ cs, c ≠ [] := by
  have hboth : List.Forall₂ (fun c f => c ≠ [] ∧ f.disjuncts? = .ok c) cs fs :=
    h.imp fun c f hf => ⟨Formula.ne_nil_of_disjuncts? hf, hf⟩
  exact ((List.forall₂_and_left cs fs).mp hboth).1

theorem ReadOff.ofFormulas_eq (h : cs.ReadOff fs) : ofFormulas fs = cs.distinct := by
  induction h with
  | nil => rfl
  | @cons c f cs fs hf _ ih =>
      have hcons : ofFormulas (f :: fs) = f.cnf.toClauses f.isCnf_cnf ++ ofFormulas fs :=
        List.flatMap_cons
      rw [hcons, Formula.toClauses_cnf_of_disjuncts? hf, ih]
      rfl

theorem toFormulas?_eq_none_iff : cs.toFormulas? = none ↔ [] ∈ cs := by
  refine ⟨mem_of_toFormulas?_eq_none, fun hempty => ?_⟩
  cases h : cs.toFormulas? with
  | none => rfl
  | some fs => exact absurd rfl ((readOff_of_toFormulas? h).ne_nil [] hempty)

/-- Clauses can be written as formulas exactly when none is empty. The formulas then have the truth
values of the clauses one by one, and their clausal form is the clauses again, in the same order and
without the repetitions in each. -/
theorem toFormulas?_reversed_by_ofFormulas (cs : ClauseSet String) :
    (cs.toFormulas? = none ↔ [] ∈ cs) ∧
    ∀ fs, cs.toFormulas? = some fs →
      ofFormulas fs = cs.distinct ∧
      ∀ v : Valuation String, fs.map (Formula.truth v) = cs.map (Clause.truth v) := by
  refine ⟨toFormulas?_eq_none_iff, fun fs h => ?_⟩
  have hread := readOff_of_toFormulas? h
  exact ⟨hread.ofFormulas_eq, hread.map_truth⟩

end ClauseSet

end PropSat
