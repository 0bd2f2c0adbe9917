import PropSat.Proofs.NormalForm.Truth

/-!
# Normal forms keep the atoms

No pass on the way to clausal form loses an atom or brings in a new one, though distribution
repeats them, and every clause that is read has a literal and none twice. Together with the truth
values this is all that a solver needs of the clauses that it is given for formulas.
-/

namespace PropSat

namespace Formula

variable {name : String}

/-- An implication has its operands in the place of those of the disjunction. -/
theorem occurrences_eliminateImplications (f : Formula) :
    f.eliminateImplications.occurrences = f.occurrences := by
  induction f with
  | atom name => rfl
  | not f ih => exact ih
  | and f g ihf ihg | or f g ihf ihg | implies f g ihf ihg =>
      simp only [eliminateImplications, occurrences, ihf, ihg]

theorem occurrences_of_nnf {f g : Formula} {positive : Bool} (h : f.nnf positive = .ok g) :
    g.occurrences = f.occurrences := by
  induction f generalizing g positive with
  | atom name =>
      cases h
      cases positive <;> rfl
  | not f ih => exact ih h
  | and f k ihf ihk | or f k ihf ihk =>
      obtain ⟨l, hl, hrest⟩ := exists_of_bind_eq_ok h
      obtain ⟨r, hr, hg⟩ := exists_of_bind_eq_ok hrest
      cases hg
      rw [occurrences, ← ihf hl, ← ihk hr]
      cases positive <;> rfl
  | implies f k => contradiction

theorem occurrences_toNnf {f : Formula} (h : f.implicationFree) :
    (f.toNnf h).occurrences = f.occurrences :=
  occurrences_of_nnf (nnf_eq_toNnf h)

theorem mem_occurrences_orInto (f g : Formula) :
    name ∈ (f.orInto g).occurrences ↔ name ∈ f.occurrences ∨ name ∈ g.occurrences := by
  induction g with
  | and g h ihg ihh =>
      simp only [orInto, occurrences, List.mem_append, ihg, ihh]
      exact or_or_distrib_left.symm
  | atom _ => exact List.mem_append
  | not g => exact List.mem_append
  | or g h => exact List.mem_append
  | implies g h => exact List.mem_append

theorem mem_occurrences_orDistributed (f g : Formula) :
    name ∈ (f.orDistributed g).occurrences ↔ name ∈ f.occurrences ∨ name ∈ g.occurrences := by
  induction f with
  | and f h ihf ihh =>
      simp only [orDistributed, occurrences, List.mem_append, ihf, ihh]
      exact or_or_distrib_right.symm
  | atom _ => exact mem_occurrences_orInto _ g
  | not f => exact mem_occurrences_orInto _ g
  | or f h => exact mem_occurrences_orInto _ g
  | implies f h => exact mem_occurrences_orInto _ g

theorem mem_occurrences_distribute (f : Formula) :
    name ∈ f.distribute.occurrences ↔ name ∈ f.occurrences := by
  induction f with
  | and f g ihf ihg => simp only [distribute, occurrences, List.mem_append, ihf, ihg]
  | or f g ihf ihg =>
      simp only [distribute, occurrences, List.mem_append, mem_occurrences_orDistributed, ihf, ihg]
  | atom _ => rfl
  | not f => rfl
  | implies f g => rfl

theorem mem_occurrences_cnf (f : Formula) : name ∈ f.cnf.occurrences ↔ name ∈ f.occurrences := by
  rw [cnf, mem_occurrences_distribute, occurrences_toNnf, occurrences_eliminateImplications]

theorem atoms_cnf (f : Formula) : f.cnf.atoms = f.atoms := by
  apply Std.ExtTreeSet.ext_mem
  intro g
  rw [mem_atoms, mem_atoms]
  simp only [mem_occurrences_cnf]

/-- The conjunctive normal form by the pass that refuses implications. -/
def cnf? (f : Formula) : Except ShapeError Formula :=
  (f.eliminateImplications.nnf true).map distribute

theorem cnf?_eq_ok (f : Formula) : f.cnf? = .ok f.cnf := by
  rw [cnf?, nnf_eq_toNnf (implicationFree_eliminateImplications f)]
  rfl

theorem map_atom_of_disjuncts? {f : Formula} {c : Clause String} (h : f.disjuncts? = .ok c) :
    c.map Literal.atom = f.occurrences := by
  refine disjuncts?_induction (P := fun f c => c.map Literal.atom = f.occurrences) ?_ ?_ h
  · intro l
    obtain ⟨name, s⟩ := l
    cases s <;> rfl
  · intro f g c d hf hg
    rw [List.map_append, hf, hg, occurrences]

theorem ne_nil_of_disjuncts? {f : Formula} {c : Clause String} (h : f.disjuncts? = .ok c) :
    c ≠ [] := by
  refine disjuncts?_induction (P := fun _ c => c ≠ []) ?_ ?_ h
  · exact fun l => List.cons_ne_nil l []
  · exact fun f g c d hf _ => List.append_ne_nil_of_left_ne_nil hf d

end Formula

section

variable {α : Type} [Atom α]

theorem Clause.nodup_distinct (c : Clause α) : c.distinct.Nodup := nodup_eraseDups c

theorem Clause.distinct_ne_nil {c : Clause α} (h : c ≠ []) : c.distinct ≠ [] := by
  obtain ⟨l, hl⟩ := List.exists_mem_of_ne_nil c h
  exact List.ne_nil_of_mem (List.mem_eraseDups.mpr hl)

theorem ClauseSet.mem_atoms_append {cs ds : ClauseSet α} {a : α} :
    a ∈ ClauseSet.atoms (cs ++ ds) ↔ a ∈ cs.atoms ∨ a ∈ ds.atoms := by
  rw [mem_atoms, mem_atoms, mem_atoms]
  simp only [List.mem_append, or_and_right, exists_or]

theorem ClauseSet.mem_atoms_distinct_singleton {c : Clause α} {a : α} :
    a ∈ ClauseSet.atoms [c.distinct] ↔ a ∈ c.map Literal.atom := by
  rw [mem_atoms, List.mem_map]
  simp only [List.mem_singleton, exists_eq_left, Clause.distinct, List.mem_eraseDups]

end

namespace Formula

theorem mem_atoms_of_clauses? {f : Formula} {cs : ClauseSet String} (h : f.clauses? = .ok cs)
    {name : String} : name ∈ cs.atoms ↔ name ∈ f.occurrences := by
  refine clauses?_induction (P := fun f cs => name ∈ cs.atoms ↔ name ∈ f.occurrences) ?_ ?_ h
  · intro f c hc
    rw [ClauseSet.mem_atoms_distinct_singleton, map_atom_of_disjuncts? hc]
  · intro f g cs ds hf hg
    rw [ClauseSet.mem_atoms_append, hf, hg, occurrences, List.mem_append]

theorem distinct_of_clauses? {f : Formula} {cs : ClauseSet String} (h : f.clauses? = .ok cs) :
    ∀ c ∈ cs, c ≠ [] ∧ c.Nodup := by
  refine clauses?_induction (P := fun _ cs => ∀ c ∈ cs, c ≠ [] ∧ c.Nodup) ?_ ?_ h
  · intro f c hc d hd
    rw [List.mem_singleton.mp hd]
    exact ⟨Clause.distinct_ne_nil (ne_nil_of_disjuncts? hc), Clause.nodup_distinct c⟩
  · exact fun f g cs ds hf hg => List.forall_mem_append.mpr ⟨hf, hg⟩

end Formula

namespace ClauseSet

theorem distinct_ofFormulas (fs : List Formula) : ∀ c ∈ ofFormulas fs, c ≠ [] ∧ c.Nodup := by
  intro c hc
  obtain ⟨f, -, hcf⟩ := List.mem_flatMap.mp hc
  exact Formula.distinct_of_clauses? (Formula.clauses?_eq_toClauses f.isCnf_cnf) c hcf

theorem mem_atoms_ofFormulas {fs : List Formula} {name : String} :
    name ∈ (ofFormulas fs).atoms ↔ ∃ f ∈ fs, name ∈ f.occurrences := by
  have hone : ∀ f : Formula, name ∈ (f.cnf.toClauses f.isCnf_cnf).atoms ↔ name ∈ f.occurrences := by
    intro f
    rw [Formula.mem_atoms_of_clauses? (Formula.clauses?_eq_toClauses f.isCnf_cnf),
      Formula.mem_occurrences_cnf]
  induction fs with
  | nil => simp [ofFormulas, atoms]
  | cons f fs ih =>
      have hcons : ofFormulas (f :: fs) = f.cnf.toClauses f.isCnf_cnf ++ ofFormulas fs :=
        List.flatMap_cons
      rw [hcons, mem_atoms_append, hone]
      simp only [ih, List.mem_cons, exists_eq_or_imp]

/-- Conjunctive normal form and clausal form keep the atoms and, under every partial valuation, the
truth value, unknown included. No pass refuses a formula. The one result is in conjunctive normal
form, the clauses of the other have a literal and none twice. -/
theorem normal_forms_keep_truth_and_atoms (v : Valuation String) :
    (∀ f : Formula, f.cnf? = .ok f.cnf ∧ f.cnf.isCnf = true ∧ f.cnf.atoms = f.atoms ∧
      f.cnf.truth v = f.truth v) ∧
    ∀ fs : List Formula, ofFormulas? fs = .ok (ofFormulas fs) ∧
      (∀ c ∈ ofFormulas fs, c ≠ [] ∧ c.Nodup) ∧
      (∀ name, name ∈ (ofFormulas fs).atoms ↔ ∃ f ∈ fs, name ∈ f.atomNames) ∧
      (ofFormulas fs).truth v = (fs.map (Formula.truth v)).foldr Truth.and (some true) := by
  refine ⟨fun f => ⟨f.cnf?_eq_ok, f.isCnf_cnf, f.atoms_cnf, f.truth_cnf⟩, fun fs => ?_⟩
  refine ⟨ofFormulas?_eq_ok fs, distinct_ofFormulas fs, fun name => ?_, ?_⟩
  · simp only [mem_atoms_ofFormulas, Formula.mem_atomNames]
  · rw [truth_ofFormulas, Formula.truthAll_eq_foldr]

end ClauseSet

end PropSat
