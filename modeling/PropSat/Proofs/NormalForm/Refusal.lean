import PropSat.Proofs.NormalForm.FixedPoint
import PropSat.Proofs.NormalForm.Truth
import PropSat.Proofs.Subformula

/-!
# What the conversions refuse

Conversion to negation normal form refuses a formula exactly when an implication stands somewhere in
it, and clauses are read off exactly the formulas in conjunctive normal form. What is not refused
has the shape asked for and the truth value of the formula.
-/

namespace PropSat.Formula

theorem implicationFree_iff {f : Formula} :
    f.implicationFree ↔ ∀ g k, implies g k ∉ f.subtrees := by
  induction f with
  | atom name => simp [implicationFree, subtrees]
  | not f ih => simp [implicationFree, subtrees, ih]
  | and f g ihf ihg | or f g ihf ihg =>
      simp [implicationFree, subtrees, ihf, ihg, forall_and]
  | implies f g =>
      constructor
      · intro h
        contradiction
      · intro h
        exact absurd (self_mem_subtrees (implies f g)) (h f g)

theorem exists_atom_of_isNnf {f g : Formula} (h : f.isNnf) (hg : not g ∈ f.subtrees) :
    ∃ name, g = atom name := by
  induction f with
  | atom name => simp [subtrees] at hg
  | not f =>
      cases f with
      | atom name => exact ⟨name, by simpa [subtrees] using hg⟩
      | _ => contradiction
  | and f k ihf ihk | or f k ihf ihk =>
      simp only [isNnf, Bool.and_eq_true] at h
      simp only [subtrees, List.mem_cons, List.mem_append, reduceCtorEq, false_or] at hg
      exact hg.elim (ihf h.1) (ihk h.2)
  | implies f k => contradiction

/-- An implication is met whatever the sign with which the formula around it is converted. -/
theorem implicationFree_of_nnf {f g : Formula} {positive : Bool} (h : f.nnf positive = .ok g) :
    f.implicationFree := by
  induction f generalizing g positive with
  | atom name => rfl
  | not f ih => exact ih h
  | and f k ihf ihk | or f k ihf ihk =>
      obtain ⟨l, hl, hrest⟩ := exists_of_bind_eq_ok h
      obtain ⟨r, hr, -⟩ := exists_of_bind_eq_ok hrest
      rw [implicationFree, ihf hl, ihk hr, Bool.and_self]
  | implies f k => contradiction

theorem exists_nnf_eq_ok_iff {f : Formula} {positive : Bool} :
    (∃ g, f.nnf positive = .ok g) ↔ f.implicationFree := by
  constructor
  · intro hex
    rcases hex with ⟨g, hg⟩
    exact implicationFree_of_nnf hg
  · intro h
    obtain ⟨g, hg, -⟩ := nnf_ok_of_implicationFree h positive
    exact ⟨g, hg⟩

theorem isNnf_of_nnf {f g : Formula} {positive : Bool} (h : f.nnf positive = .ok g) : g.isNnf := by
  obtain ⟨k, hk, hnnf⟩ := nnf_ok_of_implicationFree (implicationFree_of_nnf h) positive
  rw [h] at hk
  cases hk
  exact hnnf

theorem exists_clauses?_eq_ok_iff {f : Formula} : (∃ cs, f.clauses? = .ok cs) ↔ f.isCnf := by
  constructor
  · intro hex
    rcases hex with ⟨cs, hcs⟩
    exact isCnf_of_clauses? hcs
  · exact clauses?_ok_of_isCnf

/-- Negation normal form is refused to the formulas in which some subformula is an implication, and
clauses to those that are not in conjunctive normal form. In a negation normal form no implication
is left and every negation stands on an atom. It has the truth value of the formula under every
partial valuation, and so have the clauses. -/
theorem refused_exactly_off_shape (f : Formula) :
    ((∃ e, f.nnf true = .error e) ↔ ∃ g k, implies g k ∈ f.subtrees) ∧
    (∀ g, f.nnf true = .ok g →
      (∀ h k, implies h k ∉ g.subtrees) ∧
      (∀ h, not h ∈ g.subtrees → ∃ name, h = atom name) ∧
      ∀ v : Valuation String, g.truth v = f.truth v) ∧
    ((∃ e, f.clauses? = .error e) ↔ f.isCnf = false) ∧
    ∀ cs, f.clauses? = .ok cs → ∀ v : Valuation String, cs.truth v = f.truth v := by
  refine ⟨?_, fun g hg => ⟨?_, fun h => ?_, fun v => truth_of_nnf hg⟩, ?_, fun cs hcs v => ?_⟩
  · rw [exists_eq_error_iff, exists_nnf_eq_ok_iff, implicationFree_iff]
    simp only [not_forall, not_not]
  · exact implicationFree_iff.mp (implicationFree_of_isNnf (isNnf_of_nnf hg))
  · exact exists_atom_of_isNnf (isNnf_of_nnf hg)
  · rw [exists_eq_error_iff, exists_clauses?_eq_ok_iff, Bool.not_eq_true]
  · exact truth_of_clauses? hcs

end PropSat.Formula
