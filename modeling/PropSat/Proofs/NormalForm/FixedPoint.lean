import PropSat.NormalForm.Conjunctive

/-!
# Formulas in conjunctive normal form stay as they are

A conjunction of disjunctions of literals has no implication to eliminate, no negation to push and
no conjunction below a disjunction. So each pass of the conversion gives it back unchanged, groups
and order included, and no other formula is given back.
-/

namespace PropSat.Formula

theorem implicationFree_of_isNnf {f : Formula} (h : f.isNnf) : f.implicationFree := by
  induction f with
  | atom name => rfl
  | not f ih =>
      cases f with
      | atom name => rfl
      | _ => contradiction
  | and f g ihf ihg | or f g ihf ihg =>
      simp only [isNnf, Bool.and_eq_true] at h
      simp only [implicationFree, ihf h.1, ihg h.2, Bool.and_self]
  | implies f g => contradiction

theorem isNnf_of_isLiteral {f : Formula} (h : f.isLiteral) : f.isNnf := by
  obtain ⟨l, hl⟩ := Option.isSome_iff_exists.mp h
  obtain ⟨name, s⟩ := l
  rw [eq_ofLiteral_of_literal? hl]
  cases s <;> rfl

theorem isNnf_of_isClause {f : Formula} (h : f.isClause) : f.isNnf := by
  induction f with
  | or f g ihf ihg =>
      simp only [isClause, Bool.and_eq_true] at h
      simp only [isNnf, ihf h.1, ihg h.2, Bool.and_self]
  | atom name => rfl
  | not f => exact isNnf_of_isLiteral h
  | and f g => contradiction
  | implies f g => contradiction

theorem isNnf_of_isCnf {f : Formula} (h : f.isCnf) : f.isNnf := by
  induction f with
  | and f g ihf ihg =>
      simp only [isCnf, Bool.and_eq_true] at h
      simp only [isNnf, ihf h.1, ihg h.2, Bool.and_self]
  | atom name => rfl
  | not f => exact isNnf_of_isClause h
  | or f g => exact isNnf_of_isClause h
  | implies f g => contradiction

theorem eliminateImplications_eq_self {f : Formula} (h : f.implicationFree) :
    f.eliminateImplications = f := by
  induction f with
  | atom name => rfl
  | not f ih => rw [eliminateImplications, ih h]
  | and f g ihf ihg | or f g ihf ihg =>
      simp only [implicationFree, Bool.and_eq_true] at h
      rw [eliminateImplications, ihf h.1, ihg h.2]
  | implies f g => contradiction

theorem nnf_eq_self {f : Formula} (h : f.isNnf) : f.nnf true = .ok f := by
  induction f with
  | atom name => rfl
  | not f =>
      cases f with
      | atom name => rfl
      | _ => contradiction
  | and f g ihf ihg | or f g ihf ihg =>
      simp only [isNnf, Bool.and_eq_true] at h
      rw [nnf, ihf h.1, ihg h.2]
      rfl
  | implies f g => contradiction

theorem orDistributed_of_isClause {f g : Formula} (hf : f.isClause) (hg : g.isClause) :
    f.orDistributed g = or f g := by
  have hinto : f.orInto g = or f g := by
    cases g with
    | and g h => contradiction
    | _ => rfl
  cases f with
  | and f h => contradiction
  | _ => exact hinto

theorem distribute_of_isClause {f : Formula} (h : f.isClause) : f.distribute = f := by
  induction f with
  | or f g ihf ihg =>
      simp only [isClause, Bool.and_eq_true] at h
      rw [distribute, ihf h.1, ihg h.2, orDistributed_of_isClause h.1 h.2]
  | atom name => rfl
  | not f => rfl
  | and f g => contradiction
  | implies f g => rfl

theorem distribute_eq_self {f : Formula} (h : f.isCnf) : f.distribute = f := by
  induction f with
  | and f g ihf ihg =>
      simp only [isCnf, Bool.and_eq_true] at h
      rw [distribute, ihf h.1, ihg h.2]
  | or f g => exact distribute_of_isClause h
  | atom name => rfl
  | not f => rfl
  | implies f g => rfl

theorem cnf_eq_self {f : Formula} (h : f.isCnf) : f.cnf = f := by
  have hnnf := isNnf_of_isCnf h
  have hfree := implicationFree_eliminateImplications f
  have helim : f.eliminateImplications = f :=
    eliminateImplications_eq_self (implicationFree_of_isNnf hnnf)
  have hnnf_elim : f.eliminateImplications.nnf true = .ok f :=
    (congrArg (nnf true) helim).trans (nnf_eq_self hnnf)
  have htoNnf : f.eliminateImplications.toNnf hfree = f :=
    Except.ok.inj ((nnf_eq_toNnf hfree).symm.trans hnnf_elim)
  rw [cnf, htoNnf, distribute_eq_self h]

/-- Conversion to conjunctive normal form keeps exactly the formulas that are in it, so a second
conversion changes nothing. -/
theorem cnf_fixes_exactly_isCnf (f : Formula) :
    (f.cnf = f ↔ f.isCnf = true) ∧ f.cnf.cnf = f.cnf := by
  refine ⟨⟨fun h => ?_, cnf_eq_self⟩, cnf_eq_self f.isCnf_cnf⟩
  rw [← h]
  exact f.isCnf_cnf

end PropSat.Formula
