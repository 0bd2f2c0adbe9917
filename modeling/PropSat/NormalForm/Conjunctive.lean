import PropSat.NormalForm.Negation

/-!
# Conjunctive normal form

Disjunctions are distributed over conjunctions. On a formula in negation normal form the result is a
conjunction of disjunctions of literals.
-/

namespace PropSat.Formula

/-- The disjunction of `f` with each conjunct of the second formula. -/
def orInto (f : Formula) : Formula → Formula
  | and g h => and (f.orInto g) (f.orInto h)
  | g => or f g

/-- The disjunction of each conjunct of the first formula with each conjunct of the second, the
first varying slowest. -/
def orDistributed : Formula → Formula → Formula
  | and f g, h => and (f.orDistributed h) (g.orDistributed h)
  | f, g => f.orInto g

/-- Distributes the disjunctions that no negation or implication covers, bottom up. -/
def distribute : Formula → Formula
  | and f g => and f.distribute g.distribute
  | or f g => f.distribute.orDistributed g.distribute
  | f => f

def isClause : Formula → Bool
  | or f g => f.isClause && g.isClause
  | f => f.isLiteral

def isCnf : Formula → Bool
  | and f g => f.isCnf && g.isCnf
  | f => f.isClause

def cnf (f : Formula) : Formula :=
  (f.eliminateImplications.toNnf (implicationFree_eliminateImplications f)).distribute

theorem isCnf_of_isClause {f : Formula} (h : f.isClause) : f.isCnf := by
  cases f <;> simp_all [isCnf, isClause, isLiteral, literal?]

theorem isClause_of_isCnf {f : Formula} (h : f.isCnf) (hf : ∀ g k, f ≠ and g k) : f.isClause := by
  cases f <;> simp_all [isCnf]

theorem isCnf_orInto {f g : Formula} (hf : f.isClause) (hg : g.isCnf) : (f.orInto g).isCnf := by
  induction g with
  | and g h ihg ihh =>
      simp only [isCnf, Bool.and_eq_true] at hg
      simp [orInto, isCnf, ihg hg.1, ihh hg.2]
  | _ => simp_all [orInto, isCnf, isClause]

theorem isCnf_orDistributed {f g : Formula} (hf : f.isCnf) (hg : g.isCnf) :
    (f.orDistributed g).isCnf := by
  induction f with
  | and f h ihf ihh =>
      simp only [isCnf, Bool.and_eq_true] at hf
      simp [orDistributed, isCnf, ihf hf.1, ihh hf.2]
  | _ => exact isCnf_orInto (isClause_of_isCnf hf (by simp)) hg

theorem isCnf_distribute {f : Formula} (h : f.isNnf) : f.distribute.isCnf := by
  induction f with
  | atom => rfl
  | not f =>
      cases f with
      | atom => rfl
      | _ => contradiction
  | and f g ihf ihg =>
      simp only [isNnf, Bool.and_eq_true] at h
      simp [distribute, isCnf, ihf h.1, ihg h.2]
  | or f g ihf ihg =>
      simp only [isNnf, Bool.and_eq_true] at h
      exact isCnf_orDistributed (ihf h.1) (ihg h.2)
  | implies => contradiction

theorem isCnf_cnf (f : Formula) : f.cnf.isCnf := isCnf_distribute (isNnf_toNnf _)

end PropSat.Formula
