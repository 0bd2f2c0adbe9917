import PropSat.Formula

/-!
# Negation normal form

Implications are rewritten as disjunctions, then negations are pushed to the atoms. The second step
refuses a formula in which an implication is left; the first step leaves none.
-/

namespace PropSat

/-- A formula that has not the shape a conversion asks for, with the part that is to blame. -/
inductive ShapeError where
  | implicationLeft (found : Formula)
  | notClausal (found : Formula)
deriving DecidableEq, Repr

def ShapeError.message : ShapeError → String
  | implicationLeft found => s!"implication left in negation normal form input: {found}"
  | notClausal found => s!"clausal form expects a formula in CNF, found {found}"

namespace Formula

/-- Writes every implication as a disjunction with the premise negated. -/
def eliminateImplications : Formula → Formula
  | atom name => atom name
  | not f => not f.eliminateImplications
  | and f g => and f.eliminateImplications g.eliminateImplications
  | or f g => or f.eliminateImplications g.eliminateImplications
  | implies f g => or (not f.eliminateImplications) g.eliminateImplications

def implicationFree : Formula → Bool
  | atom _ => true
  | not f => f.implicationFree
  | and f g | or f g => f.implicationFree && g.implicationFree
  | implies _ _ => false

theorem implicationFree_eliminateImplications (f : Formula) :
    f.eliminateImplications.implicationFree := by
  induction f with
  | atom => rfl
  | not f ih => exact ih
  | and f g ihf ihg | or f g ihf ihg | implies f g ihf ihg =>
      simp [eliminateImplications, implicationFree, ihf, ihg]

/-- The formula itself when `positive`, else its negation. -/
def withSign (positive : Bool) (f : Formula) : Formula := if positive then f else not f

/-- The negation normal form of the formula, or of its negation when not `positive`. Of several
implications the leftmost is blamed, together with a negation that stands on it. -/
def nnf (positive : Bool) : Formula → Except ShapeError Formula
  | atom name => .ok ((atom name).withSign positive)
  | not f => f.nnf !positive
  | and f g => do
      let l ← f.nnf positive
      let r ← g.nnf positive
      return if positive then and l r else or l r
  | or f g => do
      let l ← f.nnf positive
      let r ← g.nnf positive
      return if positive then or l r else and l r
  | implies f g => .error (.implicationLeft ((implies f g).withSign positive))

/-- No implication occurs, and negations stand on atoms only. -/
def isNnf : Formula → Bool
  | atom _ => true
  | not (atom _) => true
  | not _ => false
  | and f g | or f g => f.isNnf && g.isNnf
  | implies _ _ => false

theorem nnf_ok_of_implicationFree {f : Formula} (h : f.implicationFree) (positive : Bool) :
    ∃ g, f.nnf positive = .ok g ∧ g.isNnf := by
  induction f generalizing positive with
  | atom name => cases positive <;> exact ⟨_, rfl, rfl⟩
  | not f ih => exact ih h !positive
  | and f g ihf ihg | or f g ihf ihg =>
      simp only [implicationFree, Bool.and_eq_true] at h
      obtain ⟨l, hl, nl⟩ := ihf h.1 positive
      obtain ⟨r, hr, nr⟩ := ihg h.2 positive
      cases positive <;> exact ⟨_, by simp only [nnf, hl, hr]; rfl, by simp [isNnf, nl, nr]⟩
  | implies => contradiction

def toNnf (f : Formula) (h : f.implicationFree) : Formula :=
  match hf : f.nnf true with
  | .ok g => g
  | .error _ => absurd (nnf_ok_of_implicationFree h true) (by simp [hf])

theorem nnf_eq_toNnf {f : Formula} (h : f.implicationFree) : f.nnf true = .ok (f.toNnf h) := by
  unfold toNnf
  split
  · assumption
  · next hf => exact absurd (nnf_ok_of_implicationFree h true) (by simp [hf])

theorem isNnf_toNnf {f : Formula} (h : f.implicationFree) : (f.toNnf h).isNnf := by
  obtain ⟨g, hg, hn⟩ := nnf_ok_of_implicationFree h true
  rw [nnf_eq_toNnf h] at hg
  cases hg
  exact hn

end Formula

end PropSat
