import PropSat.Dpll.Branching
import PropSat.Dpll.UnitPropagation

/-!
# Search with propagation

The search assumes a literal, propagates, and tries the complement when that fails. Every assumption
removes an atom from the clauses, so no branch is longer than the number of atoms.
-/

namespace PropSat.Dpll

variable {α : Type} [Atom α]

/-- Decides clauses that propagation has already simplified. -/
def search (s : Strategy α) (r : Residual α) : Option (Valuation α) :=
  if r.clauses.isEmpty then some r.valuation
  else if r.clauses.hasEmpty then none
  else
    match _h : s.pick? r.clauses with
    | none => none
    | some l => (search s (r.branch l)).orElse fun _ => search s (r.branch l.negate)
termination_by r.clauses.atoms.size
decreasing_by
  all_goals
    obtain ⟨c, hc, hl⟩ := s.mem_of_pick? _h
    exact Residual.size_atoms_branch_lt (ClauseSet.mem_atoms.mpr ⟨c, hc, l, hl, rfl⟩)

/-- A valuation that makes a literal of every clause true. Atoms without a value are free. -/
def satisfy (s : Strategy α) (cs : ClauseSet α) : Option (Valuation α) :=
  search s (Residual.propagate ⟨cs.distinct, ∅⟩)

end PropSat.Dpll
