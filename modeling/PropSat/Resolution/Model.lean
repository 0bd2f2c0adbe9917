import PropSat.Resolution.Resolvent

/-!
# The canonical model

From clauses that are closed under resolution a model is read off atom by atom. An atom becomes true
only when a clause would otherwise be false.
-/

namespace PropSat.LiteralSet

variable {α : Type} [Atom α]

def tautology (c : LiteralSet α) : Bool := c.toList.any (·.negate ∈ c)

/-- The clause holds the atom positively, and its other literals are on smaller atoms and false. -/
def requires (v : Valuation α) (a : α) (c : LiteralSet α) : Bool :=
  !c.tautology && decide ((⟨a, true⟩ : Literal α) ∈ c) &&
    c.toList.all fun l => l.atom = a || (compare l.atom a).isLT && l.negate.HoldsIn v

/-- Decides the atoms in ascending order. Each is true exactly when some clause requires it. -/
def canonicalModel (cs : List (LiteralSet α)) : Valuation α :=
  (ClauseSet.atoms (cs.map (·.toList))).toList.foldl
    (fun v a => v.insert a (cs.any (requires v a))) ∅

end PropSat.LiteralSet
