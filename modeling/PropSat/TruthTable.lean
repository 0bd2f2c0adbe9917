import PropSat.Formula.Occurrence
import PropSat.Kleene

/-!
# Truth tables

All total valuations over a set of atoms, in lexicographic order with true before false, and the
comparison of two formulas row by row.
-/

namespace PropSat

/-- The rows of the truth table over the names: the first name varies slowest. -/
def Valuation.table : List String → List (Valuation String)
  | [] => [∅]
  | name :: names =>
      (table names).map (·.insert name true) ++ (table names).map (·.insert name false)

def FormulaSet.names (fs : FormulaSet) : List String :=
  fs.toList.filterMap fun
    | .atom name => some name
    | _ => none

/-- The truth table over the atoms of a set. A formula that is not an atom has no effect. -/
def FormulaSet.valuations (fs : FormulaSet) : List (Valuation String) :=
  Valuation.table fs.names

def Formula.equivalent (f g : Formula) : Bool :=
  (f.atoms ∪ g.atoms).valuations.all fun v => f.truth v == g.truth v

end PropSat
