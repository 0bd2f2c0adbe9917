import PropSat.Formula.Order

/-!
# What occurs in a formula

The atoms of a formula and its subformulas, each as an ordered set.
-/

namespace PropSat

abbrev FormulaSet := Std.ExtTreeSet Formula

namespace Formula

/-- The atom names from left to right, repetitions kept. -/
def occurrences : Formula → List String
  | atom name => [name]
  | not f => f.occurrences
  | and f g | or f g | implies f g => f.occurrences ++ g.occurrences

def atomNames (f : Formula) : Std.ExtTreeSet String := .ofList f.occurrences

def atoms (f : Formula) : FormulaSet := .ofList (f.occurrences.map atom)

@[simp] theorem mem_atomNames {f : Formula} {name : String} :
    name ∈ f.atomNames ↔ name ∈ f.occurrences := by
  simp [atomNames]

@[simp] theorem mem_atoms {f g : Formula} :
    g ∈ f.atoms ↔ ∃ name ∈ f.occurrences, atom name = g := by
  simp [atoms]

/-- Adds the subformulas of a formula to those already seen. A formula seen before is not entered
again. -/
def collectSubformulas (seen : FormulaSet) (f : Formula) : FormulaSet :=
  if f ∈ seen then seen
  else
    match f with
    | atom _ => seen.insert f
    | not g => collectSubformulas (seen.insert f) g
    | and g h | or g h | implies g h =>
        collectSubformulas (collectSubformulas (seen.insert f) g) h

def subformulas (f : Formula) : FormulaSet := collectSubformulas ∅ f

end Formula

end PropSat
