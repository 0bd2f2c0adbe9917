import PropSat.Formula.Occurrence
import PropSat.Kleene
import PropSat.Clause

/-!
# Solutions

The outcome of a search and its texts. Unsatisfiability is an answer like any other.
-/

namespace PropSat

inductive Solution (α : Type) [Atom α] where
  | satisfiable (v : Valuation α)
  | unsatisfiable

namespace Solution

variable {α : Type} [Atom α]

def ofOption : Option (Valuation α) → Solution α
  | some v => satisfiable v
  | none => unsatisfiable

def valuation? : Solution α → Option (Valuation α)
  | satisfiable v => some v
  | unsatisfiable => none

def isSat (s : Solution α) : Bool := s.valuation?.isSome

def isUnsat (s : Solution α) : Bool := s.valuation?.isNone

/-- The list in rows of the given width, the last of which may be shorter. -/
def rows {β : Type} (width : Nat) : List β → List (List β)
  | [] => []
  | x :: xs => (x :: xs.take (width - 1)) :: rows width (xs.drop (width - 1))
termination_by xs => xs.length
decreasing_by simp only [List.length_drop, List.length_cons]; omega

/-- Eight atoms a line, each after a minus if false and after a blank if true. -/
def toString [ToString α] : Solution α → String
  | unsatisfiable => "Unsatisfiable"
  | satisfiable v =>
      "Satisfiable:\n" ++ String.join ((rows 8 v.toList).map fun row =>
        String.join (row.map fun (a, b) => (if b then " " else "-") ++ ToString.toString a ++ " ")
          ++ "\n")

/-- The status line, and for a model the literals in lines of eight and a closing zero. -/
def toDimacs : Solution Nat → String
  | unsatisfiable => "s UNSATISFIABLE\n"
  | satisfiable v =>
      "s SATISFIABLE\n" ++ String.join ((rows 8 v.toList).map fun row =>
        "v" ++ String.join (row.map fun (n, b) => (if b then " " else " -") ++ ToString.toString n)
          ++ "\n") ++ "v 0\n"

/-- All formulas are true once the atoms without a value are made false. -/
def satisfies (s : Solution String) (fs : List Formula) : Bool :=
  match s with
  | unsatisfiable => false
  | satisfiable v =>
      let w := v.complete (fs.flatMap Formula.occurrences)
      fs.all fun f => f.truth w == some true

end Solution

end PropSat
