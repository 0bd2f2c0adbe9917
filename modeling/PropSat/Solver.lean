import PropSat.Dimacs.AtomTable
import PropSat.Dpll.Search
import PropSat.Exhaustive
import PropSat.NormalForm.Clausal
import PropSat.Resolution.Saturation
import PropSat.Solution
import PropSat.Tableau.Search

/-!
# Solvers

The decision procedures under one interface. Each takes formulas, clause sets over names or clause
sets over numbers. A procedure on formulas reads a clause as a disjunction and a number as its
decimal text; a procedure on clauses brings formulas into clausal form.
-/

namespace PropSat

inductive Solver where
  | exhaustive
  | dpll (branching : Branching)
  | resolution
  | tableau
deriving DecidableEq, Repr

namespace Solver

/-- Solves a list of formulas read as their conjunction. -/
def solve (s : Solver) (fs : List Formula) : Solution String :=
  .ofOption <|
    match s with
    | exhaustive => Exhaustive.satisfy fs
    | dpll b => Dpll.satisfy b.strategy (.ofFormulas fs)
    | resolution => Resolution.satisfy (.ofFormulas fs)
    | tableau => Tableau.satisfy fs

/-- Solves a clause set through formulas. No formula stands for an empty clause, which makes the set
unsatisfiable by itself. -/
def solveAsFormulas (s : Solver) (cs : ClauseSet String) : Solution String :=
  match cs.toFormulas? with
  | some fs => s.solve fs
  | none => .unsatisfiable

def solveClauses (s : Solver) (cs : ClauseSet String) : Solution String :=
  match s with
  | dpll b => .ofOption (Dpll.satisfy b.strategy cs)
  | resolution => .ofOption (Resolution.satisfy cs)
  | exhaustive | tableau => s.solveAsFormulas cs

/-- Solves a clause set over numbers by way of their decimal texts. -/
def solveByName (s : Solver) (cs : ClauseSet Nat) : Solution Nat :=
  let (named, table) := cs.toDecimal
  .ofOption ((s.solveClauses named).valuation?.map table.encodeValuation)

def solveNumbered (s : Solver) (cs : ClauseSet Nat) : Solution Nat :=
  match s with
  | dpll b => .ofOption (Dpll.satisfy b.strategy cs)
  | resolution => .ofOption (Resolution.satisfy cs)
  | exhaustive | tableau => s.solveByName cs

end Solver

end PropSat
