import PropSat.Variable

/-!
# Writing DIMACS text

The problem line declares the greatest variable and the number of clauses; each clause is a line of
literals closed by a zero.
-/

namespace PropSat.Dimacs

def writeClause (c : Clause Nat) : String :=
  String.join (c.map fun l => toString l ++ " ") ++ "0\n"

def write (cs : ClauseSet Nat) : String :=
  s!"p cnf {cs.maxVariable} {cs.length}\n" ++ String.join (cs.map writeClause)

end PropSat.Dimacs
