/-!
# Faults in DIMACS text

Lines are numbered from 1 in the text as given, comments and blank lines included.
-/

namespace PropSat.Dimacs

inductive Error where
  | missingHeader
  | clauseBeforeHeader (line : Nat)
  | malformedHeader (line : Nat)
  | invalidLiteral (line : Nat) (token : String)
  | variableOutOfRange (line number max : Nat)
  | missingClauses (expected found : Nat)
deriving DecidableEq, Repr

def Error.message : Error → String
  | missingHeader => "missing `p cnf <atoms> <clauses>` problem line"
  | clauseBeforeHeader line =>
      s!"line {line}: clause found before the `p cnf` problem line"
  | malformedHeader line =>
      s!"line {line}: malformed problem line, expected `p cnf <atoms> <clauses>`"
  | invalidLiteral line token => s!"line {line}: `{token}` is not an integer literal"
  | variableOutOfRange line number max =>
      s!"line {line}: variable {number} exceeds the declared {max} atoms"
  | missingClauses expected found => s!"expected {expected} clauses, found only {found}"

end PropSat.Dimacs
