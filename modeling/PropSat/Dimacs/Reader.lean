import PropSat.Dimacs.Error
import PropSat.Text.Blank
import PropSat.Text.Number
import PropSat.Variable

/-!
# Reading DIMACS text

Blank lines and lines that start with `c` are skipped. The first other line is the problem line; it
declares how many clause lines follow and how large a variable may be. A clause line ends at its
first zero or at its end, and whatever follows the declared clauses is ignored.
-/

namespace PropSat.Dimacs

/-- A line without the blanks around it, and its number. -/
structure Line where
  number : Nat
  text : List Char
deriving DecidableEq, Repr

def Line.hasContent (l : Line) : Bool :=
  match l.text with
  | [] => false
  | c :: _ => c ≠ 'c'

def contentLines (text : List Char) : List Line :=
  (((text.splitOn '\n').zipIdx 1).map fun (cs, n) => ⟨n, Text.trim cs⟩).filter Line.hasContent

def readHeader (l : Line) : Except Error (Nat × Nat) :=
  if l.text.head? ≠ some 'p' then .error (.clauseBeforeHeader l.number)
  else
    match Text.words l.text with
    | [['p'], ['c', 'n', 'f'], atoms, clauses] =>
        match Text.natural64? atoms, Text.natural64? clauses with
        | some a, some c => .ok (a, c)
        | _, _ => .error (.malformedHeader l.number)
    | _ => .error (.malformedHeader l.number)

/-- The literals of a clause line, up to the first zero. -/
def readLiterals (line max : Nat) : List (List Char) → Except Error (Clause Nat)
  | [] => .ok []
  | w :: ws =>
      match Text.integer32? w with
      | none => .error (.invalidLiteral line (String.ofList w))
      | some n =>
          match Literal.ofInt? n with
          | none => .ok []
          | some l =>
              if max < l.atom then .error (.variableOutOfRange line l.atom max)
              else (readLiterals line max ws).map (l :: ·)

def readClause (max : Nat) (l : Line) : Except Error (Clause Nat) :=
  readLiterals l.number max (Text.words l.text)

/-- The clause set that a text describes, or the first fault in reading order. -/
def read (text : String) : Except Error (ClauseSet Nat) :=
  match contentLines text.toList with
  | [] => .error .missingHeader
  | header :: lines => do
      let (max, count) ← readHeader header
      let clauses ← (lines.take count).mapM (readClause max)
      if clauses.length < count then .error (.missingClauses count clauses.length)
      else .ok clauses

end PropSat.Dimacs
