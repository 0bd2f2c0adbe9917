import PropSat.Text.Number
import PropSat.Variable

/-!
# Atom tables

A table numbers atom names from 1 in the order in which they are first met. A name keeps its number
for good, so one table serves many clause sets, and a literal and its complement share a number.
-/

namespace PropSat

/-- The names in the order of their numbers. -/
structure AtomTable where
  names : List String
  nodup : names.Nodup := by simp

namespace AtomTable

def empty : AtomTable := { names := [] }

def size (t : AtomTable) : Nat := t.names.length

/-- The number of a name: the one it has, or the next free one. -/
def number (t : AtomTable) (name : String) : Nat := t.names.idxOf name + 1

def number? (t : AtomTable) (name : String) : Option Nat := (t.names.idxOf? name).map (· + 1)

def name? (t : AtomTable) (n : Nat) : Option String := if n = 0 then none else t.names[n - 1]?

def insert (t : AtomTable) (name : String) : AtomTable :=
  if h : name ∈ t.names then t
  else
    { names := t.names ++ [name]
      nodup := by
        simp only [List.nodup_append, t.nodup, List.mem_singleton]
        exact ⟨trivial, by simp, by rintro a ha b rfl rfl; exact h ha⟩ }

def insertAll (t : AtomTable) (names : List String) : AtomTable := names.foldl insert t

def toNumbered (t : AtomTable) (l : Literal String) : Literal Nat := ⟨t.number l.atom, l.sign⟩

def toNamed? (t : AtomTable) (l : Literal Nat) : Option (Literal String) :=
  (t.name? l.atom).map (⟨·, l.sign⟩)

def encodeLiteral (t : AtomTable) (l : Literal String) : Literal Nat × AtomTable :=
  (t.toNumbered l, t.insert l.atom)

/-- Numbers a clause set, extending the table by the new names in the order in which they occur. -/
def encode (t : AtomTable) (cs : ClauseSet String) : ClauseSet Nat × AtomTable :=
  let t' := t.insertAll (cs.flatten.map Literal.atom)
  (cs.map (·.map t'.toNumbered), t')

/-- Names a clause set. There is no result when the table lacks one of its numbers. -/
def decode? (t : AtomTable) (cs : ClauseSet Nat) : Option (ClauseSet String) :=
  cs.mapM (·.mapM t.toNamed?)

/-- Drops the atoms that the table does not know. -/
def encodeValuation (t : AtomTable) (v : Valuation String) : Valuation Nat :=
  .ofPairs (v.toList.filterMap fun (name, b) => (t.number? name).map (·, b))

/-- Drops the numbers that the table does not know. -/
def decodeValuation (t : AtomTable) (v : Valuation Nat) : Valuation String :=
  .ofPairs (v.toList.filterMap fun (n, b) => (t.name? n).map (·, b))

/-- The table that names each number up to `n` by its decimal text. -/
def decimal (n : Nat) : AtomTable where
  names := (List.range' 1 n).map toString
  nodup := List.Pairwise.map _ (fun _ _ hne he => hne (Text.repr_injective he)) List.nodup_range'

end AtomTable

namespace Literal

def toDecimal (l : Literal Nat) : Literal String := ⟨toString l.atom, l.sign⟩

end Literal

/-- Names every number by its decimal text, and gives a table that leads back. -/
def ClauseSet.toDecimal (cs : ClauseSet Nat) : ClauseSet String × AtomTable :=
  (cs.map (·.map Literal.toDecimal), .decimal cs.maxVariable)

end PropSat
