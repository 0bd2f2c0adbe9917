import PropSat.Valuation

/-!
# Clauses and clause sets

A clause is a disjunction of literals, a clause set a conjunction of clauses. Both are lists: order
and repetitions are kept, since they decide which model a search meets first. Where only membership
counts, a clause is viewed as a set of literals.
-/

namespace PropSat

abbrev Clause (α : Type) := List (Literal α)

abbrev ClauseSet (α : Type) := List (Clause α)

abbrev LiteralSet (α : Type) [Atom α] := Std.ExtTreeSet (Literal α)

variable {α : Type} [Atom α]

namespace LiteralSet

/-- Literal sets are compared lexicographically over their sorted members. -/
instance : Ord (LiteralSet α) := ⟨compareOn Std.ExtTreeSet.toList⟩

instance : Std.TransOrd (LiteralSet α) :=
  inferInstanceAs (Std.TransCmp (compareOn Std.ExtTreeSet.toList))

instance : Std.LawfulEqOrd (LiteralSet α) where
  eq_of_compare h :=
    Std.ExtTreeSet.toList_inj.mp (Std.LawfulEqOrd.eq_of_compare (α := List (Literal α)) h)

end LiteralSet

namespace Clause

/-- The clause without repetitions; the first occurrence of each literal stays. -/
def distinct (c : Clause α) : Clause α := c.eraseDups

def toSet (c : Clause α) : LiteralSet α := .ofList c

def HoldsIn (v : Valuation α) (c : Clause α) : Prop := ∃ l ∈ c, l.HoldsIn v

instance (v : Valuation α) (c : Clause α) : Decidable (c.HoldsIn v) :=
  inferInstanceAs (Decidable (∃ l ∈ c, l.HoldsIn v))

def toString [ToString (Literal α)] (c : Clause α) : String :=
  "[" ++ ", ".intercalate (c.map ToString.toString) ++ "]"

@[simp] theorem mem_toSet {c : Clause α} {l : Literal α} : l ∈ c.toSet ↔ l ∈ c := by
  simp [toSet]

end Clause

namespace ClauseSet

def hasEmpty (cs : ClauseSet α) : Bool := cs.any List.isEmpty

def atoms (cs : ClauseSet α) : Std.ExtTreeSet α := .ofList (cs.flatten.map Literal.atom)

def toSet (cs : ClauseSet α) : Std.ExtTreeSet (LiteralSet α) := .ofList (cs.map Clause.toSet)

def distinct (cs : ClauseSet α) : ClauseSet α := cs.map Clause.distinct

def HoldsIn (v : Valuation α) (cs : ClauseSet α) : Prop := ∀ c ∈ cs, c.HoldsIn v

instance (v : Valuation α) (cs : ClauseSet α) : Decidable (cs.HoldsIn v) :=
  inferInstanceAs (Decidable (∀ c ∈ cs, c.HoldsIn v))

def toString [ToString (Literal α)] (cs : ClauseSet α) : String :=
  String.join (cs.map fun c => c.toString ++ "\n")

theorem mem_atoms {cs : ClauseSet α} {a : α} : a ∈ cs.atoms ↔ ∃ c ∈ cs, ∃ l ∈ c, l.atom = a := by
  simp only [atoms, Std.ExtTreeSet.mem_ofList, List.contains_iff_mem, List.mem_map,
    List.mem_flatten]
  grind

end ClauseSet

end PropSat
