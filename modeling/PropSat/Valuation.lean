import PropSat.Literal

/-!
# Partial valuations

A valuation gives some atoms a truth value. An absent atom is unknown, not false. Two valuations
are equal exactly when they answer every look-up alike.
-/

namespace PropSat

abbrev Valuation (α : Type) [Atom α] := Std.ExtTreeMap α Bool

variable {α : Type} [Atom α]

def Literal.HoldsIn (v : Valuation α) (l : Literal α) : Prop := v[l.atom]? = some l.sign

instance (v : Valuation α) (l : Literal α) : Decidable (l.HoldsIn v) :=
  inferInstanceAs (Decidable (_ = _))

namespace Valuation

def assign (v : Valuation α) (l : Literal α) : Valuation α := v.insert l.atom l.sign

/-- Makes a literal true unless its complement already is. -/
def assign? (v : Valuation α) (l : Literal α) : Option (Valuation α) :=
  if l.negate.HoldsIn v then none else some (v.assign l)

/-- Makes all the literals true, or none when two of them are complementary. -/
def ofLiterals? (ls : List (Literal α)) : Option (Valuation α) :=
  ls.foldlM assign? ∅

/-- Makes the atoms without a value false. -/
def complete (v : Valuation α) (atoms : List α) : Valuation α :=
  atoms.foldl (fun w a => if a ∈ w then w else w.insert a false) v

/-- Later pairs override earlier ones. -/
def ofPairs (pairs : List (α × Bool)) : Valuation α := Std.ExtTreeMap.ofList pairs

theorem getElem?_assign (v : Valuation α) (l : Literal α) (a : α) :
    (v.assign l)[a]? = if l.atom = a then some l.sign else v[a]? := by
  simp [assign, Std.ExtTreeMap.getElem?_insert]

@[simp] theorem getElem?_assign_self (v : Valuation α) (l : Literal α) :
    (v.assign l)[l.atom]? = some l.sign := by
  simp [getElem?_assign]

end Valuation

end PropSat
