import PropSat.Atom

/-!
# Literals

An atom together with a sign. Literals are ordered by atom first, and the negative literal of an
atom comes before the positive one.
-/

namespace PropSat

/-- An atom (`sign = true`) or the negation of one. -/
structure Literal (α : Type) where
  atom : α
  sign : Bool
deriving DecidableEq, Repr

namespace Literal

variable {α : Type}

def negate (l : Literal α) : Literal α := ⟨l.atom, !l.sign⟩

@[simp] theorem negate_atom (l : Literal α) : l.negate.atom = l.atom := rfl

@[simp] theorem negate_sign (l : Literal α) : l.negate.sign = !l.sign := rfl

@[simp] theorem negate_negate (l : Literal α) : l.negate.negate = l := by
  simp [negate]

theorem negate_eq_iff_eq_negate {l k : Literal α} : k.negate = l ↔ k = l.negate := by
  constructor
  · rintro rfl
    exact k.negate_negate.symm
  · rintro rfl
    exact l.negate_negate

theorem negate_ne (l : Literal α) : l.negate ≠ l := by
  intro h
  simpa [negate] using congrArg sign h

theorem eq_or_eq_negate_of_atom_eq {l k : Literal α} (h : l.atom = k.atom) :
    l = k ∨ l = k.negate := by
  obtain ⟨a, s⟩ := l
  obtain ⟨b, t⟩ := k
  cases h
  cases s <;> cases t <;> simp [negate]

variable [Atom α]

instance : Ord (Literal α) where
  compare l k := (compare l.atom k.atom).then (compare l.sign k.sign)

instance : Std.TransOrd (Literal α) :=
  inferInstanceAs (Std.TransCmp (compareLex (compareOn atom) (compareOn sign)))

instance : Std.LawfulEqOrd (Literal α) where
  eq_of_compare {l k} h := by
    have hc : (compare l.atom k.atom).then (compare l.sign k.sign) = .eq := h
    simp only [Ordering.then_eq_eq, Std.LawfulEqOrd.compare_eq_iff_eq] at hc
    cases l; cases k; simp_all

end Literal

end PropSat
