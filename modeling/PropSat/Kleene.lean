import PropSat.Formula
import PropSat.Valuation

/-!
# Three-valued truth

Kleene's strong connectives. A truth value is true, false or unknown (`none`), and a compound is
known as soon as its known operands decide it.
-/

namespace PropSat

abbrev Truth := Option Bool

namespace Truth

def not : Truth → Truth := Option.map (!·)

def and : Truth → Truth → Truth
  | some false, _ | _, some false => some false
  | some true, some true => some true
  | _, _ => none

def or : Truth → Truth → Truth
  | some true, _ | _, some true => some true
  | some false, some false => some false
  | _, _ => none

def implies : Truth → Truth → Truth
  | some false, _ | _, some true => some true
  | some true, some false => some false
  | _, _ => none

end Truth

namespace Formula

def truth (v : Valuation String) : Formula → Truth
  | atom name => v[name]?
  | not f => (f.truth v).not
  | and f g => (f.truth v).and (g.truth v)
  | or f g => (f.truth v).or (g.truth v)
  | implies f g => (f.truth v).implies (g.truth v)

/-- The truth value of the conjunction of a list of formulas; a false one settles it at once. -/
def truthAll (v : Valuation String) : List Formula → Truth
  | [] => some true
  | f :: fs =>
      match f.truth v with
      | some false => some false
      | t => t.and (truthAll v fs)

theorem truthAll_cons (v : Valuation String) (f : Formula) (fs : List Formula) :
    truthAll v (f :: fs) = (f.truth v).and (truthAll v fs) := by
  cases h : f.truth v with
  | none => simp [truthAll, h]
  | some b => cases b <;> simp [truthAll, h, Truth.and]

end Formula

end PropSat
