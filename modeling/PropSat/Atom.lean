import Std.Data.ExtTreeMap
import Std.Data.ExtTreeSet

/-!
# Atoms

Propositional variables are named by any type with a lawful total order: texts in formulas,
natural numbers in numbered clause sets.
-/

namespace PropSat

/-- A type whose members can name propositional variables. -/
class Atom (α : Type) extends Ord α, Std.TransOrd α, Std.LawfulEqOrd α where
  [decEq : DecidableEq α]

attribute [reducible, instance] Atom.decEq

instance : Atom Nat where

/-- Texts are ordered by code points. -/
instance : Atom String where

end PropSat
