import PropSat.Formula.Occurrence
import PropSat.Kleene

/-!
# Exhaustive search

Formulas are satisfied by trying both values of every atom. Literals that the formulas conjoin at
the top are fixed beforehand, and a branch ends as soon as its partial valuation decides the
formulas, so the valuation found may leave atoms open.
-/

namespace PropSat

namespace Formula

/-- The literals reached through conjunctions only, from left to right. -/
def conjoinedLiterals : Formula → List (Literal String)
  | and f g => f.conjoinedLiterals ++ g.conjoinedLiterals
  | f => f.literal?.toList

/-- The valuation that makes every conjoined literal true, if no two are complementary. -/
def forced? (fs : List Formula) : Option (Valuation String) :=
  Valuation.ofLiterals? (fs.flatMap conjoinedLiterals)

end Formula

/-- The atoms of a list of formulas in ascending order. -/
def Formula.namesOfAll (fs : List Formula) : List String :=
  (Std.ExtTreeSet.ofList (fs.flatMap Formula.occurrences)).toList

namespace Exhaustive

/-- Tries the open atoms in order, true before false, starting from a partial valuation. -/
def search (fs : List Formula) : List String → Valuation String → Option (Valuation String)
  | names, v =>
      match Formula.truthAll v fs, names with
      | some true, _ => some v
      | some false, _ => none
      | none, [] => none
      | none, name :: names =>
          (search fs names (v.insert name true)).orElse fun _ =>
            search fs names (v.insert name false)

/-- A valuation that makes every formula true already where it is defined. -/
def satisfy (fs : List Formula) : Option (Valuation String) := do
  let v ← Formula.forced? fs
  search fs ((Formula.namesOfAll fs).filter (· ∉ v)) v

end Exhaustive

namespace Formula

def valid (f : Formula) : Bool := (Exhaustive.satisfy [not f]).isNone

def entails (premises : List Formula) (conclusion : Formula) : Bool :=
  (Exhaustive.satisfy (premises ++ [not conclusion])).isNone

end Formula

end PropSat
