import PropSat.Literal

/-!
# Propositional formulas

Formulas over named atoms, their measures, their text and replacement of one subformula by another.
Equality is structural.
-/

namespace PropSat

inductive Formula where
  | atom (name : String)
  | not (f : Formula)
  | and (f g : Formula)
  | or (f g : Formula)
  | implies (f g : Formula)
deriving DecidableEq, Repr, Inhabited

namespace Formula

/-- Binary connectives are always in parentheses, so the text shows the tree. -/
def toString : Formula → String
  | atom name => name
  | not f => "¬" ++ f.toString
  | and f g => "(" ++ f.toString ++ " ∧ " ++ g.toString ++ ")"
  | or f g => "(" ++ f.toString ++ " ∨ " ++ g.toString ++ ")"
  | implies f g => "(" ++ f.toString ++ " → " ++ g.toString ++ ")"

instance : ToString Formula := ⟨toString⟩

def ofLiteral (l : Literal String) : Formula :=
  if l.sign then atom l.atom else not (atom l.atom)

def literal? : Formula → Option (Literal String)
  | atom name => some ⟨name, true⟩
  | not (atom name) => some ⟨name, false⟩
  | _ => none

def isLiteral (f : Formula) : Bool := f.literal?.isSome

@[simp] theorem literal?_ofLiteral (l : Literal String) : (ofLiteral l).literal? = some l := by
  obtain ⟨a, s⟩ := l
  cases s <;> rfl

theorem eq_ofLiteral_of_literal? {f : Formula} {l : Literal String} (h : f.literal? = some l) :
    f = ofLiteral l := by
  unfold literal? at h
  split at h <;> simp_all [ofLiteral] <;> subst h <;> rfl

/-- The complementary literal of a literal; any other formula is wrapped in a negation. -/
def complement (f : Formula) : Formula :=
  match f.literal? with
  | some l => ofLiteral l.negate
  | none => not f

/-- The left-leaning conjunction of a list; an empty list has none. -/
def conjunction? : List Formula → Option Formula
  | [] => none
  | f :: fs => some (fs.foldl and f)

def disjunction? : List Formula → Option Formula
  | [] => none
  | f :: fs => some (fs.foldl or f)

/-- The number of nodes: one for each atom occurrence and each connective. -/
def size : Formula → Nat
  | atom _ => 1
  | not f => 1 + f.size
  | and f g | or f g | implies f g => 1 + f.size + g.size

def atomCount : Formula → Nat
  | atom _ => 1
  | not f => f.atomCount
  | and f g | or f g | implies f g => f.atomCount + g.atomCount

def connectiveCount : Formula → Nat
  | atom _ => 0
  | not f => 1 + f.connectiveCount
  | and f g | or f g | implies f g => 1 + f.connectiveCount + g.connectiveCount

/-- Replaces every outermost occurrence of `old` by `new`. What has been put in is not searched. -/
def replace (f old new : Formula) : Formula :=
  if f = old then new
  else
    match f with
    | atom name => atom name
    | not f => not (f.replace old new)
    | and f g => and (f.replace old new) (g.replace old new)
    | or f g => or (f.replace old new) (g.replace old new)
    | implies f g => implies (f.replace old new) (g.replace old new)

end Formula

end PropSat
