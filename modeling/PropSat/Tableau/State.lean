import PropSat.Formula.Occurrence
import PropSat.Valuation

/-!
# Tableau state

A branch of an analytic tableau is a list of formulas that all have to be true. Expanding a formula
adds its parts. Where only one of two parts has to be true, one is added and the other is deferred
in a checkpoint. A checkpoint stores lengths only: going back cuts the branch to its former length
and reopens the formulas that the trail shows to be expanded since.
-/

namespace PropSat

/-- What a formula asks of its parts: all of them are true, or one of two is. -/
inductive Expansion where
  | all (parts : List Formula)
  | either (deferred chosen : Formula)

namespace Formula

def expansion : Formula → Expansion
  | atom _ => .all []
  | and f g => .all [f, g]
  | or f g => .either f g
  | implies f g => .either (not f) g
  | not (atom _) => .all []
  | not (not f) => .all [f]
  | not (and f g) => .either (not f) (not g)
  | not (or f g) => .all [not f, not g]
  | not (implies f g) => .all [f, not g]

def branching (f : Formula) : Bool :=
  match f.expansion with
  | .all _ => false
  | .either _ _ => true

end Formula

namespace Tableau

/-- A formula of the branch. A literal has nothing to expand and counts as expanded. -/
structure Entry where
  formula : Formula
  expanded : Bool
deriving DecidableEq

/-- The lengths of branch and trail when an alternative was deferred. -/
structure Checkpoint where
  entryCount : Nat
  trailLength : Nat
  alternative : Formula
deriving DecidableEq

end Tableau

open Tableau

/-- The current branch, the formulas on it as a set, the positions expanded so far in order, and the
deferred alternatives, latest first. -/
structure Tableau where
  entries : List Entry
  present : FormulaSet
  trail : List Nat
  checkpoints : List Checkpoint

namespace Tableau

def empty : Tableau := ⟨[], ∅, [], []⟩

def formulas (t : Tableau) : List Formula := t.entries.map Entry.formula

/-- Puts a formula at the end of the branch unless it is there already. -/
def add (f : Formula) (t : Tableau) : Tableau :=
  if f ∈ t.present then t
  else { t with entries := t.entries ++ [⟨f, f.isLiteral⟩], present := t.present.insert f }

def addAll (fs : List Formula) (t : Tableau) : Tableau := fs.foldl (fun t f => t.add f) t

/-- The formulas without alternatives come first. -/
def ofFormulas (fs : List Formula) : Tableau :=
  empty.addAll (fs.filter (!·.branching) ++ fs.filter (·.branching))

def mark (i : Nat) (t : Tableau) : Tableau :=
  { t with
    entries := t.entries.modify i fun e => { e with expanded := true }
    trail := t.trail ++ [i] }

/-- Remembers the present lengths together with an alternative to take up later. -/
def defer (f : Formula) (t : Tableau) : Tableau :=
  { t with checkpoints := ⟨t.entries.length, t.trail.length, f⟩ :: t.checkpoints }

def expand (i : Nat) (t : Tableau) : Tableau :=
  match t.entries[i]? with
  | none => t
  | some e =>
      match e.formula.expansion with
      | .all parts => (t.mark i).addAll parts
      | .either deferred chosen => ((t.mark i).defer deferred).add chosen

def reopen (positions : List Nat) (es : List Entry) : List Entry :=
  es.mapIdx fun i e => if i ∈ positions then { e with expanded := false } else e

/-- The branch as it was when the checkpoint was made. -/
def entriesAt (c : Checkpoint) (t : Tableau) : List Entry :=
  reopen (t.trail.drop c.trailLength) (t.entries.take c.entryCount)

def rewind (c : Checkpoint) (t : Tableau) : Tableau :=
  { t with
    entries := t.entriesAt c
    present := (t.entries.drop c.entryCount).foldl (fun s e => s.erase e.formula) t.present
    trail := t.trail.take c.trailLength }

/-- Takes up the alternative deferred last. -/
def resume? (t : Tableau) : Option Tableau :=
  match t.checkpoints with
  | [] => none
  | c :: cs => some (({ t with checkpoints := cs }.rewind c).add c.alternative)

def closed (t : Tableau) : Bool :=
  t.entries.any fun e =>
    match e.formula with
    | .atom name => decide (.not (.atom name) ∈ t.present)
    | _ => false

/-- The position to expand next: the first unexpanded formula without alternatives, else the first
unexpanded one. -/
def next? (t : Tableau) : Option Nat :=
  (t.entries.findIdx? fun e => !e.expanded && !e.formula.branching).or
    (t.entries.findIdx? fun e => !e.expanded)

def valuation (t : Tableau) : Valuation String :=
  (t.formulas.filterMap Formula.literal?).foldl Valuation.assign ∅

end Tableau

end PropSat
