import PropSat.Tableau.Termination

/-!
# Tableau search

A closed branch is given up for the alternative deferred last; an open one is expanded until nothing
is left to expand. Its literals then give a model.
-/

namespace PropSat.Tableau

/-- Runs a tableau to an open branch, or to the end of all branches. -/
def run (t : Tableau) (ht : t.Layered) : Option (Valuation String) :=
  if t.closed then
    match _h : t.resume? with
    | none => none
    | some u => u.run (ht.resume _h)
  else
    match _h : t.next? with
    | none => some t.valuation
    | some i => (t.expand i).run (ht.expand i)
termination_by t.cost
decreasing_by
  · exact cost_resume_lt ht _h
  · obtain ⟨e, he, hu⟩ := exists_of_next? _h
    exact cost_expand_lt ht he hu

/-- A valuation that makes every formula true already where it is defined. -/
def satisfy (fs : List Formula) : Option (Valuation String) :=
  (ofFormulas fs).run (layered_ofFormulas fs)

end PropSat.Tableau
