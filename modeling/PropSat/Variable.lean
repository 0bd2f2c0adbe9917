import PropSat.Clause

/-!
# Numbered literals

A literal over a numbered variable is written as a signed 32-bit integer: its absolute value is the
variable, its sign the sign of the literal. Zero names no literal. Larger numbers wrap.
-/

namespace PropSat.Literal

/-- The positive integer of a positive literal, the negative integer of a negative one. -/
def signed (l : Literal Nat) : Int := if l.sign then l.atom else -l.atom

/-- The signed number brought into the 32-bit range. -/
def toInt32 (l : Literal Nat) : Int := l.signed.bmod UInt32.size

def ofInt? (n : Int) : Option (Literal Nat) :=
  if n = 0 then none else some ⟨n.natAbs, 0 < n⟩

instance : ToString (Literal Nat) := ⟨fun l => toString l.toInt32⟩

instance : ToString (Literal String) := ⟨fun l => if l.sign then l.atom else "¬" ++ l.atom⟩

theorem ofInt?_signed {l : Literal Nat} (h : l.atom ≠ 0) : ofInt? l.signed = some l := by
  obtain ⟨n, s⟩ := l
  cases s with
  | false =>
      simp only [signed, ofInt?, Bool.false_eq_true, if_false]
      rw [if_neg (by simp only at h; omega)]
      simp
  | true => simp_all [signed, ofInt?]; omega

theorem signed_of_ofInt? {n : Int} {l : Literal Nat} (h : ofInt? n = some l) : l.signed = n := by
  unfold ofInt? at h
  split at h
  · contradiction
  · cases h
    simp only [signed, decide_eq_true_eq]
    split <;> omega

end PropSat.Literal

namespace PropSat.ClauseSet

def variableCount (cs : ClauseSet Nat) : Nat := cs.atoms.size

/-- The greatest variable, 0 when there is none. -/
def maxVariable (cs : ClauseSet Nat) : Nat :=
  (cs.flatten.map Literal.atom).foldl max 0

theorem atom_le_maxVariable {cs : ClauseSet Nat} {c : Clause Nat} {l : Literal Nat}
    (hc : c ∈ cs) (hl : l ∈ c) : l.atom ≤ cs.maxVariable := by
  have bound : ∀ (ns : List Nat) (m : Nat), m ≤ ns.foldl max m ∧ ∀ n ∈ ns, n ≤ ns.foldl max m := by
    intro ns
    induction ns with
    | nil => simp
    | cons n ns ih =>
        intro m
        have := ih (max m n)
        grind
  exact (bound _ 0).2 _ (List.mem_map_of_mem (List.mem_flatten_of_mem hc hl))

end PropSat.ClauseSet
