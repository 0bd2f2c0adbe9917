import PropSat.Proofs.Dimacs.Numbering

/-!
# Decimal names lead back to the numbers

A numbered clause set is named by decimal texts, clause by clause, and the table of names is filled
with all numbers up to the greatest variable. The two are made apart and agree: the table names the
numbers as the clauses have them named. What holds of any clause set that a table names then gives
the way back, for clauses and for models.
-/

namespace PropSat

section

variable {t : AtomTable} {v : Valuation Nat}

theorem Literal.holdsIn_decodeValuation {k : Literal Nat} {l : Literal String}
    (h : t.toNamed? k = some l) : l.HoldsIn (t.decodeValuation v) ↔ k.HoldsIn v := by
  obtain ⟨hname, hsign⟩ := AtomTable.toNamed?_eq_some_iff.mp h
  unfold HoldsIn
  rw [AtomTable.getElem?_decodeValuation, AtomTable.number?_eq_some_iff.mpr hname, Option.bind_some,
    hsign]

theorem Clause.holdsIn_decodeValuation {d : Clause Nat} {c : Clause String}
    (h : List.Forall₂ (fun k l => t.toNamed? k = some l) d c) :
    c.HoldsIn (t.decodeValuation v) ↔ d.HoldsIn v := by
  unfold HoldsIn
  induction h with
  | nil => simp
  | cons hkl _ ih =>
      simp only [List.exists_mem_cons_iff, ih, Literal.holdsIn_decodeValuation hkl]

theorem ClauseSet.holdsIn_decodeValuation {ds : ClauseSet Nat} {cs : ClauseSet String}
    (h : t.decode? ds = some cs) : cs.HoldsIn (t.decodeValuation v) ↔ ds.HoldsIn v := by
  have hnames := AtomTable.decode?_eq_some_iff.mp h
  clear h
  unfold HoldsIn
  induction hnames with
  | nil => simp
  | cons hdc _ ih => simp only [List.forall_mem_cons, ih, Clause.holdsIn_decodeValuation hdc]

end

namespace ClauseSet

variable {cs : ClauseSet Nat}

theorem decode?_toDecimal (hpos : ∀ c ∈ cs, ∀ l ∈ c, 1 ≤ l.atom) :
    cs.toDecimal.2.decode? cs = some cs.toDecimal.1 := by
  have hnamed : cs.toDecimal.1 = cs.map (·.map Literal.toDecimal) := rfl
  rw [AtomTable.decode?_eq_some_iff, hnamed, List.forall₂_map_right_iff, List.forall₂_same]
  intro c hc
  rw [List.forall₂_map_right_iff, List.forall₂_same]
  intro l hl
  have hname := AtomTable.name?_decimal (hpos c hc l hl) (atom_le_maxVariable hc hl)
  exact AtomTable.toNamed?_eq_some_iff.mpr ⟨hname, rfl⟩

/-- A clause set whose variables are numbered from 1, gaps allowed, is named with a table that leads
back: numbering the names by it gives the clause set again and adds no name, naming the clause set
by it gives the same names. The table holds the decimal texts of all numbers up to the greatest
variable and nothing else, different variables have different names, and a valuation is a model
exactly if it is one under the names. -/
theorem toDecimal_reversed_by_table (cs : ClauseSet Nat) (hpos : ∀ c ∈ cs, ∀ l ∈ c, 1 ≤ l.atom) :
    cs.toDecimal.2.encode cs.toDecimal.1 = (cs, cs.toDecimal.2) ∧
    cs.toDecimal.2.decode? cs = some cs.toDecimal.1 ∧
    cs.toDecimal.2.size = cs.maxVariable ∧
    (∀ n, 1 ≤ n → n ≤ cs.maxVariable → cs.toDecimal.2.name? n = some (ToString.toString n)) ∧
    (∀ k l : Literal Nat, k.toDecimal.atom = l.toDecimal.atom → k.atom = l.atom) ∧
    ∀ v : Valuation Nat,
      cs.HoldsIn v ↔ cs.toDecimal.1.HoldsIn (cs.toDecimal.2.decodeValuation v) := by
  have hdecode := decode?_toDecimal hpos
  refine ⟨AtomTable.encode_of_decode? hdecode, hdecode, AtomTable.size_decimal cs.maxVariable,
    fun n hn hmax => AtomTable.name?_decimal hn hmax, fun k l h => injective_toString h,
    fun v => ?_⟩
  exact (holdsIn_decodeValuation hdecode).symm

theorem toDecimal_reversed_by_table_on_gaps :
    (∀ c ∈ [[⟨10, false⟩, ⟨2, true⟩], [], [(⟨2, false⟩ : Literal Nat)]], ∀ l ∈ c, 1 ≤ l.atom) ∧
      (AtomTable.decimal 10).encode [[⟨"10", false⟩, ⟨"2", true⟩], [], [⟨"2", false⟩]] =
        ([[⟨10, false⟩, ⟨2, true⟩], [], [⟨2, false⟩]], .decimal 10) := by
  have hpos : ∀ c ∈ [[⟨10, false⟩, ⟨2, true⟩], [], [(⟨2, false⟩ : Literal Nat)]],
      ∀ l ∈ c, 1 ≤ l.atom := by decide
  exact ⟨hpos, (toDecimal_reversed_by_table _ hpos).1⟩

end ClauseSet

end PropSat
