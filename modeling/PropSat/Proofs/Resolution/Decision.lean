import PropSat.Proofs.Resolution.Model

/-!
# Resolution decides satisfiability

Unless the empty clause comes up, the clauses are saturated and their canonical model is returned.
It is the least of their models, atoms in ascending order and false before true.
-/

namespace PropSat.Resolution

variable {α : Type} [Atom α]

/-- The clauses as distinct sets of literals. -/
def start (cs : ClauseSet α) : List (LiteralSet α) := (cs.map Clause.toSet).eraseDups

theorem satisfy_eq_ite (cs : ClauseSet α) :
    satisfy cs = if ∅ ∈ start cs then none
      else (LiteralSet.saturate? (start cs)).map LiteralSet.canonicalModel := rfl

theorem mem_start {cs : ClauseSet α} {c : LiteralSet α} : c ∈ start cs ↔ ∃ d ∈ cs, d.toSet = c := by
  rw [start, List.mem_eraseDups, List.mem_map]

theorem trueUnder_start {σ : Assignment α} {cs : ClauseSet α} :
    (∀ c ∈ start cs, c.TrueUnder σ) ↔ cs.TrueUnder σ := by
  simp [mem_start, LiteralSet.TrueUnder, ClauseSet.TrueUnder, Clause.TrueUnder]

theorem mem_literals_start {cs : ClauseSet α} {l : Literal α} :
    l ∈ LiteralSet.literals (start cs) ↔ ∃ c ∈ cs, l ∈ c := by
  rw [LiteralSet.mem_literals]
  constructor
  · intro hex
    rcases hex with ⟨d, hd, hl⟩
    obtain ⟨c, hc, rfl⟩ := mem_start.mp hd
    exact ⟨c, hc, Clause.mem_toSet.mp hl⟩
  · intro hex
    rcases hex with ⟨c, hc, hl⟩
    exact ⟨c.toSet, mem_start.mpr ⟨c, hc, rfl⟩, Clause.mem_toSet.mpr hl⟩

/-- A result is the canonical model of a saturation of the clauses without the empty one. -/
theorem exists_of_satisfy {cs : ClauseSet α} {v : Valuation α} (h : satisfy cs = some v) :
    ∃ sat, LiteralSet.Saturates sat (start cs) ∧ ∅ ∉ sat ∧ LiteralSet.canonicalModel sat = v := by
  rw [satisfy_eq_ite] at h
  split at h
  · contradiction
  · next he =>
      obtain ⟨sat, hsat, hv⟩ := Option.map_eq_some_iff.mp h
      have hs := LiteralSet.saturates_of_saturate? hsat
      exact ⟨sat, hs, hs.nonempty he, hv⟩

theorem exists_satisfy_eq_some {cs : ClauseSet α} {σ : Assignment α} (hσ : cs.TrueUnder σ) :
    ∃ v, satisfy cs = some v := by
  have hstart := trueUnder_start.mpr hσ
  have he : ∅ ∉ start cs := fun he => LiteralSet.not_trueUnder_empty (hstart ∅ he)
  obtain ⟨sat, hsat⟩ := LiteralSet.exists_saturate?_eq_some hstart
  refine ⟨LiteralSet.canonicalModel sat, ?_⟩
  rw [satisfy_eq_ite, if_neg he, hsat, Option.map_some]

theorem holdsIn_of_satisfy {cs : ClauseSet α} {v : Valuation α} (h : satisfy cs = some v) :
    cs.HoldsIn v := by
  obtain ⟨sat, hs, he, rfl⟩ := exists_of_satisfy h
  intro c hc
  have hmem : c.toSet ∈ sat := hs.base _ (mem_start.mpr ⟨c, hc, rfl⟩)
  obtain ⟨l, hl, hv⟩ := LiteralSet.holdsIn_canonicalModel hs.closed he c.toSet hmem
  exact ⟨l, Clause.mem_toSet.mp hl, hv⟩

theorem mem_iff_of_satisfy {cs : ClauseSet α} {v : Valuation α} (h : satisfy cs = some v) {a : α} :
    a ∈ v ↔ a ∈ cs.atoms := by
  obtain ⟨sat, hs, -, rfl⟩ := exists_of_satisfy h
  rw [LiteralSet.mem_canonicalModel, LiteralSet.mem_atoms, hs.literals_eq, ClauseSet.mem_atoms]
  constructor
  · intro hex
    rcases hex with ⟨l, hl, ha⟩
    obtain ⟨c, hc, hlc⟩ := mem_literals_start.mp hl
    exact ⟨c, hc, l, hlc, ha⟩
  · intro hex
    rcases hex with ⟨c, hc, l, hl, ha⟩
    exact ⟨l, mem_literals_start.mpr ⟨c, hc, hl⟩, ha⟩

theorem satisfy_eq_none_iff {cs : ClauseSet α} : satisfy cs = none ↔ ¬ cs.Satisfiable :=
  ClauseSet.eq_none_iff (fun _ => holdsIn_of_satisfy) fun _ => exists_satisfy_eq_some

theorem eq_or_lexLT_of_satisfy {cs : ClauseSet α} {v w : Valuation α} (h : satisfy cs = some v)
    (hdom : ∀ a, a ∈ w ↔ a ∈ cs.atoms) (hw : cs.HoldsIn w) : w = v ∨ v.LexLT w := by
  have hv : ∀ a, a ∈ v ↔ a ∈ cs.atoms := fun a => mem_iff_of_satisfy h
  obtain ⟨sat, hs, -, rfl⟩ := exists_of_satisfy h
  have hmem : ∀ a, a ∈ (LiteralSet.atoms sat).toList ↔ a ∈ w := by
    intro a
    rw [Std.ExtTreeSet.mem_toList, ← LiteralSet.mem_canonicalModel, hv, hdom]
  have hsat : ∀ c ∈ sat, c.TrueUnder w.toAssignment :=
    hs.entailed _ (trueUnder_start.mpr (hw.trueUnder w.completes_toAssignment))
  have hout : ∀ a, a ∉ w → (LiteralSet.canonicalModel sat)[a]? = w[a]? := by
    intro a ha
    have hav : a ∉ LiteralSet.canonicalModel sat := by rwa [hv, ← hdom]
    rw [Std.ExtTreeMap.getElem?_eq_none ha, Std.ExtTreeMap.getElem?_eq_none hav]
  have hin : ∀ a, ((LiteralSet.canonicalModel sat)[a]? = some (w.toAssignment a)) → a ∈ w →
      (LiteralSet.canonicalModel sat)[a]? = w[a]? := by
    intro a hva ha
    rw [hva, Valuation.getElem?_eq_toAssignment ha]
  rcases LiteralSet.below_canonicalModel hsat with hagree | ⟨a, ha, hva, hwa, hbelow⟩
  · refine .inl (Std.ExtTreeMap.ext_getElem? fun a => ?_)
    by_cases ha : a ∈ w
    · exact (hin a (hagree a ((hmem a).mpr ha)) ha).symm
    · exact (hout a ha).symm
  · refine .inr ⟨a, hva, ?_, fun b hlt => ?_⟩
    · rw [Valuation.getElem?_eq_toAssignment ((hmem a).mp ha), hwa]
    · by_cases hb : b ∈ w
      · exact hin b (hbelow b ((hmem b).mpr hb) hlt) hb
      · exact hout b hb

/-- Resolution fails exactly when no assignment makes every clause true. Otherwise it returns the
model over exactly the atoms of the clauses that comes first lexicographically. -/
theorem satisfy_least_model (cs : ClauseSet α) :
    (satisfy cs = none ↔ ∀ σ : Assignment α, ¬ cs.TrueUnder σ) ∧
      ∀ v, satisfy cs = some v →
        (∀ a, a ∈ v ↔ a ∈ cs.atoms) ∧ (∀ c ∈ cs, ∃ l ∈ c, v[l.atom]? = some l.sign) ∧
          ∀ w : Valuation α, (∀ a, a ∈ w ↔ a ∈ cs.atoms) →
            (∀ c ∈ cs, ∃ l ∈ c, w[l.atom]? = some l.sign) → w = v ∨ v.LexLT w := by
  refine ⟨satisfy_eq_none_iff.trans not_exists, fun v h => ⟨?_, ?_, ?_⟩⟩
  · intro a
    exact mem_iff_of_satisfy h
  · exact holdsIn_of_satisfy h
  · intro w hdom hw
    exact eq_or_lexLT_of_satisfy h hdom hw

end PropSat.Resolution
