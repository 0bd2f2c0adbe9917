import PropSat.Dpll.UnitPropagation
import PropSat.Proofs.Assignment

/-!
# What unit propagation keeps

Assuming a literal loses no assignment that makes it true, and a valuation that solves the clauses
left over also solves the clauses before. Both facts pass through propagation, pass by pass, as long
as no remaining clause mentions an atom that has a value.
-/

namespace PropSat

variable {α : Type} [Atom α]

namespace ClauseSet

theorem trueUnder_assume {σ : Assignment α} {l : Literal α} {cs : ClauseSet α}
    (hl : l.TrueUnder σ) (h : cs.TrueUnder σ) : (cs.assume l).TrueUnder σ := by
  intro c hc
  obtain ⟨d, hd, -, rfl⟩ := mem_assume.mp hc
  obtain ⟨k, hk, hσ⟩ := h d hd
  have hne : k ≠ l.negate := by
    intro he
    rw [he] at hσ
    exact Literal.not_trueUnder_negate hl hσ
  exact ⟨k, List.mem_filter.mpr ⟨hk, by simpa using hne⟩, hσ⟩

theorem holdsIn_of_assume {v : Valuation α} {l : Literal α} {cs : ClauseSet α}
    (hl : l.HoldsIn v) (h : (cs.assume l).HoldsIn v) : cs.HoldsIn v := by
  intro c hc
  by_cases hlc : l ∈ c
  · exact ⟨l, hlc, hl⟩
  · obtain ⟨k, hk, hv⟩ := h _ (mem_assume.mpr ⟨c, hc, hlc, rfl⟩)
    exact ⟨k, (List.mem_filter.mp hk).1, hv⟩

theorem mem_atoms_of_mem_atoms_append_unit {cs : ClauseSet α} {l : Literal α} {a : α}
    (hl : l.atom ∈ cs.atoms) (h : a ∈ ClauseSet.atoms (cs ++ [[l]])) : a ∈ cs.atoms := by
  obtain ⟨c, hc, k, hk, rfl⟩ := mem_atoms.mp h
  rcases List.mem_append.mp hc with hc | hc
  · exact mem_atoms.mpr ⟨c, hc, k, hk, rfl⟩
  · rw [List.mem_singleton.mp hc] at hk
    rw [List.mem_singleton.mp hk]
    exact hl

end ClauseSet

namespace Residual

theorem propagate_of_unit?_eq_none {r : Residual α} (h : r.clauses.unit? = none) :
    r.propagate = r := by
  rw [propagate]
  split
  · rfl
  · next hu =>
      rw [h] at hu
      contradiction

theorem propagate_of_unit?_eq_some {r : Residual α} {l : Literal α}
    (h : r.clauses.unit? = some l) : r.propagate = (r.assume l).propagate := by
  rw [propagate]
  split
  · next hu =>
      rw [h] at hu
      contradiction
  · next k hu =>
      rw [h] at hu
      cases hu
      rfl

/-- No remaining clause mentions an atom that has a value. -/
def Fresh (r : Residual α) : Prop := ∀ a ∈ r.clauses.atoms, a ∉ r.valuation

/-- The valuation extends the one made so far by atoms of the remaining clauses, and makes them
true. -/
structure SolvedBy (r : Residual α) (v : Valuation α) : Prop where
  keeps : v.Extends r.valuation
  holds : r.clauses.HoldsIn v
  atoms : ∀ a ∈ v, a ∈ r.valuation ∨ a ∈ r.clauses.atoms

theorem Fresh.assume {r : Residual α} (h : r.Fresh) (l : Literal α) : (r.assume l).Fresh := by
  intro a ha
  obtain ⟨hr, hne⟩ := ClauseSet.mem_atoms_of_mem_atoms_assume ha
  have hv : a ∉ r.valuation := h a hr
  simpa [Residual.assume, Valuation.assign, Ne.symm hne] using hv

theorem Fresh.propagate {r : Residual α} (h : r.Fresh) : r.propagate.Fresh := by
  fun_induction Residual.propagate r with
  | case1 r hu => exact h
  | case2 r l hu ih => exact ih (h.assume l)

theorem Fresh.append_unit {r : Residual α} (h : r.Fresh) {l : Literal α}
    (hl : l.atom ∈ r.clauses.atoms) : Fresh { r with clauses := r.clauses ++ [[l]] } :=
  fun a ha => h a (ClauseSet.mem_atoms_of_mem_atoms_append_unit hl ha)

theorem Fresh.branch {r : Residual α} (h : r.Fresh) {l : Literal α}
    (hl : l.atom ∈ r.clauses.atoms) : (r.branch l).Fresh :=
  (h.append_unit hl).propagate

theorem trueUnder_propagate {σ : Assignment α} {r : Residual α} (h : r.clauses.TrueUnder σ) :
    r.propagate.clauses.TrueUnder σ := by
  fun_induction Residual.propagate r with
  | case1 r hu => exact h
  | case2 r l hu ih =>
      obtain ⟨k, hk, hσ⟩ := h [l] (ClauseSet.mem_of_unit? hu)
      rw [List.mem_singleton.mp hk] at hσ
      exact ih (ClauseSet.trueUnder_assume hσ h)

theorem trueUnder_branch {σ : Assignment α} {r : Residual α} {l : Literal α}
    (hl : l.TrueUnder σ) (h : r.clauses.TrueUnder σ) : (r.branch l).clauses.TrueUnder σ := by
  apply trueUnder_propagate
  intro c hc
  rcases List.mem_append.mp hc with hc | hc
  · exact h c hc
  · rw [List.mem_singleton.mp hc]
    exact ⟨l, List.mem_singleton_self l, hl⟩

theorem SolvedBy.of_assume {r : Residual α} {v : Valuation α} {l : Literal α} (hf : r.Fresh)
    (hl : [l] ∈ r.clauses) (h : (r.assume l).SolvedBy v) : r.SolvedBy v := by
  have hatom : l.atom ∈ r.clauses.atoms :=
    ClauseSet.mem_atoms.mpr ⟨[l], hl, l, List.mem_singleton_self l, rfl⟩
  have hlv : l.HoldsIn v := h.keeps l.atom l.sign (Valuation.getElem?_assign_self r.valuation l)
  refine ⟨fun a b hb => ?_, ClauseSet.holdsIn_of_assume hlv h.holds, fun a ha => ?_⟩
  · have hne : l.atom ≠ a := by
      intro he
      exact hf _ hatom (he ▸ Valuation.mem_of_getElem?_eq_some hb)
    apply h.keeps a b
    show (r.valuation.assign l)[a]? = some b
    rw [Valuation.getElem?_assign, if_neg hne, hb]
  · rcases h.atoms a ha with hr | hr
    · rcases Std.ExtTreeMap.mem_insert.mp hr with he | hr
      · rw [← Std.LawfulEqOrd.eq_of_compare he]
        exact .inr hatom
      · exact .inl hr
    · exact .inr (ClauseSet.mem_atoms_of_mem_atoms_assume hr).1

theorem SolvedBy.of_propagate {r : Residual α} {v : Valuation α} (hf : r.Fresh)
    (h : r.propagate.SolvedBy v) : r.SolvedBy v := by
  fun_induction Residual.propagate r with
  | case1 r hu => exact h
  | case2 r l hu ih => exact .of_assume hf (ClauseSet.mem_of_unit? hu) (ih (hf.assume l) h)

theorem SolvedBy.of_branch {r : Residual α} {v : Valuation α} {l : Literal α} (hf : r.Fresh)
    (hl : l.atom ∈ r.clauses.atoms) (h : (r.branch l).SolvedBy v) : r.SolvedBy v := by
  have hu := SolvedBy.of_propagate (hf.append_unit hl) h
  refine ⟨hu.keeps, fun c hc => hu.holds c (List.mem_append_left _ hc), fun a ha => ?_⟩
  exact (hu.atoms a ha).imp_right (ClauseSet.mem_atoms_of_mem_atoms_append_unit hl)

end Residual

end PropSat
