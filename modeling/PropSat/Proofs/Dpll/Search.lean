import PropSat.Dpll.Search
import PropSat.Proofs.Dpll.Branching
import PropSat.Proofs.Dpll.Propagation

/-!
# Search decides satisfiability

The branching strategies give up only when no literal is left, and the search asks for one only when
no clause is empty. It therefore fails on unsatisfiable clauses only, and what it returns makes a
literal of every clause true by itself.
-/

namespace PropSat

variable {α : Type} [Atom α]

omit [Atom α] in
theorem ClauseSet.not_trueUnder_of_hasEmpty {σ : Assignment α} {cs : ClauseSet α}
    (h : cs.hasEmpty) : ¬ cs.TrueUnder σ := by
  obtain ⟨c, hc, he⟩ := List.any_eq_true.mp h
  intro hσ
  obtain ⟨l, hl, -⟩ := hσ c hc
  rw [List.isEmpty_iff.mp he] at hl
  contradiction

namespace Dpll

theorem search_of_isEmpty {s : Strategy α} {r : Residual α} (h : r.clauses.isEmpty = true) :
    search s r = some r.valuation := by
  rw [search, if_pos h]

theorem search_of_hasEmpty {s : Strategy α} {r : Residual α} (hne : ¬ r.clauses.isEmpty = true)
    (h : r.clauses.hasEmpty = true) : search s r = none := by
  rw [search, if_neg hne, if_pos h]

theorem search_eq_bind {s : Strategy α} {r : Residual α} (hne : ¬ r.clauses.isEmpty = true)
    (h : ¬ r.clauses.hasEmpty = true) :
    search s r = (s.pick? r.clauses).bind fun l =>
      (search s (r.branch l)).or (search s (r.branch l.negate)) := by
  rw [search, if_neg hne, if_neg h]
  split
  · next hp => rw [hp, Option.bind_none]
  · next l hp => rw [hp, Option.bind_some, Option.orElse_eq_or]

theorem search_sound {s : Strategy α} {r : Residual α} {v : Valuation α} (hf : r.Fresh)
    (h : search s r = some v) : r.SolvedBy v := by
  fun_induction search s r with
  | case1 r he =>
      cases h
      rw [List.isEmpty_iff] at he
      exact ⟨.refl _, by simp [he, ClauseSet.HoldsIn], fun a ha => .inl ha⟩
  | case2 r he hc => contradiction
  | case3 r he hc hp => contradiction
  | case4 r he hc l hp ih₁ ih₂ =>
      obtain ⟨c, hcm, hl⟩ := s.mem_of_pick? hp
      have hatom : l.atom ∈ r.clauses.atoms := ClauseSet.mem_atoms.mpr ⟨c, hcm, l, hl, rfl⟩
      rw [Option.orElse_eq_or] at h
      rcases Option.or_eq_some_iff.mp h with h | ⟨-, h⟩
      · exact .of_branch hf hatom (ih₁ (hf.branch hatom) h)
      · have hneg : l.negate.atom ∈ r.clauses.atoms := hatom
        exact .of_branch hf hneg (ih₂ (hf.branch hneg) h)

theorem exists_search_eq_some {s : Strategy α} (hs : s.Persistent) {r : Residual α}
    {σ : Assignment α} (hσ : r.clauses.TrueUnder σ) : ∃ v, search s r = some v := by
  fun_induction search s r with
  | case1 r he => exact ⟨_, rfl⟩
  | case2 r he hc => exact absurd hσ (ClauseSet.not_trueUnder_of_hasEmpty hc)
  | case3 r he hc hp =>
      exfalso
      obtain ⟨c, hcm⟩ := List.exists_mem_of_ne_nil _ (by simpa using he)
      refine hc (List.any_eq_true.mpr ⟨c, hcm, ?_⟩)
      rw [hs r.clauses hp c hcm]
      rfl
  | case4 r he hc l hp ih₁ ih₂ =>
      rcases Literal.trueUnder_or_negate σ l with hl | hl
      · obtain ⟨v, hv⟩ := ih₁ (Residual.trueUnder_branch hl hσ)
        exact ⟨v, by simp [hv]⟩
      · obtain ⟨v, hv⟩ := ih₂ (Residual.trueUnder_branch hl hσ)
        cases hb : search s (r.branch l) with
        | none => exact ⟨v, by simp [hv]⟩
        | some w => exact ⟨w, by simp⟩

theorem solvedBy_of_satisfy {s : Strategy α} {cs : ClauseSet α} {v : Valuation α}
    (h : satisfy s cs = some v) : Residual.SolvedBy ⟨cs.distinct, ∅⟩ v := by
  have hf : Residual.Fresh (⟨cs.distinct, ∅⟩ : Residual α) :=
    fun a _ => Std.ExtTreeMap.not_mem_empty
  exact .of_propagate hf (search_sound hf.propagate h)

theorem holdsIn_of_satisfy {s : Strategy α} {cs : ClauseSet α} {v : Valuation α}
    (h : satisfy s cs = some v) : cs.HoldsIn v :=
  ClauseSet.holdsIn_distinct.mp (solvedBy_of_satisfy h).holds

theorem mem_atoms_of_satisfy {s : Strategy α} {cs : ClauseSet α} {v : Valuation α}
    (h : satisfy s cs = some v) {a : α} (ha : a ∈ v) : a ∈ cs.atoms := by
  rcases (solvedBy_of_satisfy h).atoms a ha with hr | hr
  · exact absurd hr Std.ExtTreeMap.not_mem_empty
  · exact ClauseSet.mem_atoms_distinct.mp hr

theorem exists_satisfy_eq_some (b : Branching) {cs : ClauseSet α} {σ : Assignment α}
    (hσ : cs.TrueUnder σ) : ∃ v, satisfy b.strategy cs = some v := by
  have hstart : (Residual.propagate ⟨cs.distinct, ∅⟩).clauses.TrueUnder σ :=
    Residual.trueUnder_propagate (ClauseSet.trueUnder_distinct.mpr hσ)
  exact exists_search_eq_some b.persistent_strategy hstart

theorem satisfy_eq_none_iff (b : Branching) {cs : ClauseSet α} :
    satisfy b.strategy cs = none ↔ ¬ cs.Satisfiable :=
  ClauseSet.eq_none_iff (fun _ => holdsIn_of_satisfy) fun _ => exists_satisfy_eq_some b

/-- The search fails exactly when no assignment makes every clause true. A valuation it returns
stays within the atoms of the clauses and makes a literal of each true, so all its completions are
models. -/
theorem satisfy_sound_and_complete (b : Branching) (cs : ClauseSet α) :
    (satisfy b.strategy cs = none ↔ ∀ σ : Assignment α, ¬ cs.TrueUnder σ) ∧
      ∀ v, satisfy b.strategy cs = some v →
        (∀ a ∈ v, a ∈ cs.atoms) ∧ (∀ c ∈ cs, ∃ l ∈ c, v[l.atom]? = some l.sign) ∧
          ∀ σ : Assignment α, σ.Completes v → cs.TrueUnder σ := by
  refine ⟨(satisfy_eq_none_iff b).trans not_exists, fun v h => ⟨?_, ?_, ?_⟩⟩
  · intro a ha
    exact mem_atoms_of_satisfy h ha
  · exact holdsIn_of_satisfy h
  · intro σ hσ
    exact (holdsIn_of_satisfy h).trueUnder hσ

end Dpll

end PropSat
