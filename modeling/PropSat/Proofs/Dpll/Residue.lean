import PropSat.Proofs.Dpll.Calls

/-!
# What a call of the search works on

The search changes its clauses pass by pass and appends a unit clause for every literal it assumes.
None of that has to be remembered. After propagation the clauses of a call are the given clauses as
its valuation leaves them, so the valuation alone says what they are.
-/

namespace PropSat

variable {α : Type} [Atom α]

namespace ClauseSet

/-- What a valuation leaves of the clauses: those that it makes true are gone, and the literals that
it makes false are gone from the rest. -/
def residue (v : Valuation α) (cs : ClauseSet α) : ClauseSet α :=
  (cs.filter fun c => ¬ c.HoldsIn v).map fun c => c.filter fun l => ¬ l.negate.HoldsIn v

theorem residue_empty (cs : ClauseSet α) : cs.residue ∅ = cs := by
  have hnone : ∀ l : Literal α, ¬ l.HoldsIn ∅ := by
    intro l
    simp [Literal.HoldsIn]
  have hclause : ∀ c : Clause α, ¬ c.HoldsIn ∅ := by
    intro c hex
    obtain ⟨l, -, hl⟩ := hex
    exact hnone l hl
  unfold residue
  rw [List.filter_eq_self.mpr fun c _ => decide_eq_true (hclause c)]
  refine List.map_id'' (fun c => ?_) cs
  exact List.filter_eq_self.mpr fun l _ => decide_eq_true (hnone l.negate)

/-- To assume a literal in what a valuation leaves is to make it true in the valuation. -/
theorem assume_residue {v : Valuation α} {l : Literal α} (hl : l.atom ∉ v) (cs : ClauseSet α) :
    (cs.residue v).assume l = cs.residue (v.assign l) := by
  have hnegate : ¬ l.negate.HoldsIn v := fun h => hl h.mem
  have hgone : ∀ c : Clause α,
      (l ∉ c.filter fun k => ¬ k.negate.HoldsIn v) ∧ ¬ c.HoldsIn v ↔ ¬ c.HoldsIn (v.assign l) := by
    intro c
    have hmem : (l ∈ c.filter fun k => ¬ k.negate.HoldsIn v) ↔ l ∈ c := by
      rw [List.mem_filter, decide_eq_true hnegate, and_iff_left rfl]
    rw [hmem, ← not_or, not_iff_not, Clause.HoldsIn, Clause.HoldsIn]
    simp only [Literal.holdsIn_assign_iff hnegate, and_or_left, exists_or, exists_eq_right]
  have hkept : ∀ c : Clause α, ((c.filter fun k => ¬ k.negate.HoldsIn v).filter (· ≠ l.negate)) =
      c.filter fun k => ¬ k.negate.HoldsIn (v.assign l) := by
    intro c
    rw [List.filter_filter]
    refine List.filter_congr fun k _ => ?_
    rw [← Bool.decide_and, decide_eq_decide, Literal.holdsIn_assign_iff hnegate,
      Literal.negate_eq_iff_eq_negate, not_or]
  unfold assume residue
  rw [List.filter_map, List.map_map, List.filter_filter]
  refine congr (congrArg List.map (funext hkept)) (List.filter_congr fun c _ => ?_)
  rw [Function.comp_apply, ← Bool.decide_and, decide_eq_decide]
  exact hgone c

theorem notMem_of_mem_atoms_residue {v : Valuation α} {cs : ClauseSet α} {a : α}
    (h : a ∈ (cs.residue v).atoms) : a ∉ v := by
  obtain ⟨c, hc, l, hl, rfl⟩ := mem_atoms.mp h
  obtain ⟨d, hd, rfl⟩ := List.mem_map.mp hc
  obtain ⟨hld, hfalse⟩ := List.mem_filter.mp hl
  intro hv
  rcases Literal.holdsIn_or_negate hv with htrue | hnegate
  · exact of_decide_eq_true (List.mem_filter.mp hd).2 ⟨l, hld, htrue⟩
  · exact of_decide_eq_true hfalse hnegate

end ClauseSet

namespace Residual

/-- The clauses still to be satisfied are what the valuation leaves of the given ones. -/
def Tracks (cs : ClauseSet α) (r : Residual α) : Prop := r.clauses = cs.residue r.valuation

variable {cs : ClauseSet α} {r : Residual α}

theorem tracks_start (cs : ClauseSet α) : Tracks cs ⟨cs, ∅⟩ := cs.residue_empty.symm

theorem Tracks.fresh (h : r.Tracks cs) : r.Fresh := by
  intro a ha
  rw [h] at ha
  exact ClauseSet.notMem_of_mem_atoms_residue ha

theorem Tracks.assume (h : r.Tracks cs) {l : Literal α} (hl : l.atom ∈ r.clauses.atoms) :
    (r.assume l).Tracks cs := by
  have hv : l.atom ∉ r.valuation := h.fresh l.atom hl
  have hclauses : (r.clauses.assume l) = cs.residue (r.valuation.assign l) := by
    rw [h, ClauseSet.assume_residue hv]
  exact hclauses

theorem Tracks.propagate (h : r.Tracks cs) : r.propagate.Tracks cs := by
  fun_induction Residual.propagate r with
  | case1 r hu => exact h
  | case2 r l hu ih =>
      have hunit : [l] ∈ r.clauses := ClauseSet.mem_of_unit? hu
      exact ih (h.assume (ClauseSet.mem_atoms.mpr ⟨[l], hunit, l, List.mem_cons_self, rfl⟩))

end Residual

namespace Dpll

variable {s : Strategy α} {r t : Residual α}

theorem Call.tracks (hc : Call s r t) {cs : ClauseSet α} (h : r.propagate.Tracks cs) :
    t.propagate.Tracks cs := by
  obtain ⟨l, hl, rfl⟩ := hc.exists_literal
  rw [Residual.propagate_withUnit, Residual.branch_propagate]
  exact (h.assume hl).propagate

theorem tracks_of_calls {cs : ClauseSet α}
    (h : Relation.ReflTransGen (Call s) ⟨cs.distinct, ∅⟩ r) : r.propagate.Tracks cs.distinct := by
  induction h with
  | refl => exact (Residual.tracks_start cs.distinct).propagate
  | tail _ hlast ih => exact hlast.tracks ih

/-- The valuation that the search returns leaves nothing of the given clauses. -/
theorem residue_of_satisfy {cs : ClauseSet α} {v : Valuation α} (h : satisfy s cs = some v) :
    cs.distinct.residue v = [] := by
  obtain ⟨t, hreach, hnone, rfl⟩ := search_propagate_eq_some_iff_reaches.mp h
  rw [← tracks_of_calls hreach]
  exact List.isEmpty_iff.mp hnone

/-- In every call that the search makes, whatever literals the strategy picks, propagation leaves the
given clauses, each without repetitions and all in order, apart from those that the valuation makes
true and apart from the literals that it makes false. No atom of the valuation is left. -/
theorem calls_track_valuation (s : Strategy α) (cs : ClauseSet α) {r : Residual α}
    (h : Relation.ReflTransGen (Call s) ⟨cs.distinct, ∅⟩ r) :
    r.propagate.clauses = cs.distinct.residue r.propagate.valuation ∧
      ∀ a ∈ r.propagate.valuation, a ∉ r.propagate.clauses.atoms := by
  have htracks := tracks_of_calls h
  exact ⟨htracks, fun a hv ha => htracks.fresh a ha hv⟩

/-- Once 1 has failed, its complement and then 2 are true. Only the clause of 3 is left. -/
theorem calls_track_valuation_on_failed_literal :
    ∃ r : Residual Nat,
      Relation.ReflTransGen (Call Branching.firstLiteral.strategy)
        ⟨ClauseSet.distinct [[⟨1, true⟩, ⟨1, true⟩, ⟨2, true⟩], [⟨1, false⟩, ⟨2, true⟩],
          [⟨3, true⟩, ⟨3, false⟩], [⟨1, false⟩, ⟨2, false⟩]], ∅⟩ r ∧
      r.propagate.clauses = [[⟨3, true⟩, ⟨3, false⟩]] ∧
      r.propagate.clauses = ClauseSet.residue r.propagate.valuation
        (ClauseSet.distinct [[⟨1, true⟩, ⟨1, true⟩, ⟨2, true⟩], [⟨1, false⟩, ⟨2, true⟩],
          [⟨3, true⟩, ⟨3, false⟩], [⟨1, false⟩, ⟨2, false⟩]]) ∧
      ∀ a ∈ r.propagate.valuation, a ∉ r.propagate.clauses.atoms := by
  obtain ⟨r, hcall, hleft⟩ : ∃ r : Residual Nat, Call Branching.firstLiteral.strategy
      ⟨ClauseSet.distinct [[⟨1, true⟩, ⟨1, true⟩, ⟨2, true⟩], [⟨1, false⟩, ⟨2, true⟩],
        [⟨3, true⟩, ⟨3, false⟩], [⟨1, false⟩, ⟨2, false⟩]], ∅⟩ r ∧
      r.propagate.clauses = [[⟨3, true⟩, ⟨3, false⟩]] :=
    ⟨_, .refute (l := ⟨1, true⟩) (by decide +kernel) (by decide +kernel) (by decide +kernel)
      (by decide +kernel), by decide +kernel⟩
  exact ⟨r, .single hcall, hleft, calls_track_valuation _ _ (.single hcall)⟩

end Dpll

end PropSat
