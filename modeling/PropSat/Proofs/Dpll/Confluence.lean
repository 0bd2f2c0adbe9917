import PropSat.Proofs.Dpll.Restriction
import Mathlib.Data.List.Perm.Basic

/-!
# Propagation does not depend on the order of the clauses

The order decides which unit clause comes first, and with it the clauses on the way. But a
consistent set that leaves at least two literals in each clause it does not make true holds every
literal that can be forced. So two propagations that end without an empty clause have forced the
same literals, and one that ends with an empty clause does so in any order.
-/

namespace PropSat

variable {α : Type} [Atom α]

theorem LiteralSet.insert_eq_self {ls : LiteralSet α} {l : Literal α} (hl : l ∈ ls) :
    ls.insert l = ls := by
  ext k
  rw [mem_insert_iff]
  exact or_iff_right_of_imp fun hk => hk ▸ hl

theorem Valuation.Overwrites.unique {w w' v : Valuation α} {ls : LiteralSet α}
    (h : w.Overwrites v ls) (h' : w'.Overwrites v ls) : w = w' := by
  apply Std.ExtTreeMap.ext_getElem?
  intro a
  by_cases hex : ∃ l ∈ ls, l.atom = a
  · obtain ⟨l, hl, rfl⟩ := hex
    exact (h.holds l hl).trans (h'.holds l hl).symm
  · have ha : ∀ l ∈ ls, l.atom ≠ a := fun l hl he => hex ⟨l, hl, he⟩
    exact (h.keeps a ha).trans (h'.keeps a ha).symm

namespace ClauseSet

/-- The clauses are the same up to their order and the order of the literals inside them. -/
def Reordered (cs ds : ClauseSet α) : Prop := ∃ es, cs.Perm es ∧ List.Forall₂ List.Perm es ds

omit [Atom α] in
theorem Reordered.symm {cs ds : ClauseSet α} (h : cs.Reordered ds) : ds.Reordered cs := by
  obtain ⟨es, hperm, hinside⟩ := h
  have hback : List.Forall₂ List.Perm ds es :=
    (hinside.imp fun _ _ hp => hp.symm : List.Forall₂ (flip List.Perm) es ds).flip
  have hcomp : Relation.Comp (List.Forall₂ List.Perm) List.Perm ds cs := ⟨es, hback, hperm.symm⟩
  rwa [List.forall₂_comp_perm_eq_perm_comp_forall₂] at hcomp

theorem Reordered.restrict {cs ds : ClauseSet α} (h : cs.Reordered ds) (ls : LiteralSet α) :
    (cs.restrict ls).Reordered (ds.restrict ls) := by
  obtain ⟨es, hperm, hinside⟩ := h
  refine ⟨ClauseSet.restrict ls es, (hperm.filter _).map _, ?_⟩
  have htrue : ∀ c d : Clause α, c.Perm d → ((∀ l ∈ c, l ∉ ls) ↔ ∀ l ∈ d, l ∉ ls) := by
    intro c d hp
    simp only [hp.mem_iff]
  have hleft : List.Forall₂ List.Perm (es.filter fun c => ∀ l ∈ c, l ∉ ls)
      (ds.filter fun c => ∀ l ∈ c, l ∉ ls) :=
    List.rel_filter (fun c d hp => by simpa using htrue c d hp) hinside
  exact List.rel_map (fun c d hp => hp.filter _) hleft

/-- Every clause has at least two literals. -/
def Settled (cs : ClauseSet α) : Prop := ∀ c ∈ cs, 2 ≤ c.length

omit [Atom α] in
theorem Settled.of_forall₂_perm {cs ds : ClauseSet α} (h : List.Forall₂ List.Perm cs ds)
    (hcs : cs.Settled) : ds.Settled := by
  induction h with
  | nil => exact hcs
  | cons hp _ ih =>
      obtain ⟨hc, hrest⟩ := List.forall_mem_cons.mp hcs
      exact List.forall_mem_cons.mpr ⟨hp.length_eq ▸ hc, ih hrest⟩

omit [Atom α] in
theorem Reordered.settled {cs ds : ClauseSet α} (h : cs.Reordered ds) (hcs : cs.Settled) :
    ds.Settled := by
  obtain ⟨es, hperm, hinside⟩ := h
  exact .of_forall₂_perm hinside fun e he => hcs e (hperm.mem_iff.mpr he)

/-- A set that settles the clauses holds all literals that can be forced. -/
theorem Forces.subset_of_settled {cs : ClauseSet α} {ls ks : LiteralSet α} (h : cs.Forces ls)
    (hks : ks.Consistent) (hsettled : (cs.restrict ks).Settled) : ∀ l ∈ ls, l ∈ ks := by
  induction h with
  | nothing => exact fun l hl => absurd hl Std.ExtTreeSet.not_mem_empty
  | @unit cs l ls hl h ih =>
      have hmem : l ∈ ks := by
        refine Decidable.byContradiction fun hn => ?_
        have hlong := hsettled _ (mem_restrict.mpr ⟨[l], hl, by simpa using hn, rfl⟩)
        have hshort := List.length_filter_le (fun k => decide (k.negate ∉ ks)) [l]
        rw [List.length_singleton] at hshort
        omega
      have hassume : (cs.assume l).restrict ks = cs.restrict ks := by
        rw [restrict_assume (hks.negate_notMem hmem), LiteralSet.insert_eq_self hmem]
      rw [← hassume] at hsettled
      intro k hk
      rcases LiteralSet.mem_insert_iff.mp hk with hkl | hks
      · rw [hkl]
        exact hmem
      · exact ih hsettled k hks

/-- A clause that a set makes false stays false under a greater one. -/
theorem nil_mem_restrict_of_subset {cs : ClauseSet α} {ls ks : LiteralSet α}
    (hks : ks.Consistent) (hsub : ∀ l ∈ ls, l ∈ ks) (h : [] ∈ cs.restrict ls) :
    [] ∈ cs.restrict ks := by
  obtain ⟨c, hc, -, hnil⟩ := mem_restrict.mp h
  have hfalse : ∀ l ∈ c, l.negate ∈ ks := by
    intro l hl
    exact hsub l.negate (by simpa using List.filter_eq_nil_iff.mp hnil l hl)
  refine mem_restrict.mpr ⟨c, hc, fun l hl => ?_, List.filter_eq_nil_iff.mpr fun l hl => ?_⟩
  · simpa using hks.negate_notMem (hfalse l hl)
  · simpa using hfalse l hl

end ClauseSet

namespace Residual

theorem settled_propagate {r : Residual α} (h : [] ∉ r.propagate.clauses) :
    r.propagate.clauses.Settled := by
  intro c hc
  have hpos : c.length ≠ 0 := fun h0 => h (List.length_eq_zero_iff.mp h0 ▸ hc)
  have hone := length_ne_one_of_mem_propagate hc
  omega

/-- Without a conflict, propagation forces all that it forces in another order. -/
theorem ReducesTo.subset_of_reordered {r s : Residual α} {ls ks : LiteralSet α}
    (hr : r.ReducesTo r.propagate ls) (hs : s.ReducesTo s.propagate ks)
    (hrs : r.clauses.Reordered s.clauses) (hnil : [] ∉ r.propagate.clauses) :
    (∀ k ∈ ks, k ∈ ls) ∧ [] ∉ s.propagate.clauses := by
  have hleft : (s.clauses.restrict ls).Settled := by
    apply (hrs.restrict ls).settled
    rw [← hr.clauses_eq]
    exact settled_propagate hnil
  have hsub : ∀ k ∈ ks, k ∈ ls := hs.forces.subset_of_settled hr.forces.consistent hleft
  refine ⟨hsub, fun hmem => ?_⟩
  rw [hs.clauses_eq] at hmem
  have hlong := hleft [] (ClauseSet.nil_mem_restrict_of_subset hr.forces.consistent hsub hmem)
  contradiction

/-- Reordered clauses both propagate to an empty clause, or neither does. In the second case the
valuations are the same and the clauses left over are again reordered. -/
theorem propagate_confluent {cs ds : ClauseSet α} (h : cs.Reordered ds) (v : Valuation α) :
    ([] ∈ (propagate ⟨cs, v⟩).clauses ↔ [] ∈ (propagate ⟨ds, v⟩).clauses) ∧
      ([] ∉ (propagate ⟨cs, v⟩).clauses →
        (propagate ⟨cs, v⟩).valuation = (propagate ⟨ds, v⟩).valuation ∧
          (propagate ⟨cs, v⟩).clauses.Reordered (propagate ⟨ds, v⟩).clauses) := by
  obtain ⟨ls, hr⟩ := exists_reducesTo_propagate ⟨cs, v⟩
  obtain ⟨ks, hs⟩ := exists_reducesTo_propagate ⟨ds, v⟩
  refine ⟨not_iff_not.mp ⟨?_, ?_⟩, fun hnil => ?_⟩
  · intro hnil
    exact (hr.subset_of_reordered hs h hnil).2
  · intro hnil
    exact (hs.subset_of_reordered hr h.symm hnil).2
  · obtain ⟨hkl, hnil'⟩ := hr.subset_of_reordered hs h hnil
    have hlk := (hs.subset_of_reordered hr h.symm hnil').1
    have hset : ks = ls := Std.ExtTreeSet.ext_mem fun k => ⟨hkl k, hlk k⟩
    subst hset
    refine ⟨hr.overwrites.unique hs.overwrites, ?_⟩
    rw [hr.clauses_eq, hs.clauses_eq]
    exact h.restrict ks

/-- One order makes 1 true first, the other 2. -/
theorem propagate_confluent_on_reversed :
    ClauseSet.Reordered ([[⟨1, true⟩], [⟨2, true⟩], [⟨2, false⟩, ⟨3, true⟩, ⟨4, true⟩]] :
        ClauseSet Nat) [[⟨4, true⟩, ⟨3, true⟩, ⟨2, false⟩], [⟨2, true⟩], [⟨1, true⟩]] ∧
      (propagate (⟨[[⟨1, true⟩], [⟨2, true⟩], [⟨2, false⟩, ⟨3, true⟩, ⟨4, true⟩]], ∅⟩ :
        Residual Nat)).valuation =
        (propagate ⟨[[⟨4, true⟩, ⟨3, true⟩, ⟨2, false⟩], [⟨2, true⟩], [⟨1, true⟩]], ∅⟩).valuation ∧
      ClauseSet.Reordered (propagate (⟨[[⟨1, true⟩], [⟨2, true⟩],
        [⟨2, false⟩, ⟨3, true⟩, ⟨4, true⟩]], ∅⟩ : Residual Nat)).clauses
        (propagate ⟨[[⟨4, true⟩, ⟨3, true⟩, ⟨2, false⟩], [⟨2, true⟩], [⟨1, true⟩]], ∅⟩).clauses := by
  have hreordered : ClauseSet.Reordered
      ([[⟨1, true⟩], [⟨2, true⟩], [⟨2, false⟩, ⟨3, true⟩, ⟨4, true⟩]] : ClauseSet Nat)
      [[⟨4, true⟩, ⟨3, true⟩, ⟨2, false⟩], [⟨2, true⟩], [⟨1, true⟩]] :=
    ⟨_, (List.reverse_perm _).symm,
      .cons (by decide) (.cons (by decide) (.cons (by decide) .nil))⟩
  exact ⟨hreordered, (propagate_confluent hreordered ∅).2 (by decide +kernel)⟩

end Residual

end PropSat
