import PropSat.Proofs.Assignment
import PropSat.Resolution.Resolvent
import Mathlib.Logic.ExistsUnique

/-!
# Resolvents follow from their parents

Two clauses resolve on a literal exactly when it is their only clash. The resolvent does not depend
on which of them comes first, and it is true wherever both are. With a second clash nothing is lost:
of either pair, the other one is left.
-/

namespace PropSat.LiteralSet

variable {α : Type} [Atom α]

def TrueUnder (σ : Assignment α) (c : LiteralSet α) : Prop := ∃ l ∈ c, l.TrueUnder σ

/-- The literal is in the first clause, its complement in the second; no other literal clashes. -/
structure ClashOn (c d : LiteralSet α) (l : Literal α) : Prop where
  left : l ∈ c
  right : l.negate ∈ d
  only : ∀ k ∈ c, k.negate ∈ d → k = l

theorem ClashOn.symm {c d : LiteralSet α} {l : Literal α} (h : c.ClashOn d l) :
    d.ClashOn c l.negate := by
  refine ⟨h.right, by rw [Literal.negate_negate]; exact h.left, fun k hk hc => ?_⟩
  have hkl : k.negate = l := h.only k.negate hc (by rw [Literal.negate_negate]; exact hk)
  rw [← hkl, Literal.negate_negate]

theorem not_clashOn_self {c : LiteralSet α} {l : Literal α} : ¬ c.ClashOn c l := by
  intro h
  have hl : l.negate.negate ∈ c := by
    rw [Literal.negate_negate]
    exact h.left
  exact Literal.negate_ne l (h.only l.negate h.right hl)

theorem clashes_eq_singleton_iff {c d : LiteralSet α} {l : Literal α} :
    c.toList.filter (·.negate ∈ d) = [l] ↔ c.ClashOn d l := by
  have hmem : ∀ k, k ∈ c.toList.filter (·.negate ∈ d) ↔ k ∈ c ∧ k.negate ∈ d := by simp
  constructor
  · intro h
    rw [h] at hmem
    obtain ⟨hl, hr⟩ := (hmem l).mp (List.mem_singleton_self l)
    exact ⟨hl, hr, fun k hk hd => List.mem_singleton.mp ((hmem k).mpr ⟨hk, hd⟩)⟩
  · intro h
    have hnodup : (c.toList.filter (·.negate ∈ d)).Nodup := by
      refine (Std.ExtTreeSet.distinct_toList.filter _).imp fun hne he => hne ?_
      rw [he]
      exact Std.ReflCmp.compare_self
    refine List.perm_singleton.mp ((List.perm_ext_iff_of_nodup hnodup (by simp)).mpr fun k => ?_)
    rw [hmem, List.mem_singleton]
    constructor
    · intro hand
      rcases hand with ⟨hk, hd⟩
      exact h.only k hk hd
    · intro heq
      subst heq
      exact ⟨h.left, h.right⟩

theorem mem_erase_union_erase {c d : LiteralSet α} {l k : Literal α} :
    k ∈ c.erase l ∪ d.erase l.negate ↔ k ∈ c ∧ k ≠ l ∨ k ∈ d ∧ k ≠ l.negate := by
  have hcompare : ∀ j : Literal α, compare j k ≠ .eq ↔ k ≠ j := by
    intro j
    rw [ne_eq, Std.LawfulEqOrd.compare_eq_iff_eq, eq_comm]
  rw [Std.ExtTreeSet.mem_union_iff, Std.ExtTreeSet.mem_erase, Std.ExtTreeSet.mem_erase,
    hcompare, hcompare, and_comm (a := k ≠ l), and_comm (a := k ≠ l.negate)]

theorem resolve?_eq_some_iff {c d r : LiteralSet α} :
    c.resolve? d = some r ↔ ∃ l, c.ClashOn d l ∧ r = c.erase l ∪ d.erase l.negate := by
  constructor
  · intro h
    unfold resolve? at h
    split at h
    · next l hl =>
        cases h
        exact ⟨l, clashes_eq_singleton_iff.mp hl, rfl⟩
    · contradiction
  · intro hex
    rcases hex with ⟨l, h, rfl⟩
    unfold resolve?
    rw [clashes_eq_singleton_iff.mpr h]

theorem resolve?_comm (c d : LiteralSet α) : c.resolve? d = d.resolve? c := by
  have hswap : ∀ c d r : LiteralSet α, c.resolve? d = some r → d.resolve? c = some r := by
    intro c d r h
    obtain ⟨l, hl, rfl⟩ := resolve?_eq_some_iff.mp h
    refine resolve?_eq_some_iff.mpr ⟨l.negate, hl.symm, ?_⟩
    rw [Literal.negate_negate]
    ext k
    simp only [Std.ExtTreeSet.mem_union_iff]
    exact or_comm
  apply Option.ext
  intro r
  exact ⟨hswap c d r, hswap d c r⟩

theorem trueUnder_of_resolve? {σ : Assignment α} {c d r : LiteralSet α}
    (h : c.resolve? d = some r) (hc : c.TrueUnder σ) (hd : d.TrueUnder σ) : r.TrueUnder σ := by
  obtain ⟨l, -, rfl⟩ := resolve?_eq_some_iff.mp h
  obtain ⟨j, hj, hjσ⟩ := hc
  obtain ⟨k, hk, hkσ⟩ := hd
  by_cases hjl : j = l
  · refine ⟨k, mem_erase_union_erase.mpr (.inr ⟨hk, ?_⟩), hkσ⟩
    intro heq
    subst heq
    exact Literal.not_trueUnder_negate (hjl ▸ hjσ) hkσ
  · exact ⟨j, mem_erase_union_erase.mpr (.inl ⟨hj, hjl⟩), hjσ⟩

/-! ## Resolvents on any clash -/

/-- What a complementary pair leaves: the literal is taken out of the first clause, its complement
out of the second, and the rest of both is one clause. -/
def IsResolvent (c d r : LiteralSet α) : Prop :=
  ∃ l ∈ c, l.negate ∈ d ∧ ∀ k, k ∈ r ↔ k ∈ c ∧ k ≠ l ∨ k ∈ d ∧ k ≠ l.negate

theorem resolve?_eq_some_iff_isResolvent {c d r : LiteralSet α} :
    c.resolve? d = some r ↔ (∃! l, l ∈ c ∧ l.negate ∈ d) ∧ c.IsResolvent d r := by
  rw [resolve?_eq_some_iff]
  constructor
  · intro hex
    rcases hex with ⟨l, h, rfl⟩
    exact ⟨⟨l, ⟨h.left, h.right⟩, fun k hk => h.only k hk.1 hk.2⟩,
      l, h.left, h.right, fun _ => mem_erase_union_erase⟩
  · intro hand
    obtain ⟨⟨k, -, hk⟩, l, hl, hd, hmem⟩ := hand
    have honly : ∀ j ∈ c, j.negate ∈ d → j = l := fun j hj hjd =>
      (hk j ⟨hj, hjd⟩).trans (hk l ⟨hl, hd⟩).symm
    refine ⟨l, ⟨hl, hd, honly⟩, ?_⟩
    ext j
    rw [hmem, mem_erase_union_erase]

theorem exists_other_clash {c d : LiteralSet α} {l : Literal α} (h : c.resolve? d = none)
    (hl : l ∈ c) (hd : l.negate ∈ d) : ∃ k ∈ c, k.negate ∈ d ∧ k ≠ l := by
  refine Classical.byContradiction fun hno => ?_
  have honly : ∀ k ∈ c, k.negate ∈ d → k = l := fun k hk hkd =>
    Classical.byContradiction fun hne => hno ⟨k, hk, hkd, hne⟩
  rw [resolve?_eq_some_iff.mpr ⟨l, ⟨hl, hd, honly⟩, rfl⟩] at h
  contradiction

/-- Of two clashes, the one that is not resolved on makes a tautology. -/
theorem IsResolvent.exists_complementary {c d r : LiteralSet α} (h : c.IsResolvent d r)
    (hnone : c.resolve? d = none) : ∃ k ∈ r, k.negate ∈ r := by
  obtain ⟨l, hl, hd, hmem⟩ := h
  obtain ⟨k, hk, hkd, hne⟩ := exists_other_clash hnone hl hd
  have hnegate : k.negate ≠ l.negate := by
    rwa [ne_eq, Literal.negate_eq_iff_eq_negate, Literal.negate_negate]
  exact ⟨k, (hmem k).mpr (.inl ⟨hk, hne⟩), (hmem k.negate).mpr (.inr ⟨hkd, hnegate⟩)⟩

/-- Resolution does not depend on which clause comes first. It returns what is left by the only
complementary pair, and that is true wherever both clauses are. Where it returns nothing, whatever
is left by a pair holds a literal together with its complement. -/
theorem resolve?_skips_only_tautologies (c d : LiteralSet α) :
    c.resolve? d = d.resolve? c ∧
      (∀ r, c.resolve? d = some r ↔ (∃! l, l ∈ c ∧ l.negate ∈ d) ∧ c.IsResolvent d r) ∧
      (∀ r, c.resolve? d = some r →
        ∀ σ : Assignment α, c.TrueUnder σ → d.TrueUnder σ → r.TrueUnder σ) ∧
      (c.resolve? d = none → ∀ r, c.IsResolvent d r → ∃ l ∈ r, l.negate ∈ r) := by
  refine ⟨resolve?_comm c d, fun r => resolve?_eq_some_iff_isResolvent, fun r h σ hc hd => ?_,
    fun hnone r hr => ?_⟩
  · exact trueUnder_of_resolve? h hc hd
  · exact hr.exists_complementary hnone

/-- Clauses that clash on both of their atoms are not resolved. On the first atom, the second would
be left with both signs. -/
theorem resolve?_skips_only_tautologies_on_two_clashes :
    (Clause.toSet [⟨1, true⟩, ⟨2, true⟩] : LiteralSet Nat).resolve?
        (Clause.toSet [⟨1, false⟩, ⟨2, false⟩]) = none ∧
      IsResolvent (Clause.toSet [⟨1, true⟩, ⟨2, true⟩] : LiteralSet Nat)
        (Clause.toSet [⟨1, false⟩, ⟨2, false⟩]) (Clause.toSet [⟨2, true⟩, ⟨2, false⟩]) ∧
      ∃ l ∈ (Clause.toSet [⟨2, true⟩, ⟨2, false⟩] : LiteralSet Nat),
        l.negate ∈ (Clause.toSet [⟨2, true⟩, ⟨2, false⟩] : LiteralSet Nat) := by
  have hnone : (Clause.toSet [⟨1, true⟩, ⟨2, true⟩] : LiteralSet Nat).resolve?
      (Clause.toSet [⟨1, false⟩, ⟨2, false⟩]) = none := by
    decide +kernel
  have hleft : IsResolvent (Clause.toSet [⟨1, true⟩, ⟨2, true⟩] : LiteralSet Nat)
      (Clause.toSet [⟨1, false⟩, ⟨2, false⟩]) (Clause.toSet [⟨2, true⟩, ⟨2, false⟩]) := by
    refine ⟨⟨1, true⟩, by simp, by simp [Literal.negate], fun k => ?_⟩
    simp only [Clause.mem_toSet, List.mem_cons, List.not_mem_nil, Literal.negate]
    grind
  exact ⟨hnone, hleft, (resolve?_skips_only_tautologies _ _).2.2.2 hnone _ hleft⟩

/-! ## Closed lists -/

theorem mem_resolvents {cs : List (LiteralSet α)} {c d r : LiteralSet α} (hc : c ∈ cs)
    (hd : d ∈ cs) (h : c.resolve? d = some r) : r ∈ resolvents cs := by
  have hne : c ≠ d := by
    intro heq
    subst heq
    obtain ⟨l, hl, -⟩ := resolve?_eq_some_iff.mp h
    exact not_clashOn_self hl
  induction cs with
  | nil => contradiction
  | cons e cs ih =>
      unfold resolvents
      rw [List.mem_append, List.mem_filterMap]
      rcases List.mem_cons.mp hc with rfl | hcs
      · exact .inl ⟨d, List.mem_of_ne_of_mem hne.symm hd, h⟩
      · rcases List.mem_cons.mp hd with rfl | hds
        · exact .inl ⟨c, hcs, by rw [resolve?_comm]; exact h⟩
        · exact .inr (ih hcs hds)

theorem trueUnder_of_mem_resolvents {σ : Assignment α} {cs : List (LiteralSet α)}
    (hσ : ∀ c ∈ cs, c.TrueUnder σ) {r : LiteralSet α} (h : r ∈ resolvents cs) : r.TrueUnder σ := by
  obtain ⟨c, hc, d, hd, hr⟩ := exists_of_mem_resolvents h
  exact trueUnder_of_resolve? hr (hσ c hc) (hσ d hd)

end PropSat.LiteralSet
