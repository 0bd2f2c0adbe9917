import PropSat.Proofs.Dpll.Propagation

/-!
# Propagation restricts the clauses by forced literals

A literal is forced when, after the literals forced before it, some clause consists of it alone. All
the passes of propagation together are one restriction of the clauses by a set of forced literals.
The set has at most one literal on each atom, it leaves no unit clause, and every model of the
clauses makes it true.
-/

namespace PropSat

variable {α : Type} [Atom α]

namespace LiteralSet

def Consistent (ls : LiteralSet α) : Prop := ∀ l ∈ ls, ∀ k ∈ ls, l.atom = k.atom → l = k

theorem Consistent.negate_notMem {ls : LiteralSet α} (h : ls.Consistent) {l : Literal α}
    (hl : l ∈ ls) : l.negate ∉ ls := fun hn => Literal.negate_ne l (h l.negate hn l hl rfl)

theorem mem_insert_iff {ls : LiteralSet α} {l k : Literal α} :
    k ∈ ls.insert l ↔ k = l ∨ k ∈ ls := by
  rw [Std.ExtTreeSet.mem_insert, Std.LawfulEqOrd.compare_eq_iff_eq, eq_comm]

theorem Consistent.insert {ls : LiteralSet α} (h : ls.Consistent) {l : Literal α}
    (hl : ∀ k ∈ ls, k.atom ≠ l.atom) : Consistent (ls.insert l) := by
  intro j hj k hk ha
  rcases mem_insert_iff.mp hj with hjl | hjs
  · rcases mem_insert_iff.mp hk with hkl | hks
    · rw [hjl, hkl]
    · exact absurd (ha.symm.trans (congrArg Literal.atom hjl)) (hl k hks)
  · rcases mem_insert_iff.mp hk with hkl | hks
    · exact absurd (ha.trans (congrArg Literal.atom hkl)) (hl j hjs)
    · exact h j hjs k hks ha

end LiteralSet

/-- The literals are true in the valuation, which has the values of the second on all other atoms. -/
structure Valuation.Overwrites (w v : Valuation α) (ls : LiteralSet α) : Prop where
  holds : ∀ l ∈ ls, l.HoldsIn w
  keeps : ∀ a, (∀ l ∈ ls, l.atom ≠ a) → w[a]? = v[a]?

theorem Valuation.Overwrites.insert {w v : Valuation α} {ls : LiteralSet α} {l : Literal α}
    (h : w.Overwrites (v.assign l) ls) (hl : ∀ k ∈ ls, k.atom ≠ l.atom) :
    w.Overwrites v (ls.insert l) := by
  constructor
  · intro k hk
    rcases LiteralSet.mem_insert_iff.mp hk with rfl | hk
    · exact (h.keeps k.atom hl).trans (getElem?_assign_self v k)
    · exact h.holds k hk
  · intro a ha
    have hla : l.atom ≠ a := ha l (LiteralSet.mem_insert_iff.mpr (.inl rfl))
    rw [h.keeps a fun k hk => ha k (LiteralSet.mem_insert_iff.mpr (.inr hk)), getElem?_assign,
      if_neg hla]

namespace ClauseSet

/-- What is left of the clauses once the literals are true: those that contain one of them are gone,
and their complements are gone from the rest. -/
def restrict (ls : LiteralSet α) (cs : ClauseSet α) : ClauseSet α :=
  (cs.filter fun c => ∀ l ∈ c, l ∉ ls).map fun c => c.filter (·.negate ∉ ls)

theorem mem_restrict {ls : LiteralSet α} {cs : ClauseSet α} {c : Clause α} :
    c ∈ cs.restrict ls ↔ ∃ d ∈ cs, (∀ l ∈ d, l ∉ ls) ∧ d.filter (·.negate ∉ ls) = c := by
  simp [restrict, and_assoc]

theorem restrict_empty (cs : ClauseSet α) : cs.restrict ∅ = cs := by
  unfold restrict
  rw [List.filter_eq_self.mpr (by simp)]
  exact List.map_id'' (fun c => List.filter_eq_self.mpr (by simp)) cs

/-- Making a literal true and then others is one restriction, unless the others hold its complement:
a clause with the complement would lose it first and stay. -/
theorem restrict_assume {ls : LiteralSet α} {l : Literal α} (hl : l.negate ∉ ls)
    (cs : ClauseSet α) : (cs.assume l).restrict ls = cs.restrict (ls.insert l) := by
  have hgone : ∀ c : Clause α, (∀ k ∈ c.filter (· ≠ l.negate), k ∉ ls) ∧ l ∉ c ↔
      ∀ k ∈ c, k ∉ ls.insert l := by
    intro c
    simp only [List.mem_filter, decide_eq_true_eq, LiteralSet.mem_insert_iff]
    constructor
    · intro h k hk hmem
      rcases hmem with rfl | hks
      · exact h.2 hk
      · exact h.1 k ⟨hk, fun he => hl (he ▸ hks)⟩ hks
    · intro h
      exact ⟨fun k hk hks => h k hk.1 (.inr hks), fun hlc => h l hlc (.inl rfl)⟩
  have hkept : ∀ c : Clause α, (c.filter (· ≠ l.negate)).filter (·.negate ∉ ls) =
      c.filter (·.negate ∉ ls.insert l) := by
    intro c
    rw [List.filter_filter]
    refine List.filter_congr fun k _ => ?_
    rw [← Bool.decide_and, decide_eq_decide, LiteralSet.mem_insert_iff,
      Literal.negate_eq_iff_eq_negate, not_or, and_comm]
  unfold assume restrict
  rw [List.filter_map, List.map_map, List.filter_filter]
  refine congr (congrArg List.map (funext hkept)) (List.filter_congr fun c _ => ?_)
  rw [Function.comp_apply, ← Bool.decide_and, decide_eq_decide]
  exact hgone c

theorem atom_notMem_atoms_restrict {ls : LiteralSet α} {l : Literal α} (hl : l ∈ ls)
    (cs : ClauseSet α) : l.atom ∉ (cs.restrict ls).atoms := by
  intro ha
  obtain ⟨c, hc, k, hk, hkl⟩ := mem_atoms.mp ha
  obtain ⟨d, -, hd, rfl⟩ := mem_restrict.mp hc
  obtain ⟨hkd, hkn⟩ := List.mem_filter.mp hk
  rcases Literal.eq_or_eq_negate_of_atom_eq hkl with rfl | rfl
  · exact hd k hkd hl
  · rw [Literal.negate_negate] at hkn
    exact absurd hl (of_decide_eq_true hkn)

theorem trueUnder_restrict_iff {σ : Assignment α} {ls : LiteralSet α}
    (hls : ∀ l ∈ ls, l.TrueUnder σ) {cs : ClauseSet α} :
    (cs.restrict ls).TrueUnder σ ↔ cs.TrueUnder σ := by
  constructor
  · intro h c hc
    by_cases hex : ∃ l ∈ c, l ∈ ls
    · obtain ⟨l, hl, hmem⟩ := hex
      exact ⟨l, hl, hls l hmem⟩
    · have hd : ∀ l ∈ c, l ∉ ls := fun l hl hmem => hex ⟨l, hl, hmem⟩
      obtain ⟨l, hl, hσ⟩ := h _ (mem_restrict.mpr ⟨c, hc, hd, rfl⟩)
      exact ⟨l, (List.mem_filter.mp hl).1, hσ⟩
  · intro h c hc
    obtain ⟨d, hd, -, rfl⟩ := mem_restrict.mp hc
    obtain ⟨l, hl, hσ⟩ := h d hd
    have hn : l.negate ∉ ls := fun hn => Literal.not_trueUnder_negate hσ (hls l.negate hn)
    exact ⟨l, List.mem_filter.mpr ⟨hl, decide_eq_true hn⟩, hσ⟩

/-- The literals can be made true one after the other so that each, when its turn comes, is the only
literal of a clause that is left. -/
inductive Forces : ClauseSet α → LiteralSet α → Prop
  | nothing {cs : ClauseSet α} : Forces cs ∅
  | unit {cs : ClauseSet α} {l : Literal α} {ls : LiteralSet α} :
      [l] ∈ cs → Forces (cs.assume l) ls → Forces cs (ls.insert l)

theorem Forces.atom_mem {cs : ClauseSet α} {ls : LiteralSet α} (h : cs.Forces ls) :
    ∀ l ∈ ls, l.atom ∈ cs.atoms := by
  induction h with
  | nothing => exact fun l hl => absurd hl Std.ExtTreeSet.not_mem_empty
  | @unit cs l ls hl h ih =>
      intro k hk
      rcases LiteralSet.mem_insert_iff.mp hk with rfl | hk
      · exact mem_atoms.mpr ⟨[k], hl, k, List.mem_singleton_self k, rfl⟩
      · exact (mem_atoms_of_mem_atoms_assume (ih k hk)).1

/-- The atom of an assumed literal is gone, so none of the later literals is on it. -/
theorem Forces.atom_ne {cs : ClauseSet α} {l : Literal α} {ls : LiteralSet α}
    (h : (cs.assume l).Forces ls) : ∀ k ∈ ls, k.atom ≠ l.atom :=
  fun k hk => (mem_atoms_of_mem_atoms_assume (h.atom_mem k hk)).2

theorem Forces.consistent {cs : ClauseSet α} {ls : LiteralSet α} (h : cs.Forces ls) :
    ls.Consistent := by
  induction h with
  | nothing => exact fun l hl => absurd hl Std.ExtTreeSet.not_mem_empty
  | unit hl h ih => exact ih.insert h.atom_ne

theorem Forces.trueUnder {cs : ClauseSet α} {ls : LiteralSet α} (h : cs.Forces ls)
    {σ : Assignment α} (hσ : cs.TrueUnder σ) : ∀ l ∈ ls, l.TrueUnder σ := by
  induction h with
  | nothing => exact fun l hl => absurd hl Std.ExtTreeSet.not_mem_empty
  | @unit cs l ls hl h ih =>
      obtain ⟨j, hj, hjσ⟩ := hσ [l] hl
      rw [List.mem_singleton.mp hj] at hjσ
      intro k hk
      rcases LiteralSet.mem_insert_iff.mp hk with rfl | hk
      · exact hjσ
      · exact ih (trueUnder_assume hjσ hσ) k hk

end ClauseSet

namespace Residual

/-- Making the literals true, all of them forced, turns the first residual into the second. -/
structure ReducesTo (r s : Residual α) (ls : LiteralSet α) : Prop where
  forces : r.clauses.Forces ls
  clauses_eq : s.clauses = r.clauses.restrict ls
  overwrites : s.valuation.Overwrites r.valuation ls

theorem ReducesTo.refl (r : Residual α) : r.ReducesTo r ∅ where
  forces := .nothing
  clauses_eq := (ClauseSet.restrict_empty r.clauses).symm
  overwrites := ⟨fun _ hl => absurd hl Std.ExtTreeSet.not_mem_empty, fun _ _ => rfl⟩

theorem ReducesTo.of_assume {r s : Residual α} {l : Literal α} {ls : LiteralSet α}
    (hl : [l] ∈ r.clauses) (h : (r.assume l).ReducesTo s ls) : r.ReducesTo s (ls.insert l) where
  forces := .unit hl h.forces
  clauses_eq := by
    have hn : l.negate ∉ ls := fun hn => h.forces.atom_ne l.negate hn rfl
    exact h.clauses_eq.trans (ClauseSet.restrict_assume hn r.clauses)
  overwrites := h.overwrites.insert h.forces.atom_ne

theorem exists_reducesTo_propagate (r : Residual α) : ∃ ls, r.ReducesTo r.propagate ls := by
  fun_induction Residual.propagate r with
  | case1 r hu => exact ⟨∅, .refl r⟩
  | case2 r l hu ih =>
      obtain ⟨ls, h⟩ := ih
      exact ⟨ls.insert l, .of_assume (ClauseSet.mem_of_unit? hu) h⟩

theorem length_ne_one_of_mem_propagate {r : Residual α} {c : Clause α}
    (hc : c ∈ r.propagate.clauses) : c.length ≠ 1 := by
  fun_induction Residual.propagate r with
  | case1 r hu =>
      intro hlen
      obtain ⟨l, rfl⟩ := List.length_eq_one_iff.mp hlen
      simpa using List.findSome?_eq_none_iff.mp hu [l] hc
  | case2 r l hu ih => exact ih hc

/-- Propagation is the restriction of the clauses by a consistent set of literals that overwrites
the valuation. It leaves no unit clause and no atom of the set, and an assignment is a model of the
clauses exactly when it is one of what is left and makes the set true. -/
theorem propagate_restricts (r : Residual α) :
    ∃ ls : LiteralSet α, ls.Consistent ∧
      r.propagate.valuation.Overwrites r.valuation ls ∧
      r.propagate.clauses = r.clauses.restrict ls ∧
      (∀ c ∈ r.propagate.clauses, c.length ≠ 1) ∧
      (∀ l ∈ ls, l.atom ∉ r.propagate.clauses.atoms) ∧
      ∀ σ : Assignment α, r.clauses.TrueUnder σ ↔
        r.propagate.clauses.TrueUnder σ ∧ ∀ l ∈ ls, l.TrueUnder σ := by
  obtain ⟨ls, h⟩ := r.exists_reducesTo_propagate
  refine ⟨ls, h.forces.consistent, h.overwrites, h.clauses_eq, ?_, ?_, ?_⟩
  · intro c hc
    exact length_ne_one_of_mem_propagate hc
  · intro l hl
    rw [h.clauses_eq]
    exact ClauseSet.atom_notMem_atoms_restrict hl r.clauses
  · intro σ
    rw [h.clauses_eq]
    constructor
    · intro hσ
      have hls := h.forces.trueUnder hσ
      exact ⟨(ClauseSet.trueUnder_restrict_iff hls).mpr hσ, hls⟩
    · intro hσ
      exact (ClauseSet.trueUnder_restrict_iff hσ.2).mp hσ.1

/-- Of two units in conflict the first has its value, and the other leaves an empty clause. -/
example :
    (propagate (⟨[[⟨1, true⟩], [⟨1, false⟩]], ∅⟩ : Residual Nat)).clauses = [[]] ∧
      (propagate (⟨[[⟨1, true⟩], [⟨1, false⟩]], ∅⟩ : Residual Nat)).valuation[1]? = some true := by
  decide +kernel

end Residual

end PropSat
