import PropSat.Proofs.Dpll.Restriction
import PropSat.Proofs.Dpll.Search
import Mathlib.Data.List.Chain
import Mathlib.Logic.Relation

/-!
# Calls of the search within each other

A call of the search propagates the clauses that it is given. Then it may call the search again, on
what is left with one more clause, which consists of a literal that still occurs. Propagation takes
this clause first, and the atom of the literal is gone. So the atoms bound both the passes of a
propagation and the calls that are open at the same time. The search answers by its calls: what it
returns is the valuation of one that it reaches.
-/

namespace PropSat

variable {α : Type} [Atom α]

namespace ClauseSet

omit [Atom α] in
theorem unit?_append_unit {cs : ClauseSet α} (h : ∀ c ∈ cs, c.length ≠ 1) (l : Literal α) :
    ClauseSet.unit? (cs ++ [[l]]) = some l := by
  have hnone : cs.unit? = none := by
    refine List.findSome?_eq_none_iff.mpr fun c hc => ?_
    match c with
    | [] => rfl
    | [k] => exact absurd rfl (h [k] hc)
    | _ :: _ :: _ => rfl
  rw [unit?, List.findSome?_append]
  exact Option.or_eq_some_iff.mpr (.inr ⟨hnone, rfl⟩)

theorem assume_append_unit (cs : ClauseSet α) (l : Literal α) :
    ClauseSet.assume l (cs ++ [[l]]) = cs.assume l := by
  simp [assume, List.filter_append]

end ClauseSet

namespace Residual

/-! ## Passes of a propagation -/

def Pass (r t : Residual α) : Prop := ∃ l, r.clauses.unit? = some l ∧ t = r.assume l

theorem Pass.size_atoms_lt {r t : Residual α} (h : r.Pass t) :
    t.clauses.atoms.size < r.clauses.atoms.size := by
  obtain ⟨l, hu, rfl⟩ := h
  exact ClauseSet.size_atoms_assume_lt (ClauseSet.mem_of_unit? hu)

theorem passes_propagate (r : Residual α) : Relation.ReflTransGen Pass r r.propagate := by
  fun_induction Residual.propagate r with
  | case1 r hu => exact .refl
  | case2 r l hu ih => exact .head ⟨l, hu, rfl⟩ ih

theorem not_pass_propagate (r t : Residual α) : ¬ r.propagate.Pass t := by
  intro h
  obtain ⟨l, hu, -⟩ := h
  exact length_ne_one_of_mem_propagate (ClauseSet.mem_of_unit? hu) rfl

theorem size_atoms_le_of_passes {r t : Residual α} (h : Relation.ReflTransGen Pass r t) :
    t.clauses.atoms.size ≤ r.clauses.atoms.size := by
  induction h with
  | refl => exact Nat.le_refl _
  | tail _ hlast ih => exact Nat.le_trans (Nat.le_of_lt hlast.size_atoms_lt) ih

def withUnit (l : Literal α) (r : Residual α) : Residual α :=
  { r with clauses := r.clauses ++ [[l]] }

theorem propagate_withUnit (l : Literal α) (r : Residual α) :
    (r.withUnit l).propagate = r.branch l := rfl

theorem unit?_withUnit (l : Literal α) (r : Residual α) :
    (r.propagate.withUnit l).clauses.unit? = some l :=
  ClauseSet.unit?_append_unit (fun _ => length_ne_one_of_mem_propagate) l

/-- The first pass takes the unit clause at the end, for there is no other. -/
theorem branch_propagate (l : Literal α) (r : Residual α) :
    r.propagate.branch l = (r.propagate.assume l).propagate := by
  rw [← propagate_withUnit, propagate_of_unit?_eq_some (unit?_withUnit l r), assume, withUnit,
    ClauseSet.assume_append_unit]
  rfl

end Residual

namespace Dpll

/-! ## Calls and answers -/

variable {s : Strategy α} {r t : Residual α}

/-- The first call makes the second: what propagation leaves is neither empty nor in conflict, and
the literal picked is added as a unit clause, or its complement after the literal has failed. -/
inductive Call (s : Strategy α) (r : Residual α) : Residual α → Prop where
  | assume {l : Literal α} (hne : ¬ r.propagate.clauses.isEmpty = true)
      (hc : ¬ r.propagate.clauses.hasEmpty = true) (hp : s.pick? r.propagate.clauses = some l) :
      Call s r (r.propagate.withUnit l)
  | refute {l : Literal α} (hne : ¬ r.propagate.clauses.isEmpty = true)
      (hc : ¬ r.propagate.clauses.hasEmpty = true) (hp : s.pick? r.propagate.clauses = some l)
      (hf : search s (r.propagate.branch l) = none) :
      Call s r (r.propagate.withUnit l.negate)

theorem atom_mem_of_pick? {cs : ClauseSet α} {l : Literal α} (h : s.pick? cs = some l) :
    l.atom ∈ cs.atoms := by
  obtain ⟨c, hc, hl⟩ := s.mem_of_pick? h
  exact ClauseSet.mem_atoms.mpr ⟨c, hc, l, hl, rfl⟩

/-- A call is made on what propagation leaves and a literal that occurs there, with either sign. -/
theorem Call.exists_literal (h : Call s r t) :
    ∃ l : Literal α, l.atom ∈ r.propagate.clauses.atoms ∧ t = r.propagate.withUnit l := by
  cases h with
  | @assume l _ _ hp => exact ⟨l, atom_mem_of_pick? hp, rfl⟩
  | @refute l _ _ hp _ =>
      have hl : l.atom ∈ r.propagate.clauses.atoms := atom_mem_of_pick? hp
      exact ⟨l.negate, hl, rfl⟩

theorem Call.exists_pass (h : Call s r t) : ∃ u, t.Pass u := by
  obtain ⟨l, -, rfl⟩ := h.exists_literal
  exact ⟨_, l, Residual.unit?_withUnit l r, rfl⟩

theorem Call.size_atoms_lt (h : Call s r t) :
    t.propagate.clauses.atoms.size < r.propagate.clauses.atoms.size := by
  obtain ⟨l, hl, rfl⟩ := h.exists_literal
  exact Residual.size_atoms_branch_lt hl

/-- The search answers by its calls. It gives the valuation if no clause is left, and otherwise what
one of the calls that it makes gives. -/
theorem search_propagate_eq_some_iff {v : Valuation α} :
    search s r.propagate = some v ↔
      (r.propagate.clauses.isEmpty = true ∧ r.propagate.valuation = v) ∨
        ∃ t, Call s r t ∧ search s t.propagate = some v := by
  constructor
  · intro h
    by_cases hne : r.propagate.clauses.isEmpty = true
    · rw [search_of_isEmpty hne] at h
      exact .inl ⟨hne, Option.some.inj h⟩
    by_cases hc : r.propagate.clauses.hasEmpty = true
    · rw [search_of_hasEmpty hne hc] at h
      contradiction
    rw [search_eq_bind hne hc] at h
    obtain ⟨l, hp, h⟩ := Option.bind_eq_some_iff.mp h
    rcases Option.or_eq_some_iff.mp h with h | ⟨hf, h⟩
    · exact .inr ⟨_, .assume hne hc hp, h⟩
    · exact .inr ⟨_, .refute hne hc hp hf, h⟩
  · rintro (⟨hne, rfl⟩ | ⟨t, hcall, h⟩)
    · exact search_of_isEmpty hne
    · cases hcall with
      | assume hne hc hp =>
          rw [search_eq_bind hne hc, hp, Option.bind_some]
          exact Option.or_eq_some_iff.mpr (.inl h)
      | refute hne hc hp hf =>
          rw [search_eq_bind hne hc, hp, Option.bind_some]
          exact Option.or_eq_some_iff.mpr (.inr ⟨hf, h⟩)

/-- The search gives the valuation of a call that it reaches and that has no clause left. -/
theorem search_propagate_eq_some_iff_reaches {v : Valuation α} :
    search s r.propagate = some v ↔
      ∃ t, Relation.ReflTransGen (Call s) r t ∧ t.propagate.clauses.isEmpty = true ∧
        t.propagate.valuation = v := by
  constructor
  · intro h
    induction hn : r.propagate.clauses.atoms.size using Nat.strong_induction_on generalizing r with
    | _ n ih =>
        rcases search_propagate_eq_some_iff.mp h with hleaf | ⟨t, hcall, ht⟩
        · exact ⟨r, .refl, hleaf⟩
        · obtain ⟨u, hreach, hleaf⟩ := ih _ (hn ▸ hcall.size_atoms_lt) ht rfl
          exact ⟨u, .head hcall hreach, hleaf⟩
  · rintro ⟨t, hreach, hleaf⟩
    induction hreach using Relation.ReflTransGen.head_induction_on with
    | refl => exact search_propagate_eq_some_iff.mpr (.inl hleaf)
    | head hcall _ ih => exact search_propagate_eq_some_iff.mpr (.inr ⟨_, hcall, ih⟩)

/-! ## Calls open at the same time -/

theorem length_calls_le {ts : List (Residual α)} (h : (r :: ts).IsChain (Call s)) :
    ts.length ≤ r.propagate.clauses.atoms.size := by
  induction ts generalizing r with
  | nil => exact Nat.zero_le _
  | cons t ts ih =>
      obtain ⟨hfirst, hrest⟩ := List.isChain_cons_cons.mp h
      have hlen : ts.length ≤ t.propagate.clauses.atoms.size := ih hrest
      have hdrop := hfirst.size_atoms_lt
      rw [List.length_cons]
      omega

/-- The search with a limit on how many of its calls are open at the same time. There is no answer
when the limit is reached. -/
def searchWithin (s : Strategy α) : Nat → Residual α → Option (Option (Valuation α))
  | 0, _ => none
  | n + 1, r =>
      let t := r.propagate
      if t.clauses.isEmpty then some (some t.valuation)
      else if t.clauses.hasEmpty then some none
      else
        match s.pick? t.clauses with
        | none => some none
        | some l =>
            match searchWithin s n (t.withUnit l) with
            | some none => searchWithin s n (t.withUnit l.negate)
            | answer => answer

/-- A limit above the number of atoms is never reached. -/
theorem searchWithin_eq_some {n : Nat} (h : r.propagate.clauses.atoms.size < n) :
    searchWithin s n r = some (search s r.propagate) := by
  induction n generalizing r with
  | zero => contradiction
  | succ n ih =>
      rw [searchWithin]
      by_cases hne : r.propagate.clauses.isEmpty = true
      · rw [if_pos hne, search_of_isEmpty hne]
      by_cases hc : r.propagate.clauses.hasEmpty = true
      · rw [if_neg hne, if_pos hc, search_of_hasEmpty hne hc]
      rw [if_neg hne, if_neg hc, search_eq_bind hne hc]
      cases hp : s.pick? r.propagate.clauses with
      | none => rfl
      | some l =>
          have hnext : ∀ k : Literal α, k.atom = l.atom →
              searchWithin s n (r.propagate.withUnit k) = some (search s (r.propagate.branch k)) := by
            intro k hk
            have hdrop := Residual.size_atoms_branch_lt (hk ▸ atom_mem_of_pick? hp)
            exact ih (Nat.lt_of_lt_of_le hdrop (Nat.le_of_lt_succ h))
          dsimp only
          rw [hnext l rfl, hnext l.negate rfl, Option.bind_some]
          cases search s (r.propagate.branch l) <;> rfl

/-- Every pass of a propagation lowers the number of atoms, and there are passes until no unit clause
is left. Every call within another one makes a pass. So within the outermost call there are never
more calls open than atoms, and the search gives its answer with as many and one. -/
theorem calls_bounded (s : Strategy α) (cs : ClauseSet α) :
    (∀ r t : Residual α, r.Pass t → t.clauses.atoms.size < r.clauses.atoms.size) ∧
      (∀ r : Residual α, Relation.ReflTransGen Residual.Pass r r.propagate ∧
        ∀ t, ¬ r.propagate.Pass t) ∧
      (∀ r t, Call s r t → ∃ u, t.Pass u) ∧
      (∀ ts, (⟨cs.distinct, ∅⟩ :: ts).IsChain (Call s) → ts.length ≤ cs.atoms.size) ∧
      searchWithin s (cs.atoms.size + 1) ⟨cs.distinct, ∅⟩ = some (satisfy s cs) := by
  have hstart : (Residual.propagate ⟨cs.distinct, ∅⟩).clauses.atoms.size ≤ cs.atoms.size := by
    have hsame : cs.distinct.atoms = cs.atoms :=
      Std.ExtTreeSet.ext_mem fun _ => ClauseSet.mem_atoms_distinct
    have hle := Residual.size_atoms_le_of_passes (Residual.passes_propagate ⟨cs.distinct, ∅⟩)
    rwa [hsame] at hle
  refine ⟨fun r t h => h.size_atoms_lt, fun r => ⟨r.passes_propagate, r.not_pass_propagate⟩,
    fun r t h => h.exists_pass, fun ts h => ?_, ?_⟩
  · exact Nat.le_trans (length_calls_le h) hstart
  · exact searchWithin_eq_some (Nat.lt_succ_of_le hstart)

/-- The first clause makes the search assume 1, which fails. The call that assumes the complement
makes a pass. -/
theorem calls_bounded_on_failed_literal :
    ∃ t u : Residual Nat,
      Call Branching.firstLiteral.strategy
        ⟨ClauseSet.distinct [[⟨1, true⟩, ⟨2, true⟩], [⟨1, false⟩, ⟨2, true⟩],
          [⟨1, false⟩, ⟨2, false⟩]], ∅⟩ t ∧
      t.Pass u ∧ u.clauses.atoms.size < t.clauses.atoms.size ∧
      [t].length ≤ (ClauseSet.atoms ([[⟨1, true⟩, ⟨2, true⟩], [⟨1, false⟩, ⟨2, true⟩],
        [⟨1, false⟩, ⟨2, false⟩]] : ClauseSet Nat)).size := by
  obtain ⟨t, hcall⟩ : ∃ t : Residual Nat, Call Branching.firstLiteral.strategy
      ⟨ClauseSet.distinct [[⟨1, true⟩, ⟨2, true⟩], [⟨1, false⟩, ⟨2, true⟩],
        [⟨1, false⟩, ⟨2, false⟩]], ∅⟩ t :=
    ⟨_, .refute (l := ⟨1, true⟩) (by decide +kernel) (by decide +kernel) (by decide +kernel)
      (by decide +kernel)⟩
  obtain ⟨hpass, -, hcalls, hnested, -⟩ := calls_bounded Branching.firstLiteral.strategy
    ([[⟨1, true⟩, ⟨2, true⟩], [⟨1, false⟩, ⟨2, true⟩], [⟨1, false⟩, ⟨2, false⟩]] : ClauseSet Nat)
  obtain ⟨u, hu⟩ := hcalls _ _ hcall
  exact ⟨t, u, hcall, hu, hpass t u hu, hnested [t] (.cons_cons hcall (.singleton t))⟩

end Dpll

end PropSat
