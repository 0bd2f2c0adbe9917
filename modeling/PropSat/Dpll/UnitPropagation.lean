import PropSat.Clause

/-!
# Unit propagation

As long as some clause consists of a single literal, that literal is made true and the clauses are
simplified by it. Each pass removes an atom from the clauses, which bounds the number of passes.
-/

namespace PropSat

variable {α : Type} [Atom α]

namespace ClauseSet

/-- What is left of the clauses once the literal is true: those that contain it are gone, and its
complement is gone from the rest. -/
def assume (l : Literal α) (cs : ClauseSet α) : ClauseSet α :=
  (cs.filter (l ∉ ·)).map fun c => c.filter (· ≠ l.negate)

def unit? (cs : ClauseSet α) : Option (Literal α) :=
  cs.findSome? fun
    | [l] => some l
    | _ => none

omit [Atom α] in
theorem mem_of_unit? {cs : ClauseSet α} {l : Literal α} (h : cs.unit? = some l) : [l] ∈ cs := by
  obtain ⟨c, hc, hl⟩ := List.exists_of_findSome?_eq_some h
  split at hl <;> simp_all

theorem mem_assume {l : Literal α} {cs : ClauseSet α} {c : Clause α} :
    c ∈ cs.assume l ↔ ∃ d ∈ cs, l ∉ d ∧ d.filter (· ≠ l.negate) = c := by
  simp [assume, and_assoc]

theorem mem_atoms_of_mem_atoms_assume {l : Literal α} {cs : ClauseSet α} {a : α}
    (h : a ∈ (cs.assume l).atoms) : a ∈ cs.atoms ∧ a ≠ l.atom := by
  obtain ⟨c, hc, k, hk, rfl⟩ := mem_atoms.mp h
  obtain ⟨d, hd, hl, rfl⟩ := mem_assume.mp hc
  simp only [List.mem_filter, decide_eq_true_eq] at hk
  refine ⟨mem_atoms.mpr ⟨d, hd, k, hk.1, rfl⟩, fun ha => ?_⟩
  cases Literal.eq_or_eq_negate_of_atom_eq ha with
  | inl he => exact hl (he ▸ hk.1)
  | inr he => exact hk.2 he

theorem size_atoms_lt {cs ds : ClauseSet α} {a : α} (hsub : ∀ b ∈ cs.atoms, b ∈ ds.atoms)
    (ha : a ∈ ds.atoms) (hn : a ∉ cs.atoms) : cs.atoms.size < ds.atoms.size := by
  have he : cs.atoms ∪ ds.atoms.erase a = ds.atoms.erase a := by
    ext b
    simp only [Std.ExtTreeSet.mem_union_iff, Std.ExtTreeSet.mem_erase]
    grind
  have hle : cs.atoms.size ≤ (cs.atoms ∪ ds.atoms.erase a).size :=
    Std.ExtTreeSet.size_left_le_size_union
  have hpos : ds.atoms.size ≠ 0 := by
    intro h0
    simp [Std.ExtTreeSet.eq_empty_iff_size_eq_zero.mpr h0] at ha
  rw [he, Std.ExtTreeSet.size_erase, if_pos (Std.ExtTreeSet.contains_iff_mem.mpr ha)] at hle
  omega

theorem size_atoms_assume_lt {cs : ClauseSet α} {l : Literal α} (h : [l] ∈ cs) :
    (cs.assume l).atoms.size < cs.atoms.size :=
  size_atoms_lt (fun _ hb => (mem_atoms_of_mem_atoms_assume hb).1)
    (mem_atoms.mpr ⟨[l], h, l, by simp, rfl⟩)
    fun hm => (mem_atoms_of_mem_atoms_assume hm).2 rfl

end ClauseSet

/-- The clauses that are still to be satisfied, and the valuation made so far. -/
structure Residual (α : Type) [Atom α] where
  clauses : ClauseSet α
  valuation : Valuation α

namespace Residual

def assume (l : Literal α) (r : Residual α) : Residual α :=
  ⟨r.clauses.assume l, r.valuation.assign l⟩

/-- Assumes the first unit clause until there is none. -/
def propagate (r : Residual α) : Residual α :=
  match _h : r.clauses.unit? with
  | none => r
  | some l => (r.assume l).propagate
termination_by r.clauses.atoms.size
decreasing_by exact ClauseSet.size_atoms_assume_lt (ClauseSet.mem_of_unit? _h)

/-- Adds the literal as a unit clause and propagates. -/
def branch (l : Literal α) (r : Residual α) : Residual α :=
  propagate { r with clauses := r.clauses ++ [[l]] }

/-- Propagation brings in no atom and removes every atom that stood in a unit clause. -/
theorem mem_atoms_of_mem_atoms_propagate {r : Residual α} {a : α}
    (h : a ∈ r.propagate.clauses.atoms) :
    a ∈ r.clauses.atoms ∧ ∀ l, [l] ∈ r.clauses → l.atom ≠ a := by
  fun_induction propagate r with
  | case1 r hu =>
      refine ⟨h, fun l hl _ => ?_⟩
      simpa using List.findSome?_eq_none_iff.mp hu [l] hl
  | case2 r u hu ih =>
      obtain ⟨hm, hk⟩ := ih h
      obtain ⟨hr, hne⟩ := ClauseSet.mem_atoms_of_mem_atoms_assume hm
      refine ⟨hr, fun l hl ha => ?_⟩
      refine hk l (ClauseSet.mem_assume.mpr ⟨[l], hl, ?_, ?_⟩) ha
      · rintro hmem
        simp only [List.mem_singleton] at hmem
        exact hne (hmem ▸ ha.symm)
      · have : l ≠ u.negate := fun he => hne (by rw [← ha, he]; rfl)
        simp [this]

theorem size_atoms_branch_lt {r : Residual α} {l : Literal α} (h : l.atom ∈ r.clauses.atoms) :
    (r.branch l).clauses.atoms.size < r.clauses.atoms.size := by
  refine ClauseSet.size_atoms_lt (a := l.atom) (fun b hb => ?_) h fun hm => ?_
  · obtain ⟨hm, -⟩ := mem_atoms_of_mem_atoms_propagate hb
    obtain ⟨c, hc, k, hk, rfl⟩ := ClauseSet.mem_atoms.mp hm
    rcases List.mem_append.mp hc with hc | hc
    · exact ClauseSet.mem_atoms.mpr ⟨c, hc, k, hk, rfl⟩
    · simp only [List.mem_singleton] at hc
      subst hc
      simp only [List.mem_singleton] at hk
      exact hk ▸ h
  · exact (mem_atoms_of_mem_atoms_propagate hm).2 l (by simp) rfl

end Residual

end PropSat
