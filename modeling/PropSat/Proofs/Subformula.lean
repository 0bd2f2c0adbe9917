import PropSat.Formula.Occurrence

/-!
# Subformulas

The subformulas of a formula as a list, the formula itself first and repetitions kept, so that there
is one for each node. The collection that enters no formula twice finds the same ones: a formula met
again is either finished, with all that stands below it, or one of those being entered, and these
are larger than any formula met below them.
-/

namespace PropSat

namespace Formula

/-- The formula and all that stands below it, from left to right. -/
def subtrees : Formula → List Formula
  | atom name => [atom name]
  | not f => not f :: f.subtrees
  | and f g => and f g :: (f.subtrees ++ g.subtrees)
  | or f g => or f g :: (f.subtrees ++ g.subtrees)
  | implies f g => implies f g :: (f.subtrees ++ g.subtrees)

theorem self_mem_subtrees (f : Formula) : f ∈ f.subtrees := by
  cases f <;> exact List.mem_cons_self

theorem length_subtrees (f : Formula) : f.subtrees.length = f.size := by
  induction f with
  | atom name => rfl
  | not f ih => rw [subtrees, List.length_cons, ih, size, Nat.add_comm]
  | and f g ihf ihg | or f g ihf ihg | implies f g ihf ihg =>
      rw [subtrees, List.length_cons, List.length_append, ihf, ihg, size]
      omega

theorem mem_subtrees_trans {f g h : Formula} (hg : g ∈ f.subtrees) (hh : h ∈ g.subtrees) :
    h ∈ f.subtrees := by
  induction f with
  | atom name =>
      rw [subtrees, List.mem_singleton] at hg
      exact hg ▸ hh
  | not f ih =>
      rcases List.mem_cons.mp hg with rfl | hbelow
      · exact hh
      · exact List.mem_cons_of_mem _ (ih hbelow)
  | and f k ihf ihk | or f k ihf ihk | implies f k ihf ihk =>
      rcases List.mem_cons.mp hg with rfl | hbelow
      · exact hh
      · refine List.mem_cons_of_mem _ (List.mem_append.mpr ?_)
        rcases List.mem_append.mp hbelow with hleft | hright
        · exact .inl (ihf hleft)
        · exact .inr (ihk hright)

end Formula

namespace FormulaSet

/-- Every member that is smaller has all its subformulas in the set. -/
def CompleteBelow (s : FormulaSet) (n : Nat) : Prop :=
  ∀ f ∈ s, f.size < n → ∀ g ∈ f.subtrees, g ∈ s

variable {s t : FormulaSet} {f : Formula} {m n : Nat}

theorem completeBelow_empty (n : Nat) : CompleteBelow ∅ n :=
  fun _ hf => absurd hf Std.ExtTreeSet.not_mem_empty

theorem CompleteBelow.mono (h : s.CompleteBelow n) (hmn : m ≤ n) : s.CompleteBelow m :=
  fun g hg hsize => h g hg (Nat.lt_of_lt_of_le hsize hmn)

/-- A formula may be entered before what stands below it. -/
theorem CompleteBelow.insert (h : s.CompleteBelow n) (hf : n ≤ f.size) :
    CompleteBelow (s.insert f) n := by
  intro g hg hsize k hk
  rw [Std.ExtTreeSet.mem_insert, Std.LawfulEqOrd.compare_eq_iff_eq] at hg ⊢
  rcases hg with rfl | hg
  · omega
  · exact .inr (h g hg hsize k hk)

theorem CompleteBelow.of_mem_iff (h : s.CompleteBelow n)
    (ht : ∀ g, g ∈ t ↔ g ∈ s ∨ g ∈ f.subtrees) : t.CompleteBelow n := by
  intro g hg hsize k hk
  rw [ht] at hg ⊢
  rcases hg with hg | hg
  · exact .inl (h g hg hsize k hk)
  · exact .inr (Formula.mem_subtrees_trans hg hk)

end FormulaSet

namespace Formula

variable {f g : Formula} {seen : FormulaSet} {n : Nat}

/-- A formula seen before and smaller than those being entered is complete, so nothing is lost by
not entering it again. -/
theorem mem_collectSubformulas (hf : f.size < n) (h : seen.CompleteBelow n) :
    g ∈ collectSubformulas seen f ↔ g ∈ seen ∨ g ∈ f.subtrees := by
  induction f generalizing seen g n with
  | atom name =>
      rw [collectSubformulas]
      split
      · next hseen => exact (or_iff_left_of_imp (h _ hseen hf g)).symm
      · rw [Std.ExtTreeSet.mem_insert, Std.LawfulEqOrd.compare_eq_iff_eq, subtrees,
          List.mem_singleton, or_comm, eq_comm]
  | not f ih =>
      rw [collectSubformulas]
      split
      · next hseen => exact (or_iff_left_of_imp (h _ hseen hf g)).symm
      · have hentered := (h.mono (Nat.le_of_lt hf)).insert (Nat.le_refl _)
        rw [ih (by rw [size]; omega) hentered, Std.ExtTreeSet.mem_insert,
          Std.LawfulEqOrd.compare_eq_iff_eq, subtrees, List.mem_cons, eq_comm, or_left_comm,
          or_assoc]
  | and f k ihf ihk | or f k ihf ihk | implies f k ihf ihk =>
      rw [collectSubformulas]
      split
      · next hseen => exact (or_iff_left_of_imp (h _ hseen hf g)).symm
      · have hentered := (h.mono (Nat.le_of_lt hf)).insert (Nat.le_refl _)
        have hleft (p : Formula) := ihf (g := p) (by rw [size]; omega) hentered
        have hfinished := hentered.of_mem_iff hleft
        rw [ihk (by rw [size]; omega) hfinished, hleft, Std.ExtTreeSet.mem_insert,
          Std.LawfulEqOrd.compare_eq_iff_eq, subtrees, List.mem_cons, List.mem_append, eq_comm,
          or_assoc, or_assoc, or_left_comm]

theorem mem_subformulas : g ∈ f.subformulas ↔ g ∈ f.subtrees := by
  have hcollect := mem_collectSubformulas (g := g) (Nat.lt_succ_self f.size)
    (FormulaSet.completeBelow_empty _)
  rw [subformulas, hcollect]
  exact or_iff_right Std.ExtTreeSet.not_mem_empty

theorem subformulas_eq_ofList (f : Formula) : f.subformulas = .ofList f.subtrees :=
  Std.ExtTreeSet.ext_mem fun g => by
    rw [mem_subformulas, Std.ExtTreeSet.mem_ofList, List.contains_iff_mem]

/-- The subformulas of a formula are the formula and all that stands below it, no more of them than
it has nodes, and with each of them come its own. -/
theorem subformulas_complete (f : Formula) :
    (∀ g, g ∈ f.subformulas ↔ g ∈ f.subtrees) ∧ f.subformulas.size ≤ f.size ∧
      ∀ g ∈ f.subformulas, ∀ h ∈ g.subformulas, h ∈ f.subformulas := by
  refine ⟨fun g => mem_subformulas, ?_, fun g hg h hh => ?_⟩
  · rw [subformulas_eq_ofList, ← length_subtrees]
    exact Std.ExtTreeSet.size_ofList_le
  · rw [mem_subformulas] at hg hh ⊢
    exact mem_subtrees_trans hg hh

end Formula

end PropSat
