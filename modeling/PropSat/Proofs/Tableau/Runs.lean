import PropSat.Proofs.Tableau.Decision
import Mathlib.Algebra.Group.Nat.Defs
import Mathlib.Data.List.Basic
import Mathlib.Logic.Relation

/-!
# Every run of a tableau ends

The search has no choice: it expands the formula that is next and goes back from closed branches
only. Its end does not hang on that. Let any unexpanded formula be expanded and any branch be given
up, in whatever order. Each such move still lowers the cost of the tableau. So from a tableau fewer
moves are possible than it costs, and the given formulas bound the cost of all that comes of them.
-/

namespace PropSat

namespace Formula

theorem weightOfAll_perm {fs gs : List Formula} (h : fs.Perm gs) :
    weightOfAll fs = weightOfAll gs := by
  induction h with
  | nil => rfl
  | cons f _ ih => rw [weightOfAll, weightOfAll, ih]
  | swap f g fs => simp only [weightOfAll]; omega
  | trans _ _ ih₁ ih₂ => exact ih₁.trans ih₂

end Formula

namespace Tableau

/-! ## Moves and their cost -/

/-- Any unexpanded formula is expanded, or the branch is given up for the alternative deferred last,
closed or not. -/
inductive Move (t : Tableau) : Tableau → Prop where
  | expand {i : Nat} {e : Entry} (he : t.entries[i]? = some e) (hu : e.expanded = false) :
      Move t (t.expand i)
  | resume {u : Tableau} (hu : t.resume? = some u) : Move t u

section

variable {t u : Tableau}

theorem Step.move (hs : t.Step u) : t.Move u := by
  cases hs with
  | resume _ hu => exact .resume hu
  | expand _ hi =>
      obtain ⟨e, he, hu⟩ := exists_of_next? hi
      exact .expand he hu

theorem Move.layered (hm : t.Move u) (h : t.Layered) : u.Layered := by
  cases hm with
  | expand _ _ => exact h.expand _
  | resume hu => exact h.resume hu

theorem Move.cost_lt (hm : t.Move u) (h : t.Layered) : u.cost < t.cost := by
  cases hm with
  | expand he hu => exact cost_expand_lt h he hu
  | resume hu => exact cost_resume_lt h hu

theorem cost_pos (t : Tableau) : 0 < t.cost := Nat.add_pos_left (budget_pos _) _

/-! ## Runs of the search -/

theorem layered_and_cost_le_of_moves (h : t.Layered) (hm : Relation.ReflTransGen Move t u) :
    u.Layered ∧ u.cost ≤ t.cost := by
  induction hm with
  | refl => exact ⟨h, Nat.le_refl _⟩
  | tail _ hlast ih =>
      have hdrop := hlast.cost_lt ih.1
      exact ⟨hlast.layered ih.1, Nat.le_trans (Nat.le_of_lt hdrop) ih.2⟩

theorem Layered.length_lt_cost (h : t.Layered) {us : List Tableau} (hm : (t :: us).IsChain Move) :
    us.length < t.cost := by
  induction us generalizing t with
  | nil => exact t.cost_pos
  | cons u us ih =>
      obtain ⟨hfirst, hrest⟩ := List.isChain_cons_cons.mp hm
      have hlen : us.length < u.cost := ih (hfirst.layered h) hrest
      have hdrop : u.cost < t.cost := hfirst.cost_lt h
      rw [List.length_cons]
      omega

/-- The search can go on except from a closed branch without an alternative, and from an open one
with nothing left to expand. -/
theorem not_step_iff :
    (∀ u, ¬ t.Step u) ↔ if t.closed then t.resume? = none else t.next? = none := by
  split
  · next hc =>
      refine ⟨fun hend => ?_, ?_⟩
      · cases hu : t.resume? with
        | none => rfl
        | some u => exact absurd (.resume hc hu) (hend u)
      · rintro hnone u (⟨_, hu⟩ | ⟨ho, _⟩)
        · rw [hnone] at hu; contradiction
        · rw [hc] at ho; contradiction
  · next hc =>
      have hopen : t.closed = false := by simpa using hc
      refine ⟨fun hend => ?_, ?_⟩
      · cases hi : t.next? with
        | none => rfl
        | some i => exact absurd (.expand hopen hi) (hend _)
      · rintro hnone u (⟨hclosed, _⟩ | ⟨_, hi⟩)
        · exact hc hclosed
        · rw [hnone] at hi; contradiction

/-- The search comes to a tableau from which it cannot go on, and answers with its valuation if the
branch there is open. -/
theorem Layered.exists_end (h : t.Layered) :
    ∃ u, t.Reaches u ∧ (∀ w, ¬ u.Step w) ∧
      t.run h = if u.closed then none else some u.valuation := by
  have hend := run_spec (P := t.Reaches) (fun _ _ hu hs => .tail hu hs) h .refl
  rcases hend with ⟨u, hu, hc, hr, hrun⟩ | ⟨u, hu, hc, hn, hrun⟩
  · exact ⟨u, hu, not_step_iff.mpr (by rw [if_pos hc, hr]), by rw [hrun, if_pos hc]⟩
  · exact ⟨u, hu, not_step_iff.mpr (by simp [hc, hn]), by simp [hrun, hc]⟩

end

theorem budget_eq_pow (n : Nat) : budget n = 3 ^ n := by
  induction n with
  | zero => rfl
  | succ n ih => rw [budget, ih, Nat.pow_succ, Nat.mul_comm]

theorem cost_ofFormulas_le (fs : List Formula) :
    (ofFormulas fs).cost ≤ 3 ^ Formula.weightOfAll fs := by
  let gs := fs.filter (!·.branching) ++ fs.filter (·.branching)
  obtain ⟨hopen, hdeferred⟩ : openWeight (ofFormulas fs).entries ≤ 0 + Formula.weightOfAll gs ∧
      (ofFormulas fs).alternativeCosts (ofFormulas fs).checkpoints = 0 :=
    addAll_bounds layered_empty gs
  have hperm : gs.Perm fs := by
    have := List.filter_append_perm (fun f => !f.branching) fs
    simpa only [Bool.not_not] using this
  rw [Nat.zero_add, Formula.weightOfAll_perm hperm] at hopen
  rw [cost, hdeferred, ← budget_eq_pow]
  exact budget_le hopen

/-- From every tableau that comes of the given formulas fewer moves are possible in a row than three
to the power of their weight, even if formulas are expanded and branches given up in any order. The
search makes such moves only. It comes to an end, and what it finds there is its answer. -/
theorem moves_bounded (fs : List Formula) :
    (∀ t, Relation.ReflTransGen Move (ofFormulas fs) t →
        ∀ us, (t :: us).IsChain Move → us.length < 3 ^ Formula.weightOfAll fs) ∧
      (∀ t u : Tableau, t.Step u → t.Move u) ∧
      ∃ u, (ofFormulas fs).Reaches u ∧ (∀ w, ¬ u.Step w) ∧
        satisfy fs = if u.closed then none else some u.valuation := by
  refine ⟨fun t ht us hus => ?_, fun _ _ hs => hs.move, (layered_ofFormulas fs).exists_end⟩
  obtain ⟨hlay, hle⟩ := layered_and_cost_le_of_moves (layered_ofFormulas fs) ht
  calc us.length
      < t.cost := hlay.length_lt_cost hus
    _ ≤ (ofFormulas fs).cost := hle
    _ ≤ 3 ^ Formula.weightOfAll fs := cost_ofFormulas_le fs

/-- The first part of a disjunction is given up for the second though its branch is open. -/
theorem moves_bounded_on_disjunction :
    ∃ t u, (ofFormulas [.or (.atom "p") (.atom "q")]).Move t ∧ t.closed = false ∧
      [t, u].IsChain Move ∧ 1 < 3 ^ Formula.weightOfAll [.or (.atom "p") (.atom "q")] := by
  have hfirst : (ofFormulas [.or (.atom "p") (.atom "q")]).Move
      ((ofFormulas [.or (.atom "p") (.atom "q")]).expand 0) :=
    .expand (e := ⟨.or (.atom "p") (.atom "q"), false⟩) (by decide) rfl
  obtain ⟨u, hu⟩ : ∃ u,
      ((ofFormulas [.or (.atom "p") (.atom "q")]).expand 0).resume? = some u := ⟨_, rfl⟩
  have hchain : [(ofFormulas [.or (.atom "p") (.atom "q")]).expand 0, u].IsChain Move :=
    .cons_cons (.resume hu) (.singleton u)
  exact ⟨_, u, hfirst, by decide, hchain, (moves_bounded _).1 _ (.single hfirst) _ hchain⟩

end Tableau

end PropSat
