import PropSat.Proofs.Tableau.Rewind

/-!
# The parts of a tableau agree

Branch, marks, set of formulas, trail and checkpoints change together, and each must match the
others between two expansions. Marking, deferring and adding keep marks and trail in step, as each
touches little. Going back cuts both and takes marks away. But it leads to a tableau that there was
before, and the record of a run has it.
-/

namespace PropSat.Tableau

/-- Apart from literals, what is expanded is what the trail lists, each position once. -/
structure Marked (t : Tableau) : Prop where
  trail_nodup : t.trail.Nodup
  lt_of_mem_trail : ∀ i ∈ t.trail, i < t.entries.length
  expanded_iff : ∀ i e, t.entries[i]? = some e →
    (e.expanded = true ↔ e.formula.isLiteral = true ∨ i ∈ t.trail)

variable {t : Tableau} {i : Nat} {e : Entry}

theorem marked_empty : empty.Marked where
  trail_nodup := List.nodup_nil
  lt_of_mem_trail := fun _ hi => absurd hi List.not_mem_nil
  expanded_iff := fun _ _ he => absurd he (by simp [empty])

theorem Marked.add (h : t.Marked) (f : Formula) : (t.add f).Marked := by
  unfold Tableau.add
  split
  · exact h
  · refine ⟨h.trail_nodup, fun i hi => ?_, fun i e he => ?_⟩
    · have hlt := h.lt_of_mem_trail i hi
      simp only [List.length_append, List.length_singleton]
      omega
    · rw [List.getElem?_append] at he
      split at he
      · exact h.expanded_iff i e he
      · next hlen =>
          have hnot : i ∉ t.trail := fun hi => hlen (h.lt_of_mem_trail i hi)
          obtain rfl := List.mem_singleton.mp (List.mem_of_getElem? he)
          exact (or_iff_left hnot).symm

theorem Marked.addAll (h : t.Marked) (fs : List Formula) : (t.addAll fs).Marked := by
  induction fs generalizing t with
  | nil => exact h
  | cons f fs ih => exact ih (h.add f)

theorem Marked.not_mem_trail (h : t.Marked) (he : t.entries[i]? = some e)
    (hu : e.expanded = false) : i ∉ t.trail := by
  intro hi
  have hexp := (h.expanded_iff i e he).mpr (.inr hi)
  rw [hu] at hexp
  contradiction

theorem Marked.mark (h : t.Marked) (he : t.entries[i]? = some e) (hu : e.expanded = false) :
    (t.mark i).Marked := by
  have hnew := h.not_mem_trail he hu
  refine ⟨?_, fun j hj => ?_, fun j d hd => ?_⟩
  · have hsnoc : (i :: t.trail).Perm (t.trail ++ [i]) := (List.perm_append_singleton i t.trail).symm
    exact hsnoc.nodup_iff.mp (List.nodup_cons.mpr ⟨hnew, h.trail_nodup⟩)
  · simp only [Tableau.mark, List.length_modify]
    rcases List.mem_append.mp hj with hold | hlast
    · exact h.lt_of_mem_trail j hold
    · rw [List.mem_singleton.mp hlast]
      exact (List.getElem?_eq_some_iff.mp he).1
  · simp only [Tableau.mark, List.getElem?_modify, List.mem_append, List.mem_singleton] at hd ⊢
    by_cases hij : i = j
    · subst hij
      simp only [he, if_true, Option.map_eq_map, Option.map_some, Option.some.injEq] at hd
      subst hd
      simp
    · simp only [if_neg hij, id_map'] at hd
      rw [h.expanded_iff j d hd, or_iff_left (Ne.symm hij)]

theorem Marked.defer (h : t.Marked) (f : Formula) : (t.defer f).Marked :=
  ⟨h.trail_nodup, h.lt_of_mem_trail, h.expanded_iff⟩

/-- Along a run marks and trail agree, on the current branch and on those recorded, to which going
back leads. -/
theorem Recorded.marked {fs : List Formula} {saved : List (Tableau × Formula)}
    (h : (ofFormulas fs).Recorded t saved) : t.Marked ∧ ∀ r ∈ saved, r.1.Marked := by
  induction h with
  | start => exact ⟨marked_empty.addAll _, fun _ hr => absurd hr List.not_mem_nil⟩
  | all _ he hu _ ih => exact ⟨(ih.1.mark he hu).addAll _, ih.2⟩
  | either _ he hu _ ih =>
      have hmark := ih.1.mark he hu
      exact ⟨(hmark.defer _).add _, List.forall_mem_cons.mpr ⟨hmark, ih.2⟩⟩
  | resume hrec hu ih =>
      obtain ⟨-, hsaved⟩ := hrec.rewinds_eq (layered_ofFormulas fs) (checkpoints_ofFormulas fs)
      obtain ⟨s, f, hmet, rfl, -⟩ := exists_of_resume? hu
      rw [← hsaved, hmet] at ih ⊢
      obtain ⟨hs, hrest⟩ := List.forall_mem_cons.mp ih.2
      exact ⟨hs.add f, hrest⟩

theorem marked_of_reaches {fs : List Formula} (h : (ofFormulas fs).Reaches t) : t.Marked := by
  obtain ⟨saved, hrec⟩ := exists_recorded_of_reaches h
  exact hrec.marked.1

/-- How the parts of a tableau agree: the branch has no repetitions and is mirrored by the set of
formulas, its marks by the trail, and the checkpoints lie one within the other. Where a formula is
expanded, its parts are on the branch, or one of them if there are alternatives. That there are as
many marks as formulas (`flags`) holds of every tableau, as an entry is a formula with its mark; it
says nothing of runs. -/
structure Consistent (t : Tableau) : Prop extends Coherent t, Marked t, Layered t where
  flags : (t.entries.map Entry.expanded).length = t.formulas.length
  met : ∀ e ∈ t.entries, e.expanded = true → e.formula.expansion.MetBy (· ∈ t.formulas)

theorem Consistent.of_develops {fs : List Formula} (h : t.Develops fs) (hm : t.Marked) :
    t.Consistent where
  toCoherent := h.coherent
  toMarked := hm
  toLayered := h.layered
  flags := by rw [formulas, List.length_map, List.length_map]
  met := by
    intro e he hexp
    have hmet := (h.develops t.branch List.mem_cons_self).met e he hexp
    exact hmet.imp fun p _ hp => mem_formulas_branch.mp hp

/-- Wherever a run can get, all parts of the tableau agree. Between two expansions, where the branch
is open, it has no atom together with its negation. -/
theorem consistent_of_reaches {fs : List Formula} (h : (ofFormulas fs).Reaches t) :
    t.Consistent ∧
      (t.closed = false → ∀ name, .atom name ∈ t.formulas → .not (.atom name) ∉ t.formulas) := by
  have hdev := h.invariant (fun _ _ ht hs => Develops.step ht hs) (develops_ofFormulas fs)
  exact ⟨.of_develops hdev (marked_of_reaches h),
    fun hopen _ hpos => hdev.coherent.notMem_of_open hopen hpos⟩

/-- Back from the second part of the second disjunction, with the first one still deferred. -/
theorem consistent_of_reaches_after_resume :
    ∃ t, (ofFormulas [.or (.atom "p") (.atom "q"), .or (.atom "r") (.atom "s"),
        .not (.atom "s")]).Reaches t ∧
      t.checkpoints = [⟨3, 1, .atom "p"⟩] ∧ t.trail = [1, 2] ∧
      t.formulas.drop 3 = [.atom "q", .atom "r"] ∧ t.closed = false ∧ t.Consistent ∧
      ∀ name, .atom name ∈ t.formulas → .not (.atom name) ∉ t.formulas := by
  let t₀ := ofFormulas [.or (.atom "p") (.atom "q"), .or (.atom "r") (.atom "s"), .not (.atom "s")]
  obtain ⟨t, hresume, hcheckpoints, htrail, hdrop, hopen⟩ :
      ∃ t, ((t₀.expand 1).expand 2).resume? = some t ∧ t.checkpoints = [⟨3, 1, .atom "p"⟩] ∧
        t.trail = [1, 2] ∧ t.formulas.drop 3 = [.atom "q", .atom "r"] ∧ t.closed = false :=
    ⟨_, rfl, by decide, by decide, by decide, by decide⟩
  have hfirst : t₀.Step (t₀.expand 1) := .expand (by decide) (by decide)
  have hsecond : (t₀.expand 1).Step ((t₀.expand 1).expand 2) := .expand (by decide) (by decide)
  have hback : ((t₀.expand 1).expand 2).Step t := .resume (by decide) hresume
  have hreach : t₀.Reaches t := .tail (.tail (.tail .refl hfirst) hsecond) hback
  obtain ⟨hcons, hno⟩ := consistent_of_reaches hreach
  exact ⟨t, hreach, hcheckpoints, htrail, hdrop, hopen, hcons, hno hopen⟩

end PropSat.Tableau
