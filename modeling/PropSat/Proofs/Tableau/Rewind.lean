import PropSat.Proofs.Tableau.Decision

/-!
# Going back restores the tableau

A checkpoint holds lengths only. Nothing done after an alternative is deferred touches what lies
within these lengths, apart from marks that the trail records, and a formula is put on the branch
only if it is not there. So cutting back leads to the very tableau from which the alternative was
deferred, with its branch, its marks, its set of formulas, its trail and its earlier checkpoints.
-/

namespace PropSat.Tableau

variable {t u : Tableau} {c : Checkpoint} {i : Nat} {e : Entry}

/-! ## Going back -/

theorem mem_present_rewind {f : Formula} :
    f ∈ (t.rewind c).present ↔
      f ∈ t.present ∧ f ∉ (t.entries.drop c.entryCount).map Entry.formula :=
  mem_foldl_erase

/-- Where branch, trail and set of formulas are cut back alike, so is the tableau. -/
theorem rewind_congr (he : u.entriesAt c = t.entriesAt c)
    (hp : ∀ f, f ∈ (u.rewind c).present ↔ f ∈ (t.rewind c).present)
    (ht : u.trail.take c.trailLength = t.trail.take c.trailLength)
    (hc : u.checkpoints = t.checkpoints) : u.rewind c = t.rewind c := by
  have hpresent : (u.rewind c).present = (t.rewind c).present := Std.ExtTreeSet.ext_mem hp
  unfold rewind at hpresent ⊢
  simp only at hpresent
  rw [he, hpresent, ht, hc]

theorem rewind_add (h : c.entryCount ≤ t.entries.length) (f : Formula) :
    (t.add f).rewind c = t.rewind c := by
  by_cases hf : f ∈ t.present
  · rw [add, if_pos hf]
  refine rewind_congr (entriesAt_add h f) (fun g => ?_) (by rw [add_trail]) (add_checkpoints f t)
  rw [mem_present_rewind, mem_present_rewind, add, if_neg hf]
  simp only [List.drop_append_of_le_length h, List.map_append, List.map_cons, List.map_nil,
    List.mem_append, List.mem_singleton, not_or, Std.ExtTreeSet.mem_insert,
    Std.LawfulEqOrd.compare_eq_iff_eq]
  constructor
  · rintro ⟨hfg | hg, hnot, hne⟩
    · exact absurd hfg.symm hne
    · exact ⟨hg, hnot⟩
  · rintro ⟨hg, hnot⟩
    exact ⟨.inr hg, hnot, fun heq => hf (heq ▸ hg)⟩

theorem rewind_mark (h : c.trailLength ≤ t.trail.length) (he : t.entries[i]? = some e)
    (hu : e.expanded = false) : (t.mark i).rewind c = t.rewind c := by
  have hformulas : (t.mark i).entries.map Entry.formula = t.entries.map Entry.formula :=
    map_formula_marked t.entries i
  refine rewind_congr (entriesAt_mark h he hu) (fun g => ?_) (List.take_append_of_le_length h) rfl
  rw [mem_present_rewind, mem_present_rewind, List.map_drop, List.map_drop, hformulas]
  rfl

theorem rewind_self (t : Tableau) (f : Formula) :
    t.rewind ⟨t.entries.length, t.trail.length, f⟩ = t := by
  simp [rewind, entriesAt, reopen_nil]

/-! ## Tableaux behind the checkpoints -/

def rewindAll : List Checkpoint → Tableau → List (Tableau × Formula)
  | [], _ => []
  | c :: cs, t =>
      let u := { t with checkpoints := cs }.rewind c
      (u, c.alternative) :: rewindAll cs u

/-- The tableaux that are met by going back again and again, each with its alternative. -/
def rewinds (t : Tableau) : List (Tableau × Formula) := rewindAll t.checkpoints t

theorem rewinds_of_nil (h : t.checkpoints = []) : t.rewinds = [] := by
  rw [rewinds, h, rewindAll]

theorem rewinds_of_cons {cs : List Checkpoint} (h : t.checkpoints = c :: cs) :
    t.rewinds = ({ t with checkpoints := cs }.rewind c, c.alternative) ::
      ({ t with checkpoints := cs }.rewind c).rewinds := by
  rw [rewinds, h, rewindAll]
  rfl

theorem rewinds_congr (hc : u.checkpoints = t.checkpoints)
    (h : ∀ c ∈ t.checkpoints, u.rewind c = t.rewind c) : u.rewinds = t.rewinds := by
  cases hs : t.checkpoints with
  | nil => rw [rewinds_of_nil hs, rewinds_of_nil (hc.trans hs)]
  | cons c cs =>
      have hsame : { u with checkpoints := cs }.rewind c = { t with checkpoints := cs }.rewind c :=
        congrArg (fun w : Tableau => { w with checkpoints := cs })
          (h c (hs ▸ List.mem_cons_self))
      rw [rewinds_of_cons hs, rewinds_of_cons (hc.trans hs), hsame]

theorem Layered.rewinds_add (h : t.Layered) (f : Formula) : (t.add f).rewinds = t.rewinds :=
  rewinds_congr (add_checkpoints f t) fun c hc => rewind_add (h.within c hc).1 f

theorem Layered.rewinds_addAll (h : t.Layered) (fs : List Formula) :
    (t.addAll fs).rewinds = t.rewinds := by
  induction fs generalizing t with
  | nil => rfl
  | cons f fs ih => exact (ih (h.add f)).trans (h.rewinds_add f)

theorem Layered.rewinds_mark (h : t.Layered) (he : t.entries[i]? = some e)
    (hu : e.expanded = false) : (t.mark i).rewinds = t.rewinds :=
  rewinds_congr rfl fun c hc => rewind_mark (h.within c hc).2 he hu

theorem rewinds_defer (f : Formula) (t : Tableau) :
    (t.defer f).rewinds = (t, f) :: t.rewinds := by
  have hself : { t.defer f with checkpoints := t.checkpoints }.rewind
      ⟨t.entries.length, t.trail.length, f⟩ = t := rewind_self t f
  have hcons : (t.defer f).checkpoints =
      ⟨t.entries.length, t.trail.length, f⟩ :: t.checkpoints := rfl
  rw [rewinds_of_cons hcons, hself]

theorem resume?_eq_none_iff : t.resume? = none ↔ t.rewinds = [] := by
  cases h : t.checkpoints with
  | nil => simp [resume?, h, rewinds_of_nil h]
  | cons c cs => simp [resume?, h, rewinds_of_cons h]

/-- The tableau that is taken up is the first met, with its alternative on it. -/
theorem exists_of_resume? (hu : t.resume? = some u) :
    ∃ s f, t.rewinds = (s, f) :: s.rewinds ∧ u = s.add f ∧ (t.Layered → s.Layered) := by
  unfold resume? at hu
  split at hu
  · contradiction
  · next c cs hc =>
      cases hu
      exact ⟨_, c.alternative, rewinds_of_cons hc, rfl, fun hl => hl.rewind hc⟩

/-! ## Recorded runs -/

/-- Some steps lead from the first tableau to the second: an unexpanded formula is expanded, or the
alternative deferred last is taken up. The list records the alternatives still deferred, the latest
first, each with the whole tableau at the moment when it was deferred. -/
inductive Recorded (t₀ : Tableau) : Tableau → List (Tableau × Formula) → Prop where
  | start : Recorded t₀ t₀ []
  | all {t : Tableau} {saved : List (Tableau × Formula)} {i : Nat} {e : Entry}
      {parts : List Formula} (h : Recorded t₀ t saved) (he : t.entries[i]? = some e)
      (hu : e.expanded = false) (hx : e.formula.expansion = .all parts) :
      Recorded t₀ ((t.mark i).addAll parts) saved
  | either {t : Tableau} {saved : List (Tableau × Formula)} {i : Nat} {e : Entry} {f g : Formula}
      (h : Recorded t₀ t saved) (he : t.entries[i]? = some e) (hu : e.expanded = false)
      (hx : e.formula.expansion = .either f g) :
      Recorded t₀ (((t.mark i).defer f).add g) ((t.mark i, f) :: saved)
  | resume {t u : Tableau} {saved : List (Tableau × Formula)} (h : Recorded t₀ t saved)
      (hu : t.resume? = some u) : Recorded t₀ u saved.tail

/-- Going back meets exactly what is recorded. -/
theorem Recorded.rewinds_eq {t₀ : Tableau} {saved : List (Tableau × Formula)} (h₀ : t₀.Layered)
    (hempty : t₀.checkpoints = []) (h : t₀.Recorded t saved) : t.Layered ∧ t.rewinds = saved := by
  induction h with
  | start => exact ⟨h₀, rewinds_of_nil hempty⟩
  | @all t saved i e parts _ he hu hx ih =>
      obtain ⟨hl, hsaved⟩ := ih
      have hmark := hl.mark i
      refine ⟨hmark.addAll parts, ?_⟩
      rw [hmark.rewinds_addAll, hl.rewinds_mark he hu, hsaved]
  | @either t saved i e f g _ he hu hx ih =>
      obtain ⟨hl, hsaved⟩ := ih
      have hdefer := (hl.mark i).defer f
      refine ⟨hdefer.add g, ?_⟩
      rw [hdefer.rewinds_add, rewinds_defer, hl.rewinds_mark he hu, hsaved]
  | @resume t u saved _ hu ih =>
      obtain ⟨hl, hsaved⟩ := ih
      obtain ⟨s, f, hmet, rfl, hs⟩ := exists_of_resume? hu
      refine ⟨(hs hl).add f, ?_⟩
      rw [(hs hl).rewinds_add, ← hsaved, hmet, List.tail_cons]

theorem exists_recorded_of_reaches {t₀ : Tableau} (h : t₀.Reaches t) :
    ∃ saved, t₀.Recorded t saved := by
  refine h.invariant (P := fun t => ∃ saved, t₀.Recorded t saved) ?_ ⟨[], .start⟩
  rintro t u ⟨saved, hrec⟩ hs
  cases hs with
  | resume hc hu => exact ⟨saved.tail, hrec.resume hu⟩
  | expand hc hi =>
      obtain ⟨e, he, hu⟩ := exists_of_next? hi
      cases hx : e.formula.expansion with
      | all parts => exact ⟨saved, expand_of_all he hx ▸ hrec.all he hu hx⟩
      | either f g => exact ⟨_, expand_of_either he hx ▸ hrec.either he hu hx⟩

end PropSat.Tableau
