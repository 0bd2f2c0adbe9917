import PropSat.Tableau.State

/-!
# Why a tableau ends

Every part of a formula weighs less than the formula. The cost of a tableau counts, to the base
three, what is unexpanded on the branch and what would be unexpanded after going back to each
checkpoint. Expanding lowers it, since both alternatives together cost less than the formula, and
going back lowers it, since the branch given up no longer counts.
-/

namespace PropSat

namespace Formula

def weight : Formula → Nat
  | atom _ => 1
  | not f => 1 + f.weight
  | and f g | or f g | implies f g => 2 + f.weight + g.weight

def weightOfAll : List Formula → Nat
  | [] => 0
  | f :: fs => f.weight + weightOfAll fs

theorem weightOfAll_lt_of_expansion {f : Formula} {parts : List Formula}
    (h : f.expansion = .all parts) : weightOfAll parts < f.weight := by
  unfold expansion at h
  split at h <;> cases h <;> simp only [weightOfAll, weight] <;> omega

theorem weight_lt_of_expansion {f deferred chosen : Formula}
    (h : f.expansion = .either deferred chosen) :
    deferred.weight < f.weight ∧ chosen.weight < f.weight := by
  unfold expansion at h
  split at h <;> cases h <;> simp only [weight] <;> omega

end Formula

namespace Tableau

def openWeight : List Entry → Nat
  | [] => 0
  | e :: es => (if e.expanded then 0 else e.formula.weight) + openWeight es

/-- What may be spent on a weight: twice the budget of a smaller weight is less. -/
def budget : Nat → Nat
  | 0 => 1
  | n + 1 => 3 * budget n

def alternativeCost (t : Tableau) (c : Checkpoint) : Nat :=
  budget (openWeight (t.entriesAt c) + c.alternative.weight)

def alternativeCosts (t : Tableau) : List Checkpoint → Nat
  | [] => 0
  | c :: cs => t.alternativeCost c + t.alternativeCosts cs

def cost (t : Tableau) : Nat := budget (openWeight t.entries) + t.alternativeCosts t.checkpoints

/-- No checkpoint reaches beyond the branch and the trail, or beyond a later checkpoint. -/
structure Layered (t : Tableau) : Prop where
  within : ∀ c ∈ t.checkpoints, c.entryCount ≤ t.entries.length ∧ c.trailLength ≤ t.trail.length
  nested : t.checkpoints.Pairwise fun c d =>
    d.entryCount ≤ c.entryCount ∧ d.trailLength ≤ c.trailLength

theorem budget_pos (n : Nat) : 0 < budget n := by
  induction n with
  | zero => decide
  | succ n ih => simp only [budget]; omega

theorem budget_le {m n : Nat} (h : m ≤ n) : budget m ≤ budget n := by
  induction h with
  | refl => exact Nat.le_refl _
  | step _ ih => simp only [budget]; omega

theorem budget_add_lt {k m n : Nat} (hk : k < n) (hm : m < n) : budget k + budget m < budget n := by
  cases n with
  | zero => contradiction
  | succ n =>
      have := budget_le (Nat.le_of_lt_succ hk)
      have := budget_le (Nat.le_of_lt_succ hm)
      have := budget_pos n
      simp only [budget]
      omega

theorem budget_lt {m n : Nat} (h : m < n) : budget m < budget n := by
  have := budget_add_lt h h
  omega

theorem openWeight_append (es fs : List Entry) :
    openWeight (es ++ fs) = openWeight es + openWeight fs := by
  induction es with
  | nil => simp [openWeight]
  | cons e es ih => simp only [List.cons_append, openWeight, ih]; omega

theorem openWeight_mark {es : List Entry} {i : Nat} {e : Entry} (h : es[i]? = some e)
    (hu : e.expanded = false) :
    openWeight (es.modify i fun e => { e with expanded := true }) + e.formula.weight =
      openWeight es := by
  induction es generalizing i with
  | nil => simp at h
  | cons d es ih =>
      cases i with
      | zero =>
          simp only [List.getElem?_cons_zero, Option.some.injEq] at h
          subst h
          simp only [List.modify_zero_cons, openWeight, hu, if_true, Bool.false_eq_true, if_false]
          omega
      | succ i =>
          have := ih (by simpa using h)
          simp only [List.modify_succ_cons, openWeight]
          omega

theorem getElem?_entriesAt (c : Checkpoint) (t : Tableau) (j : Nat) :
    (t.entriesAt c)[j]? =
      if j < c.entryCount then
        t.entries[j]?.map fun e =>
          if j ∈ t.trail.drop c.trailLength then { e with expanded := false } else e
      else none := by
  simp only [entriesAt, reopen, List.getElem?_mapIdx, List.getElem?_take]
  by_cases h : j < c.entryCount <;> simp only [h, if_true, if_false, Option.map_none]

theorem length_entriesAt {c : Checkpoint} {t : Tableau} (h : c.entryCount ≤ t.entries.length) :
    (t.entriesAt c).length = c.entryCount := by
  simp [entriesAt, reopen, Nat.min_eq_left h]

theorem alternativeCosts_congr {t u : Tableau} {cs : List Checkpoint}
    (h : ∀ c ∈ cs, t.entriesAt c = u.entriesAt c) :
    t.alternativeCosts cs = u.alternativeCosts cs := by
  induction cs with
  | nil => rfl
  | cons c cs ih =>
      simp only [alternativeCosts, alternativeCost, h c (.head _)]
      rw [ih fun d hd => h d (.tail _ hd)]

/-! ## Adding a formula -/

theorem add_checkpoints (f : Formula) (t : Tableau) : (t.add f).checkpoints = t.checkpoints := by
  unfold add; split <;> rfl

theorem add_trail (f : Formula) (t : Tableau) : (t.add f).trail = t.trail := by
  unfold add; split <;> rfl

theorem exists_add_entries (f : Formula) (t : Tableau) :
    ∃ new, (t.add f).entries = t.entries ++ new ∧ openWeight new ≤ f.weight := by
  unfold add
  split
  · exact ⟨[], by simp, by simp [openWeight]⟩
  · refine ⟨_, rfl, ?_⟩
    simp only [openWeight]
    split <;> omega

theorem openWeight_add_le (f : Formula) (t : Tableau) :
    openWeight (t.add f).entries ≤ openWeight t.entries + f.weight := by
  obtain ⟨new, hn, hw⟩ := exists_add_entries f t
  rw [hn, openWeight_append]
  omega

theorem entriesAt_add {c : Checkpoint} {t : Tableau} (h : c.entryCount ≤ t.entries.length)
    (f : Formula) : (t.add f).entriesAt c = t.entriesAt c := by
  obtain ⟨new, hn, -⟩ := exists_add_entries f t
  simp [entriesAt, add_trail, hn, List.take_append_of_le_length h]

theorem alternativeCosts_add {t : Tableau} (h : t.Layered) (f : Formula) :
    (t.add f).alternativeCosts (t.add f).checkpoints = t.alternativeCosts t.checkpoints := by
  rw [add_checkpoints]
  exact alternativeCosts_congr fun c hc => entriesAt_add (h.within c hc).1 f

theorem Layered.add {t : Tableau} (h : t.Layered) (f : Formula) : (t.add f).Layered := by
  obtain ⟨new, hn, -⟩ := exists_add_entries f t
  refine ⟨fun c hc => ?_, by simpa [add_checkpoints] using h.nested⟩
  have := h.within c (by simpa [add_checkpoints] using hc)
  simp only [hn, add_trail, List.length_append]
  omega

theorem Layered.addAll {t : Tableau} (h : t.Layered) (fs : List Formula) :
    (t.addAll fs).Layered := by
  induction fs generalizing t with
  | nil => exact h
  | cons f fs ih => exact ih (h.add f)

theorem layered_empty : empty.Layered := ⟨by simp [empty], by simp [empty]⟩

theorem layered_ofFormulas (fs : List Formula) : (ofFormulas fs).Layered :=
  layered_empty.addAll _

theorem addAll_bounds {t : Tableau} (h : t.Layered) (fs : List Formula) :
    openWeight (t.addAll fs).entries ≤ openWeight t.entries + Formula.weightOfAll fs ∧
      (t.addAll fs).alternativeCosts (t.addAll fs).checkpoints =
        t.alternativeCosts t.checkpoints := by
  induction fs generalizing t with
  | nil => exact ⟨Nat.le_refl _, rfl⟩
  | cons f fs ih =>
      obtain ⟨hw, hc⟩ := ih (h.add f)
      have := openWeight_add_le f t
      refine ⟨?_, hc.trans (alternativeCosts_add h f)⟩
      simp only [addAll, List.foldl_cons, Formula.weightOfAll] at hw ⊢
      omega

/-! ## Expanding a formula -/

theorem entriesAt_mark {c : Checkpoint} {t : Tableau} {i : Nat} {e : Entry}
    (h : c.trailLength ≤ t.trail.length) (he : t.entries[i]? = some e) (hu : e.expanded = false) :
    (t.mark i).entriesAt c = t.entriesAt c := by
  apply List.ext_getElem?
  intro j
  simp only [getElem?_entriesAt, mark, List.getElem?_modify, List.drop_append_of_le_length h]
  by_cases hij : i = j
  · subst hij
    obtain ⟨f, x⟩ := e
    simp only at hu
    simp [he, hu]
  · cases t.entries[j]? <;> simp [hij, Ne.symm hij]

theorem Layered.mark {t : Tableau} (h : t.Layered) (i : Nat) : (t.mark i).Layered := by
  refine ⟨fun c hc => ?_, h.nested⟩
  have := h.within c hc
  simp only [Tableau.mark, List.length_modify, List.length_append, List.length_singleton]
  omega

theorem Layered.defer {t : Tableau} (h : t.Layered) (f : Formula) : (t.defer f).Layered := by
  refine ⟨fun c hc => ?_, List.pairwise_cons.mpr ⟨fun c hc => h.within c hc, h.nested⟩⟩
  rcases List.mem_cons.mp hc with rfl | hc
  · exact ⟨Nat.le_refl _, Nat.le_refl _⟩
  · exact h.within c hc

theorem Layered.expand {t : Tableau} (h : t.Layered) (i : Nat) : (t.expand i).Layered := by
  unfold Tableau.expand
  split
  · exact h
  · split
    · exact (h.mark i).addAll _
    · exact ((h.mark i).defer _).add _

theorem reopen_nil (es : List Entry) : reopen [] es = es := by
  simp [reopen, List.mapIdx_eq_iff]

theorem alternativeCosts_defer (f : Formula) (t : Tableau) :
    (t.defer f).alternativeCosts (t.defer f).checkpoints =
      budget (openWeight t.entries + f.weight) + t.alternativeCosts t.checkpoints := by
  have hnew : (t.defer f).alternativeCost ⟨t.entries.length, t.trail.length, f⟩ =
      budget (openWeight t.entries + f.weight) := by
    simp [alternativeCost, entriesAt, defer, reopen_nil]
  have hold : (t.defer f).alternativeCosts t.checkpoints = t.alternativeCosts t.checkpoints :=
    alternativeCosts_congr fun _ _ => rfl
  rw [← hnew, ← hold]
  rfl

theorem cost_expand_lt {t : Tableau} (h : t.Layered) {i : Nat} {e : Entry}
    (he : t.entries[i]? = some e) (hu : e.expanded = false) : (t.expand i).cost < t.cost := by
  have hw : openWeight (t.mark i).entries + e.formula.weight = openWeight t.entries :=
    openWeight_mark he hu
  have hc : (t.mark i).alternativeCosts (t.mark i).checkpoints = t.alternativeCosts t.checkpoints :=
    alternativeCosts_congr fun c hc => entriesAt_mark (h.within c hc).2 he hu
  unfold expand
  simp only [he]
  split
  · next parts hp =>
      obtain ⟨hle, hsame⟩ := addAll_bounds (h.mark i) parts
      have := Formula.weightOfAll_lt_of_expansion hp
      have hlt : openWeight ((t.mark i).addAll parts).entries < openWeight t.entries := by omega
      have := budget_lt hlt
      unfold cost
      omega
  · next deferred chosen hp =>
      obtain ⟨hd, hch⟩ := Formula.weight_lt_of_expansion hp
      have hsame := alternativeCosts_add ((h.mark i).defer deferred) chosen
      have hle : openWeight (((t.mark i).defer deferred).add chosen).entries ≤
          openWeight (t.mark i).entries + chosen.weight :=
        openWeight_add_le chosen ((t.mark i).defer deferred)
      have hnew := alternativeCosts_defer deferred (t.mark i)
      have := budget_add_lt (k := openWeight (((t.mark i).defer deferred).add chosen).entries)
        (m := openWeight (t.mark i).entries + deferred.weight) (n := openWeight t.entries)
        (by omega) (by omega)
      unfold cost
      omega

theorem exists_of_next? {t : Tableau} {i : Nat} (h : t.next? = some i) :
    ∃ e, t.entries[i]? = some e ∧ e.expanded = false := by
  unfold next? at h
  rcases Option.or_eq_some_iff.mp h with h | ⟨-, h⟩
  all_goals
    obtain ⟨hi, hp, -⟩ := List.findIdx?_eq_some_iff_getElem.mp h
    exact ⟨_, List.getElem?_eq_getElem hi, by simp_all⟩

/-! ## Going back -/

theorem entriesAt_rewind {c d : Checkpoint} {t : Tableau} (he : d.entryCount ≤ c.entryCount)
    (ht : d.trailLength ≤ c.trailLength) : (t.rewind c).entriesAt d = t.entriesAt d := by
  have hdrop : t.trail.drop d.trailLength =
      (t.trail.take c.trailLength).drop d.trailLength ++ t.trail.drop c.trailLength := by
    have : t.trail.drop c.trailLength =
        (t.trail.drop d.trailLength).drop (c.trailLength - d.trailLength) := by
      rw [List.drop_drop]
      congr
      omega
    rw [this, List.drop_take, List.take_append_drop]
  apply List.ext_getElem?
  intro j
  simp only [getElem?_entriesAt, rewind, hdrop, List.mem_append]
  split
  · rw [if_pos (by omega)]
    cases t.entries[j]? <;> grind
  · rfl

theorem Layered.rewind {t : Tableau} {c : Checkpoint} {cs : List Checkpoint} (h : t.Layered)
    (hc : t.checkpoints = c :: cs) : ({ t with checkpoints := cs }.rewind c).Layered := by
  have hn := h.nested
  rw [hc, List.pairwise_cons] at hn
  refine ⟨fun d hd => ?_, hn.2⟩
  have hw := h.within c (by simp [hc])
  have := hn.1 d hd
  have hlen := length_entriesAt (t := { t with checkpoints := cs }) hw.1
  simp only [Tableau.rewind, List.length_take, hlen]
  omega

theorem Layered.resume {t u : Tableau} (h : t.Layered) (hu : t.resume? = some u) : u.Layered := by
  unfold resume? at hu
  split at hu
  · contradiction
  · next c cs hc =>
      cases hu
      exact (h.rewind hc).add _

theorem cost_resume_lt {t u : Tableau} (h : t.Layered) (hu : t.resume? = some u) :
    u.cost < t.cost := by
  unfold resume? at hu
  split at hu
  · contradiction
  · next c cs hc =>
      cases hu
      have hn := h.nested
      rw [hc, List.pairwise_cons] at hn
      have hold : ({ t with checkpoints := cs }.rewind c).alternativeCosts cs =
          t.alternativeCosts cs :=
        alternativeCosts_congr fun d hd =>
          entriesAt_rewind (t := { t with checkpoints := cs }) (hn.1 d hd).1 (hn.1 d hd).2
      have hsame := (alternativeCosts_add (h.rewind hc) c.alternative).trans hold
      have hle := budget_le (openWeight_add_le c.alternative ({ t with checkpoints := cs }.rewind c))
      have hcost : t.cost = budget (openWeight t.entries) +
          (t.alternativeCost c + t.alternativeCosts cs) := by
        rw [cost, hc]
        rfl
      have halt : t.alternativeCost c =
          budget (openWeight ({ t with checkpoints := cs }.rewind c).entries +
            c.alternative.weight) := rfl
      have := budget_pos (openWeight t.entries)
      unfold cost at hcost ⊢
      omega

end Tableau

end PropSat
