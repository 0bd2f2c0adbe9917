import PropSat.Tableau.Search

/-!
# The branches of a tableau

A tableau stands for a stack of branches: the current one, and for each checkpoint the branch as it
was with the alternative still due on it. Expanding a formula rewrites the branch on top, going back
drops it, and neither touches the branches below.
-/

namespace PropSat.Tableau

/-- The set of formulas on the branch mirrors the list, which has no repetitions. -/
structure Coherent (t : Tableau) : Prop where
  nodup : t.formulas.Nodup
  mem_present : ∀ f, f ∈ t.present ↔ f ∈ t.formulas

def Entry.fresh (f : Formula) : Entry := ⟨f, f.isLiteral⟩

/-- A branch on which some formulas are still to be put. -/
structure Branch where
  entries : List Entry
  due : List Formula

namespace Branch

def formulas (b : Branch) : List Formula := b.entries.map Entry.formula ++ b.due

def put (es : List Entry) (f : Formula) : List Entry :=
  if f ∈ es.map Entry.formula then es else es ++ [.fresh f]

def enter (b : Branch) : Branch := ⟨b.due.foldl put b.entries, []⟩

theorem mem_map_put {es : List Entry} {f g : Formula} :
    g ∈ (put es f).map Entry.formula ↔ g ∈ es.map Entry.formula ∨ g = f := by
  unfold put
  by_cases hf : f ∈ es.map Entry.formula
  · rw [if_pos hf]
    constructor
    · exact .inl
    · intro hor
      rcases hor with hg | rfl
      · exact hg
      · exact hf
  · rw [if_neg hf, List.map_append, List.mem_append]
    simp [Entry.fresh]

theorem mem_of_mem_put {es : List Entry} {f : Formula} {e : Entry} (h : e ∈ put es f) :
    e ∈ es ∨ e = .fresh f := by
  unfold put at h
  split at h
  · exact .inl h
  · simpa using h

theorem mem_map_foldl_put {es : List Entry} {fs : List Formula} {g : Formula} :
    g ∈ (fs.foldl put es).map Entry.formula ↔ g ∈ es.map Entry.formula ∨ g ∈ fs := by
  induction fs generalizing es with
  | nil => simp
  | cons f fs ih => rw [List.foldl_cons, ih, mem_map_put, List.mem_cons, or_assoc]

theorem mem_of_mem_foldl_put {es : List Entry} {fs : List Formula} {e : Entry}
    (h : e ∈ fs.foldl put es) : e ∈ es ∨ ∃ f ∈ fs, e = .fresh f := by
  induction fs generalizing es with
  | nil => exact .inl h
  | cons f fs ih =>
      rcases ih h with hput | ⟨g, hg, hfresh⟩
      · rcases mem_of_mem_put hput with hes | hfresh
        · exact .inl hes
        · exact .inr ⟨f, List.mem_cons_self, hfresh⟩
      · exact .inr ⟨g, List.mem_cons_of_mem f hg, hfresh⟩

theorem mem_formulas_enter {b : Branch} {f : Formula} : f ∈ b.enter.formulas ↔ f ∈ b.formulas := by
  unfold formulas enter
  rw [List.append_nil, mem_map_foldl_put, List.mem_append]

end Branch

def branch (t : Tableau) : Branch := ⟨t.entries, []⟩

/-- The branch to which a checkpoint leads. -/
def deferred (t : Tableau) (c : Checkpoint) : Branch := ⟨t.entriesAt c, [c.alternative]⟩

def branches (t : Tableau) : List Branch := t.branch :: t.checkpoints.map t.deferred

/-! ## Adding formulas -/

theorem Coherent.entries_add {t : Tableau} (h : t.Coherent) (f : Formula) :
    (t.add f).entries = Branch.put t.entries f := by
  have hmem : f ∈ t.present ↔ f ∈ t.entries.map Entry.formula := h.mem_present f
  unfold add Branch.put
  by_cases hf : f ∈ t.present
  · rw [if_pos hf, if_pos (hmem.mp hf)]
  · rw [if_neg hf, if_neg fun hm => hf (hmem.mpr hm)]
    rfl

theorem Coherent.add {t : Tableau} (h : t.Coherent) (f : Formula) : (t.add f).Coherent := by
  unfold Tableau.add
  by_cases hf : f ∈ t.present
  · rw [if_pos hf]
    exact h
  · rw [if_neg hf]
    have hnew : f ∉ t.formulas := fun hm => hf ((h.mem_present f).mpr hm)
    constructor
    · simp only [formulas, List.map_append, List.map_cons, List.map_nil]
      refine List.nodup_append.mpr ⟨h.nodup, by simp, ?_⟩
      intro g hg k hk heq
      rw [List.mem_singleton.mp hk] at heq
      exact hnew (heq ▸ hg)
    · intro g
      have hg := h.mem_present g
      unfold formulas at hg ⊢
      simp only [Std.ExtTreeSet.mem_insert, Std.LawfulEqOrd.compare_eq_iff_eq, List.map_append,
        List.map_cons, List.map_nil, List.mem_append, List.mem_singleton, hg]
      rw [or_comm, eq_comm]

theorem Coherent.entries_addAll {t : Tableau} (h : t.Coherent) (fs : List Formula) :
    (t.addAll fs).entries = fs.foldl Branch.put t.entries := by
  induction fs generalizing t with
  | nil => rfl
  | cons f fs ih => rw [List.foldl_cons, ← h.entries_add f, ← ih (h.add f)]; rfl

theorem Coherent.addAll {t : Tableau} (h : t.Coherent) (fs : List Formula) :
    (t.addAll fs).Coherent := by
  induction fs generalizing t with
  | nil => exact h
  | cons f fs ih => exact ih (h.add f)

theorem coherent_empty : empty.Coherent :=
  ⟨List.nodup_nil, fun f => by simp [empty, formulas]⟩

theorem coherent_ofFormulas (fs : List Formula) : (ofFormulas fs).Coherent :=
  coherent_empty.addAll _

theorem addAll_checkpoints (fs : List Formula) (t : Tableau) :
    (t.addAll fs).checkpoints = t.checkpoints := by
  induction fs generalizing t with
  | nil => rfl
  | cons f fs ih => exact (ih (t.add f)).trans (add_checkpoints f t)

theorem checkpoints_ofFormulas (fs : List Formula) : (ofFormulas fs).checkpoints = [] :=
  addAll_checkpoints _ empty

theorem Layered.deferred_addAll {t : Tableau} (h : t.Layered) (fs : List Formula) :
    ∀ c ∈ t.checkpoints, (t.addAll fs).deferred c = t.deferred c := by
  induction fs generalizing t with
  | nil => exact fun c _ => rfl
  | cons f fs ih =>
      intro c hc
      have hrest := ih (h.add f) c (by rwa [add_checkpoints])
      have hone : (t.add f).deferred c = t.deferred c := by
        rw [deferred, entriesAt_add (h.within c hc).1, deferred]
      exact hrest.trans hone

theorem branches_addAll {t : Tableau} (h : t.Coherent) (hl : t.Layered) (fs : List Formula) :
    (t.addAll fs).branches = (Branch.mk t.entries fs).enter :: t.checkpoints.map t.deferred := by
  unfold branches branch Branch.enter
  rw [h.entries_addAll, addAll_checkpoints, List.map_congr_left (hl.deferred_addAll fs)]

theorem branches_ofFormulas (fs : List Formula) :
    (ofFormulas fs).branches =
      [(Branch.mk [] (fs.filter (!·.branching) ++ fs.filter (·.branching))).enter] :=
  branches_addAll coherent_empty ⟨by simp [empty], by simp [empty]⟩ _

/-! ## Expanding a formula -/

def marked (es : List Entry) (i : Nat) : List Entry :=
  es.modify i fun e => { e with expanded := true }

theorem map_formula_marked (es : List Entry) (i : Nat) :
    (marked es i).map Entry.formula = es.map Entry.formula := by
  apply List.ext_getElem?
  intro j
  simp only [marked, List.getElem?_map, List.getElem?_modify]
  split <;> cases es[j]? <;> rfl

theorem Coherent.mark {t : Tableau} (h : t.Coherent) (i : Nat) : (t.mark i).Coherent := by
  have hf : (t.mark i).formulas = t.formulas := map_formula_marked t.entries i
  exact ⟨hf ▸ h.nodup, hf ▸ h.mem_present⟩

theorem Coherent.defer {t : Tableau} (h : t.Coherent) (f : Formula) : (t.defer f).Coherent :=
  ⟨h.nodup, h.mem_present⟩

theorem Coherent.expand {t : Tableau} (h : t.Coherent) (i : Nat) : (t.expand i).Coherent := by
  unfold Tableau.expand
  split
  · exact h
  · split
    · exact (h.mark i).addAll _
    · exact ((h.mark i).defer _).add _

section

variable {t : Tableau} {i : Nat} {e : Entry}

theorem Layered.deferred_mark (h : t.Layered) (he : t.entries[i]? = some e)
    (hu : e.expanded = false) :
    t.checkpoints.map (t.mark i).deferred = t.checkpoints.map t.deferred := by
  apply List.map_congr_left
  intro c hc
  rw [deferred, entriesAt_mark (h.within c hc).2 he hu, deferred]

theorem expand_of_all {parts : List Formula} (he : t.entries[i]? = some e)
    (hx : e.formula.expansion = .all parts) : t.expand i = (t.mark i).addAll parts := by
  unfold expand
  simp only [he, hx]

theorem expand_of_either {f g : Formula} (he : t.entries[i]? = some e)
    (hx : e.formula.expansion = .either f g) : t.expand i = ((t.mark i).defer f).add g := by
  unfold expand
  simp only [he, hx]

/-- All parts come on the branch that is expanded. -/
theorem branches_expand_all (h : t.Coherent) (hl : t.Layered) (he : t.entries[i]? = some e)
    (hu : e.expanded = false) {parts : List Formula} (hp : e.formula.expansion = .all parts) :
    (t.expand i).branches =
      (Branch.mk (marked t.entries i) parts).enter :: t.checkpoints.map t.deferred := by
  rw [expand_of_all he hp, branches_addAll (h.mark i) (hl.mark i), ← hl.deferred_mark he hu]
  rfl

/-- The chosen part comes on the branch that is expanded, the other on a copy of it. -/
theorem branches_expand_either (h : t.Coherent) (hl : t.Layered) (he : t.entries[i]? = some e)
    (hu : e.expanded = false) {f g : Formula} (hp : e.formula.expansion = .either f g) :
    (t.expand i).branches =
      (Branch.mk (marked t.entries i) [g]).enter :: Branch.mk (marked t.entries i) [f] ::
        t.checkpoints.map t.deferred := by
  have hexpand : t.expand i = ((t.mark i).defer f).addAll [g] := expand_of_either he hp
  have hnew : ((t.mark i).defer f).deferred
      ⟨(t.mark i).entries.length, (t.mark i).trail.length, f⟩ = ⟨marked t.entries i, [f]⟩ := by
    simp [deferred, entriesAt, Tableau.defer, reopen_nil, Tableau.mark, marked,
      List.take_of_length_le]
  rw [hexpand, branches_addAll ((h.mark i).defer f) ((hl.mark i).defer f), ← hl.deferred_mark he hu,
    ← hnew]
  rfl

end

/-! ## Going back -/

theorem map_formula_reopen (positions : List Nat) (es : List Entry) :
    (reopen positions es).map Entry.formula = es.map Entry.formula := by
  apply List.ext_getElem?
  intro j
  simp only [reopen, List.getElem?_map, List.getElem?_mapIdx]
  cases es[j]? with
  | none => rfl
  | some e => simp only [Option.map_some]; split <;> rfl

theorem formulas_rewind (t : Tableau) (c : Checkpoint) :
    (t.rewind c).formulas = t.formulas.take c.entryCount := by
  simp only [rewind, formulas, entriesAt, map_formula_reopen, List.map_take]

theorem mem_foldl_erase {s : FormulaSet} {es : List Entry} {f : Formula} :
    f ∈ es.foldl (fun s e => s.erase e.formula) s ↔ f ∈ s ∧ f ∉ es.map Entry.formula := by
  induction es generalizing s with
  | nil => simp
  | cons e es ih =>
      rw [List.foldl_cons, ih, Std.ExtTreeSet.mem_erase, List.map_cons, List.mem_cons, not_or,
        and_assoc, and_left_comm]
      simp only [ne_eq, Std.LawfulEqOrd.compare_eq_iff_eq]
      rw [eq_comm]

theorem Coherent.rewind {t : Tableau} (h : t.Coherent) (c : Checkpoint) :
    (t.rewind c).Coherent := by
  have hsplit : t.formulas = t.formulas.take c.entryCount ++ t.formulas.drop c.entryCount :=
    (List.take_append_drop c.entryCount t.formulas).symm
  have hnodup := h.nodup
  rw [hsplit, List.nodup_append] at hnodup
  obtain ⟨htake, -, hdisjoint⟩ := hnodup
  constructor
  · rw [formulas_rewind]
    exact htake
  · intro f
    have hdrop : (t.entries.drop c.entryCount).map Entry.formula = t.formulas.drop c.entryCount :=
      List.map_drop
    rw [formulas_rewind]
    simp only [Tableau.rewind]
    rw [mem_foldl_erase, h.mem_present, hdrop]
    constructor
    · intro hand
      rcases hand with ⟨hf, hnot⟩
      rw [hsplit, List.mem_append] at hf
      exact hf.resolve_right hnot
    · intro hf
      exact ⟨List.mem_of_mem_take hf, fun hd => hdisjoint f hf f hd rfl⟩

theorem Coherent.resume {t u : Tableau} (h : t.Coherent) (hu : t.resume? = some u) :
    u.Coherent := by
  unfold resume? at hu
  split at hu
  · contradiction
  · next c cs hc =>
      cases hu
      have hpop : ({ t with checkpoints := cs } : Tableau).Coherent := ⟨h.nodup, h.mem_present⟩
      exact (hpop.rewind c).add _

theorem checkpoints_of_resume? {t : Tableau} (h : t.resume? = none) : t.checkpoints = [] := by
  unfold resume? at h
  split at h
  · assumption
  · contradiction

/-- The branch deferred last becomes the current one. -/
theorem branches_resume {t u : Tableau} (h : t.Coherent) (hl : t.Layered)
    (hu : t.resume? = some u) :
    ∃ b bs, t.branches = t.branch :: b :: bs ∧ u.branches = b.enter :: bs := by
  unfold resume? at hu
  split at hu
  · contradiction
  · next c cs hc =>
      cases hu
      have hpop : ({ t with checkpoints := cs } : Tableau).Coherent := ⟨h.nodup, h.mem_present⟩
      have hn := hl.nested
      rw [hc, List.pairwise_cons] at hn
      have hbelow : ∀ d ∈ cs,
          ({ t with checkpoints := cs }.rewind c).deferred d = t.deferred d := by
        intro d hd
        have hat := entriesAt_rewind (t := { t with checkpoints := cs }) (hn.1 d hd).1 (hn.1 d hd).2
        unfold deferred
        rw [hat]
        rfl
      refine ⟨t.deferred c, cs.map t.deferred, by rw [branches, hc, List.map_cons], ?_⟩
      have hadd := branches_addAll (hpop.rewind c) (hl.rewind hc) [c.alternative]
      refine hadd.trans ?_
      rw [← List.map_congr_left hbelow]
      rfl

end PropSat.Tableau
