import PropSat.Proofs.Tableau.Branch
import PropSat.Proofs.Tableau.Expansion

/-!
# Tableau search decides satisfiability

Every branch of the tableau contains the given formulas and, of each expanded formula, what its
expansion asks for. On an open branch with nothing left to expand the literals therefore make all
formulas true. An assignment that makes the given formulas true makes some branch true at any time,
and no such branch is closed.
-/

namespace PropSat

theorem Formula.expansion_of_isLiteral {f : Formula} (h : f.isLiteral = true) :
    f.expansion = .all [] := by
  unfold isLiteral literal? at h
  split at h
  · rfl
  · rfl
  · contradiction

namespace Tableau

namespace Branch

variable {fs : List Formula} {σ : Assignment String}

/-- The branch comes from the formulas by expansion. -/
structure Develops (fs : List Formula) (b : Branch) : Prop where
  contains : ∀ f ∈ fs, f ∈ b.formulas
  within : ∀ f ∈ b.formulas, ∀ name ∈ f.occurrences, ∃ g ∈ fs, name ∈ g.occurrences
  met : ∀ e ∈ b.entries, e.expanded = true → e.formula.expansion.MetBy (· ∈ b.formulas)

def TrueUnder (σ : Assignment String) (b : Branch) : Prop := ∀ f ∈ b.formulas, f.eval σ = true

theorem mem_formulas_of_mem_entries {b : Branch} {e : Entry} (he : e ∈ b.entries) :
    e.formula ∈ b.formulas :=
  List.mem_append_left _ (List.mem_map_of_mem he)

theorem Develops.enter {b : Branch} (h : b.Develops fs) : b.enter.Develops fs := by
  refine ⟨fun f hf => mem_formulas_enter.mpr (h.contains f hf),
    fun f hf => h.within f (mem_formulas_enter.mp hf), fun e he hexp => ?_⟩
  rcases mem_of_mem_foldl_put he with hold | ⟨f, -, rfl⟩
  · exact (h.met e hold hexp).imp fun p _ hp => mem_formulas_enter.mpr hp
  · have hall : f.expansion = .all [] := Formula.expansion_of_isLiteral hexp
    rw [Entry.fresh, hall]
    intro p hp
    contradiction

theorem TrueUnder.enter {b : Branch} (h : b.TrueUnder σ) : b.enter.TrueUnder σ :=
  fun f hf => h f (mem_formulas_enter.mp hf)

theorem mem_formulas_marked {es : List Entry} {i : Nat} {ps : List Formula} {f : Formula} :
    f ∈ (Branch.mk (marked es i) ps).formulas ↔ f ∈ es.map Entry.formula ∨ f ∈ ps := by
  rw [formulas, map_formula_marked, List.mem_append]

theorem mem_formulas_iff_map {es : List Entry} {f : Formula} :
    f ∈ (Branch.mk es []).formulas ↔ f ∈ es.map Entry.formula := by
  rw [formulas, List.append_nil]

section

variable {es : List Entry} {i : Nat} {e : Entry} {ps : List Formula}

theorem Develops.marked (h : (Branch.mk es []).Develops fs) (he : es[i]? = some e)
    (hps : ∀ p ∈ ps, p ∈ e.formula.expansion.parts) (hmet : e.formula.expansion.MetBy (· ∈ ps)) :
    (Branch.mk (marked es i) ps).Develops fs := by
  have hmem : e ∈ es := List.mem_of_getElem? he
  constructor
  · intro f hf
    exact mem_formulas_marked.mpr (.inl (mem_formulas_iff_map.mp (h.contains f hf)))
  · intro f hf name hn
    rcases mem_formulas_marked.mp hf with hold | hnew
    · exact h.within f (mem_formulas_iff_map.mpr hold) name hn
    · exact h.within e.formula (mem_formulas_of_mem_entries (b := ⟨es, []⟩) hmem) name
        (Formula.mem_occurrences_of_mem_parts (hps f hnew) hn)
  · intro d hd hexp
    obtain ⟨j, hj⟩ := List.getElem?_of_mem hd
    simp only [Tableau.marked, List.getElem?_modify] at hj
    by_cases hij : i = j
    · subst hij
      simp only [he, if_true, Option.map_eq_map, Option.map_some] at hj
      cases hj
      exact hmet.imp fun p _ hp => mem_formulas_marked.mpr (.inr hp)
    · simp only [if_neg hij, id_map'] at hj
      have hold := h.met d (List.mem_of_getElem? hj) hexp
      exact hold.imp fun p _ hp => mem_formulas_marked.mpr (.inl (mem_formulas_iff_map.mp hp))

theorem TrueUnder.marked (h : (Branch.mk es []).TrueUnder σ) (hps : ∀ p ∈ ps, p.eval σ = true)
    (i : Nat) : (Branch.mk (marked es i) ps).TrueUnder σ := by
  intro f hf
  rcases mem_formulas_marked.mp hf with hold | hnew
  · exact h f (mem_formulas_iff_map.mpr hold)
  · exact hps f hnew

end

def Closed (b : Branch) : Prop := ∃ name, .atom name ∈ b.formulas ∧ .not (.atom name) ∈ b.formulas

theorem Closed.not_trueUnder {b : Branch} (h : b.Closed) : ¬ b.TrueUnder σ := by
  intro htrue
  obtain ⟨name, hpos, hneg⟩ := h
  have hp := htrue _ hpos
  have hn := htrue _ hneg
  simp only [Formula.eval] at hp hn
  rw [hp] at hn
  contradiction

/-- One step on a stack of branches: a closed one is dropped for the next, or an entry of the one on
top is expanded. -/
inductive Step : List Branch → List Branch → Prop where
  | drop {b d : Branch} {bs : List Branch} (hb : b.Closed) : Step (b :: d :: bs) (d.enter :: bs)
  | all {es : List Entry} {i : Nat} {e : Entry} {parts : List Formula} {bs : List Branch}
      (he : es[i]? = some e) (hx : e.formula.expansion = .all parts) :
      Step (⟨es, []⟩ :: bs) (Branch.enter ⟨Tableau.marked es i, parts⟩ :: bs)
  | either {es : List Entry} {i : Nat} {e : Entry} {f g : Formula} {bs : List Branch}
      (he : es[i]? = some e) (hx : e.formula.expansion = .either f g) :
      Step (⟨es, []⟩ :: bs)
        (Branch.enter ⟨Tableau.marked es i, [g]⟩ :: ⟨Tableau.marked es i, [f]⟩ :: bs)

theorem Step.develops {bs cs : List Branch} (hs : Step bs cs) (h : ∀ b ∈ bs, b.Develops fs) :
    ∀ b ∈ cs, b.Develops fs := by
  cases hs with
  | drop hb =>
      obtain ⟨hd, hbs⟩ := List.forall_mem_cons.mp (List.forall_mem_cons.mp h).2
      exact List.forall_mem_cons.mpr ⟨hd.enter, hbs⟩
  | all he hx =>
      obtain ⟨htop, hbs⟩ := List.forall_mem_cons.mp h
      have hnew := htop.marked he (fun p hp => by rwa [hx]) (by rw [hx]; exact fun p hp => hp)
      exact List.forall_mem_cons.mpr ⟨hnew.enter, hbs⟩
  | @either es i e f g bs he hx =>
      obtain ⟨htop, hbs⟩ := List.forall_mem_cons.mp h
      have hf : (Branch.mk (Tableau.marked es i) [f]).Develops fs :=
        htop.marked he (by simp [hx, Expansion.parts]) (by simp [hx, Expansion.MetBy])
      have hg : (Branch.mk (Tableau.marked es i) [g]).Develops fs :=
        htop.marked he (by simp [hx, Expansion.parts]) (by simp [hx, Expansion.MetBy])
      exact List.forall_mem_cons.mpr ⟨hg.enter, List.forall_mem_cons.mpr ⟨hf, hbs⟩⟩

/-- Where some branch is true under the assignment, one is after the step. -/
theorem Step.live {bs cs : List Branch} (hs : Step bs cs) (h : ∃ b ∈ bs, b.TrueUnder σ) :
    ∃ b ∈ cs, b.TrueUnder σ := by
  obtain ⟨b, hb, htrue⟩ := h
  have hmet : ∀ {es : List Entry} {i : Nat} {e : Entry}, es[i]? = some e →
      (Branch.mk es []).TrueUnder σ → e.formula.expansion.MetBy (·.eval σ = true) := by
    intro es i e he htop
    exact Formula.metBy_of_eval
      (htop _ (mem_formulas_of_mem_entries (b := ⟨es, []⟩) (List.mem_of_getElem? he)))
  cases hs with
  | drop hclosed =>
      rcases List.mem_cons.mp hb with rfl | hb
      · exact absurd htrue hclosed.not_trueUnder
      rcases List.mem_cons.mp hb with rfl | hb
      · exact ⟨b.enter, List.mem_cons_self, htrue.enter⟩
      · exact ⟨b, List.mem_cons_of_mem _ hb, htrue⟩
  | all he hx =>
      rcases List.mem_cons.mp hb with rfl | hb
      · have hparts := hmet he htrue
        rw [hx] at hparts
        exact ⟨_, List.mem_cons_self, (TrueUnder.marked htrue hparts _).enter⟩
      · exact ⟨b, List.mem_cons_of_mem _ hb, htrue⟩
  | either he hx =>
      rcases List.mem_cons.mp hb with rfl | hb
      · have hparts := hmet he htrue
        rw [hx] at hparts
        rcases hparts with hf | hg
        · have hnew := TrueUnder.marked htrue (List.forall_mem_singleton.mpr hf)
          exact ⟨_, List.mem_cons_of_mem _ List.mem_cons_self, hnew _⟩
        · have hnew := TrueUnder.marked htrue (List.forall_mem_singleton.mpr hg)
          exact ⟨_, List.mem_cons_self, (hnew _).enter⟩
      · exact ⟨b, List.mem_cons_of_mem _ (List.mem_cons_of_mem _ hb), htrue⟩

end Branch

/-! ## Steps and runs -/

/-- A closed branch is given up for the one deferred last, an open one is expanded. -/
inductive Step (t : Tableau) : Tableau → Prop where
  | resume {u : Tableau} (hc : t.closed = true) (hu : t.resume? = some u) : Step t u
  | expand {i : Nat} (hc : t.closed = false) (hi : t.next? = some i) : Step t (t.expand i)

inductive Reaches (t : Tableau) : Tableau → Prop where
  | refl : Reaches t t
  | tail {u w : Tableau} (hu : Reaches t u) (hs : u.Step w) : Reaches t w

theorem Reaches.invariant {P : Tableau → Prop} (hstep : ∀ t u, P t → t.Step u → P u)
    {t u : Tableau} (h : P t) (hu : t.Reaches u) : P u := by
  induction hu with
  | refl => exact h
  | tail _ hs ih => exact hstep _ _ ih hs

/-- A run ends in a closed tableau without alternatives, or in an open one with nothing to expand,
and has there what each step preserves. -/
theorem run_spec {P : Tableau → Prop} (hstep : ∀ t u, P t → t.Step u → P u) {t : Tableau}
    (ht : t.Layered) (h : P t) :
    (∃ u, P u ∧ u.closed = true ∧ u.resume? = none ∧ t.run ht = none) ∨
      ∃ u, P u ∧ u.closed = false ∧ u.next? = none ∧ t.run ht = some u.valuation := by
  fun_induction run t ht with
  | case1 t ht hc hu => exact .inl ⟨t, h, hc, hu, rfl⟩
  | case2 t ht hc u hu ih => exact ih (hstep t u h (.resume hc hu))
  | case3 t ht hc hi => exact .inr ⟨t, h, by simpa using hc, hi, rfl⟩
  | case4 t ht hc i hi ih => exact ih (hstep t _ h (.expand (by simpa using hc) hi))

theorem mem_formulas_branch {t : Tableau} {f : Formula} : f ∈ t.branch.formulas ↔ f ∈ t.formulas :=
  Branch.mem_formulas_iff_map

theorem Coherent.closed_iff {t : Tableau} (h : t.Coherent) :
    t.closed = true ↔ t.branch.Closed := by
  unfold closed Branch.Closed
  simp only [List.any_eq_true, mem_formulas_branch]
  constructor
  · intro hex
    rcases hex with ⟨⟨f, x⟩, he, hclosed⟩
    cases f with
    | atom name =>
        have hneg := (h.mem_present _).mp (of_decide_eq_true hclosed)
        exact ⟨name, List.mem_map_of_mem he, hneg⟩
    | not f => contradiction
    | and f g => contradiction
    | or f g => contradiction
    | implies f g => contradiction
  · intro hex
    rcases hex with ⟨name, hpos, hneg⟩
    obtain ⟨e, he, hf⟩ := List.mem_map.mp hpos
    refine ⟨e, he, ?_⟩
    rw [hf]
    exact decide_eq_true ((h.mem_present _).mpr hneg)

theorem Coherent.notMem_of_open {t : Tableau} (h : t.Coherent) (hc : t.closed = false)
    {name : String} (hpos : .atom name ∈ t.formulas) : .not (.atom name) ∉ t.formulas := by
  intro hneg
  have hclosed : t.closed = true := h.closed_iff.mpr
    ⟨name, mem_formulas_branch.mpr hpos, mem_formulas_branch.mpr hneg⟩
  rw [hc] at hclosed
  contradiction

section

variable {t u : Tableau}

theorem Step.coherent (hs : t.Step u) (h : t.Coherent) : u.Coherent := by
  cases hs with
  | resume hc hu => exact h.resume hu
  | expand hc hi => exact h.expand _

theorem Step.layered (hs : t.Step u) (h : t.Layered) : u.Layered := by
  cases hs with
  | resume hc hu => exact h.resume hu
  | expand hc hi => exact h.expand _

/-- A step of the tableau is one on the branches that it stands for. -/
theorem Step.branches (hs : t.Step u) (h : t.Coherent) (hl : t.Layered) :
    Branch.Step t.branches u.branches := by
  cases hs with
  | resume hc hu =>
      obtain ⟨d, ds, ht, hub⟩ := branches_resume h hl hu
      rw [ht, hub]
      exact .drop (h.closed_iff.mp hc)
  | expand hc hi =>
      obtain ⟨e, he, hunexp⟩ := exists_of_next? hi
      cases hx : e.formula.expansion with
      | all parts =>
          rw [branches_expand_all h hl he hunexp hx]
          exact .all he hx
      | either f g =>
          rw [branches_expand_either h hl he hunexp hx]
          exact .either he hx

end

structure Develops (fs : List Formula) (t : Tableau) : Prop where
  layered : t.Layered
  coherent : t.Coherent
  develops : ∀ b ∈ t.branches, b.Develops fs

theorem Develops.step {fs : List Formula} {t u : Tableau} (h : t.Develops fs) (hs : t.Step u) :
    u.Develops fs where
  layered := hs.layered h.layered
  coherent := hs.coherent h.coherent
  develops := (hs.branches h.coherent h.layered).develops h.develops

def Live (σ : Assignment String) (t : Tableau) : Prop := ∃ b ∈ t.branches, b.TrueUnder σ

theorem Develops.live_step {fs : List Formula} {σ : Assignment String} {t u : Tableau}
    (h : t.Develops fs) (hlive : t.Live σ) (hs : t.Step u) : u.Live σ :=
  (hs.branches h.coherent h.layered).live hlive

theorem exists_branches_ofFormulas (fs : List Formula) :
    ∃ gs, (∀ f, f ∈ gs ↔ f ∈ fs) ∧ (ofFormulas fs).branches = [(Branch.mk [] gs).enter] := by
  refine ⟨_, fun f => ?_, branches_ofFormulas fs⟩
  rw [List.mem_append, List.mem_filter, List.mem_filter]
  cases f.branching <;> simp

theorem develops_ofFormulas (fs : List Formula) : (ofFormulas fs).Develops fs := by
  obtain ⟨gs, hgs, hb⟩ := exists_branches_ofFormulas fs
  have hinit : (Branch.mk [] gs).Develops fs := by
    refine ⟨fun f hf => (hgs f).mpr hf, fun f hf name hn => ⟨f, (hgs f).mp hf, hn⟩, ?_⟩
    intro e he
    contradiction
  refine ⟨layered_ofFormulas fs, coherent_ofFormulas fs, fun b hm => ?_⟩
  rw [hb, List.mem_singleton] at hm
  exact hm ▸ hinit.enter

theorem live_ofFormulas {fs : List Formula} {σ : Assignment String}
    (h : ∀ f ∈ fs, f.eval σ = true) : (ofFormulas fs).Live σ := by
  obtain ⟨gs, hgs, hb⟩ := exists_branches_ofFormulas fs
  have hinit : (Branch.mk [] gs).TrueUnder σ := fun f hf => h f ((hgs f).mp hf)
  exact ⟨_, hb ▸ List.mem_singleton_self _, hinit.enter⟩

/-! ## The answer -/

theorem expanded_of_next? {t : Tableau} (h : t.next? = none) :
    ∀ e ∈ t.entries, e.expanded = true := by
  unfold next? at h
  have hnone := (Option.or_eq_none_iff.mp h).2
  intro e he
  simpa using List.findIdx?_eq_none_iff.mp hnone e he

theorem mem_literals {t : Tableau} {l : Literal String} :
    l ∈ t.formulas.filterMap Formula.literal? ↔ .ofLiteral l ∈ t.formulas := by
  rw [List.mem_filterMap]
  constructor
  · intro hex
    rcases hex with ⟨f, hf, hl⟩
    rwa [Formula.eq_ofLiteral_of_literal? hl] at hf
  · intro hl
    exact ⟨_, hl, Formula.literal?_ofLiteral l⟩

theorem holdsIn_valuation {t : Tableau} (h : t.Coherent) (hc : t.closed = false)
    {l : Literal String} (hl : .ofLiteral l ∈ t.formulas) : l.HoldsIn t.valuation := by
  have hmem := mem_literals.mpr hl
  apply Valuation.holdsIn_foldl_assign hmem
  intro hneg
  have hneg := mem_literals.mp hneg
  obtain ⟨name, s⟩ := l
  cases s with
  | true => exact h.notMem_of_open hc hl hneg
  | false => exact h.notMem_of_open hc hneg hl

/-- An open branch with nothing left to expand makes the given formulas true. -/
theorem Develops.truth_valuation {fs : List Formula} {t : Tableau} (h : t.Develops fs)
    (hc : t.closed = false) (hn : t.next? = none) : ∀ f ∈ fs, f.truth t.valuation = some true := by
  have htop := h.develops t.branch List.mem_cons_self
  have hall : ∀ f ∈ t.branch.formulas, f.truth t.valuation = some true := by
    refine Formula.truth_of_expanded ?_ ?_
    · intro f hf l hl
      have hf := mem_formulas_branch.mp hf
      rw [Formula.eq_ofLiteral_of_literal? hl] at hf
      exact holdsIn_valuation h.coherent hc hf
    · intro f hf
      obtain ⟨e, he, rfl⟩ := List.mem_map.mp (mem_formulas_branch.mp hf)
      exact htop.met e he (expanded_of_next? hn e he)
  exact fun f hf => hall f (htop.contains f hf)

theorem Develops.mem_valuation {fs : List Formula} {t : Tableau} (h : t.Develops fs)
    {name : String} (hn : name ∈ t.valuation) : ∃ f ∈ fs, name ∈ f.occurrences := by
  obtain ⟨l, hl, rfl⟩ := Valuation.exists_of_mem_foldl_assign hn
  have hf := mem_formulas_branch.mpr (mem_literals.mp hl)
  refine (h.develops t.branch List.mem_cons_self).within _ hf l.atom ?_
  obtain ⟨name, s⟩ := l
  cases s <;> exact List.mem_singleton_self name

/-- Wherever a run can get, each checkpoint lies within the branch and the trail, and the position
to expand next is one of the branch. -/
theorem bounds_of_reaches {fs : List Formula} {t : Tableau} (h : (ofFormulas fs).Reaches t) :
    (∀ c ∈ t.checkpoints, c.entryCount ≤ t.entries.length ∧ c.trailLength ≤ t.trail.length) ∧
      ∀ i, t.next? = some i → i < t.entries.length := by
  have hdev := h.invariant (fun _ _ ht hs => Develops.step ht hs) (develops_ofFormulas fs)
  refine ⟨hdev.layered.within, fun i hi => ?_⟩
  obtain ⟨e, he, -⟩ := exists_of_next? hi
  exact (List.getElem?_eq_some_iff.mp he).1

theorem truth_of_satisfy {fs : List Formula} {v : Valuation String} (h : satisfy fs = some v) :
    (∀ f ∈ fs, f.truth v = some true) ∧ ∀ name ∈ v, ∃ f ∈ fs, name ∈ f.occurrences := by
  have hend := run_spec (fun _ _ ht hs => Develops.step ht hs) (layered_ofFormulas fs)
    (develops_ofFormulas fs)
  unfold satisfy at h
  rcases hend with ⟨u, -, -, -, hrun⟩ | ⟨u, hu, hc, hn, hrun⟩
  · rw [hrun] at h
    contradiction
  · rw [hrun] at h
    cases h
    exact ⟨hu.truth_valuation hc hn, fun name => hu.mem_valuation⟩

theorem exists_satisfy_eq_some {fs : List Formula} {σ : Assignment String}
    (h : ∀ f ∈ fs, f.eval σ = true) : ∃ v, satisfy fs = some v := by
  have hend := run_spec (P := fun t => t.Develops fs ∧ t.Live σ)
    (fun t u ht hs => ⟨ht.1.step hs, ht.1.live_step ht.2 hs⟩) (layered_ofFormulas fs)
    ⟨develops_ofFormulas fs, live_ofFormulas h⟩
  unfold satisfy
  rcases hend with ⟨u, ⟨hu, hlive⟩, hc, hr, -⟩ | ⟨u, -, -, -, hrun⟩
  · obtain ⟨b, hb, htrue⟩ := hlive
    rw [branches, checkpoints_of_resume? hr, List.map_nil, List.mem_singleton] at hb
    exact absurd (hb ▸ htrue) (hu.coherent.closed_iff.mp hc).not_trueUnder
  · exact ⟨u.valuation, hrun⟩

theorem satisfy_eq_none_iff (fs : List Formula) :
    satisfy fs = none ↔ ¬ Formula.Satisfiable fs :=
  Formula.eq_none_iff (fun _ h => (truth_of_satisfy h).1) fun _ => exists_satisfy_eq_some

/-- The tableau fails exactly when no valuation of all atoms makes every formula true. A valuation
it returns makes them true already where it is defined, and it is defined on their atoms only. -/
theorem satisfy_decides (fs : List Formula) :
    (satisfy fs = none ↔
      ¬ ∃ v : Valuation String, (∀ f ∈ fs, ∀ name ∈ f.occurrences, name ∈ v) ∧
        ∀ f ∈ fs, f.truth v = some true) ∧
      ∀ v, satisfy fs = some v →
        (∀ f ∈ fs, f.truth v = some true) ∧ ∀ name ∈ v, ∃ f ∈ fs, name ∈ f.occurrences :=
  ⟨satisfy_eq_none_iff fs, fun _ => truth_of_satisfy⟩

end Tableau

end PropSat
