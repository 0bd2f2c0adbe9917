import PropSat.Proofs.Tableau.Rewind

/-!
# A tableau that copies itself

Here a checkpoint keeps a copy of the whole tableau, and going back puts the copy in place. Every
tableau has such a counterpart, whose copies are the tableaux that going back meets. Each operation
on the one is the same operation on the other, so both searches give the same valuation.
-/

namespace PropSat.Tableau

/-- The current branch with its set of formulas and its trail, and the deferred alternatives, latest
first, each with what the tableau was when it was deferred. -/
structure Copying where
  entries : List Entry
  present : FormulaSet
  trail : List Nat
  checkpoints : List (Copying × Formula)

namespace Copying

def current (k : Copying) : Tableau := ⟨k.entries, k.present, k.trail, []⟩

def withCurrent (t : Tableau) (k : Copying) : Copying :=
  ⟨t.entries, t.present, t.trail, k.checkpoints⟩

def add (f : Formula) (k : Copying) : Copying := k.withCurrent (k.current.add f)

def addAll (fs : List Formula) (k : Copying) : Copying := k.withCurrent (k.current.addAll fs)

def ofFormulas (fs : List Formula) : Copying :=
  (⟨[], ∅, [], []⟩ : Copying).withCurrent (Tableau.ofFormulas fs)

def mark (i : Nat) (k : Copying) : Copying := k.withCurrent (k.current.mark i)

def defer (f : Formula) (k : Copying) : Copying := { k with checkpoints := (k, f) :: k.checkpoints }

def expand (i : Nat) (k : Copying) : Copying :=
  match k.entries[i]? with
  | none => k
  | some e =>
      match e.formula.expansion with
      | .all parts => (k.mark i).addAll parts
      | .either deferred chosen => ((k.mark i).defer deferred).add chosen

/-- Takes up the alternative deferred last, on the copy kept with it. -/
def resume? (k : Copying) : Option Copying :=
  match k.checkpoints with
  | [] => none
  | (saved, f) :: _ => some (saved.add f)

/-! ## Termination -/

/-- The cost of all alternatives. Only the latest copy counts: it holds the earlier ones itself. -/
def pending : List (Copying × Formula) → Nat
  | [] => 0
  | (⟨es, _, _, saved⟩, f) :: _ => budget (openWeight es + f.weight) + pending saved

def cost (k : Copying) : Nat := budget (openWeight k.entries) + pending k.checkpoints

theorem pending_cons (k : Copying) (f : Formula) (rest : List (Copying × Formula)) :
    pending ((k, f) :: rest) =
      budget (openWeight k.entries + f.weight) + pending k.checkpoints := by
  obtain ⟨es, present, trail, saved⟩ := k
  rw [pending]

theorem layered_current (k : Copying) : k.current.Layered :=
  ⟨fun _ h => absurd h List.not_mem_nil, List.Pairwise.nil⟩

theorem cost_add_le (f : Formula) (k : Copying) :
    (k.add f).cost ≤ budget (openWeight k.entries + f.weight) + pending k.checkpoints :=
  Nat.add_le_add_right (budget_le (openWeight_add_le f k.current)) _

theorem cost_resume_lt {k l : Copying} (h : k.resume? = some l) : l.cost < k.cost := by
  unfold resume? at h
  split at h
  · contradiction
  · next saved f rest hk =>
      cases h
      have hle := cost_add_le f saved
      have hcost : k.cost = budget (openWeight k.entries) +
          (budget (openWeight saved.entries + f.weight) + pending saved.checkpoints) := by
        rw [cost, hk, pending_cons]
      have := budget_pos (openWeight k.entries)
      omega

theorem cost_expand_lt {k : Copying} {i : Nat} {e : Entry} (he : k.entries[i]? = some e)
    (hu : e.expanded = false) : (k.expand i).cost < k.cost := by
  have hw : openWeight (k.mark i).entries + e.formula.weight = openWeight k.entries :=
    openWeight_mark he hu
  unfold expand
  simp only [he]
  split
  · next parts hp =>
      have hle : openWeight ((k.mark i).addAll parts).entries ≤
          openWeight (k.mark i).entries + Formula.weightOfAll parts :=
        (addAll_bounds (k.mark i).layered_current parts).1
      have := Formula.weightOfAll_lt_of_expansion hp
      have hlt : openWeight ((k.mark i).addAll parts).entries < openWeight k.entries := by omega
      have := budget_lt hlt
      have hsame : ((k.mark i).addAll parts).checkpoints = k.checkpoints := rfl
      unfold cost
      rw [hsame]
      omega
  · next deferred chosen hp =>
      obtain ⟨hd, hch⟩ := Formula.weight_lt_of_expansion hp
      have hle := cost_add_le chosen ((k.mark i).defer deferred)
      have hpending : pending ((k.mark i).defer deferred).checkpoints =
          budget (openWeight (k.mark i).entries + deferred.weight) + pending k.checkpoints :=
        pending_cons (k.mark i) deferred k.checkpoints
      have hentries : ((k.mark i).defer deferred).entries = (k.mark i).entries := rfl
      have := budget_add_lt (k := openWeight (k.mark i).entries + chosen.weight)
        (m := openWeight (k.mark i).entries + deferred.weight) (n := openWeight k.entries)
        (by omega) (by omega)
      rw [hpending, hentries] at hle
      unfold cost at hle ⊢
      omega

def run (k : Copying) : Option (Valuation String) :=
  if k.current.closed then
    match _h : k.resume? with
    | none => none
    | some l => l.run
  else
    match _h : k.current.next? with
    | none => some k.current.valuation
    | some i => (k.expand i).run
termination_by k.cost
decreasing_by
  · exact cost_resume_lt _h
  · obtain ⟨e, he, hu⟩ := exists_of_next? _h
    exact cost_expand_lt he hu

theorem run_of_closed {k : Copying} (hc : k.current.closed = true) :
    k.run = k.resume?.bind run := by
  rw [run, if_pos hc]
  split <;> next h => rw [h]; rfl

theorem run_of_open {k : Copying} (hc : ¬ k.current.closed = true) :
    k.run = match k.current.next? with
      | none => some k.current.valuation
      | some i => (k.expand i).run := by
  rw [run, if_neg hc]
  split <;> next h => rw [h]

def satisfy (fs : List Formula) : Option (Valuation String) := (ofFormulas fs).run

end Copying

/-! ## The counterpart of a tableau -/

/-- Each tableau of the list with copies of those that follow it. -/
def copies : List (Tableau × Formula) → List (Copying × Formula)
  | [] => []
  | (s, f) :: rest => (⟨s.entries, s.present, s.trail, copies rest⟩, f) :: copies rest

/-- The tableau with a copy in place of each checkpoint. -/
def copying (t : Tableau) : Copying := ⟨t.entries, t.present, t.trail, copies t.rewinds⟩

variable {t u : Tableau} {i : Nat} {e : Entry}

theorem add_withCheckpoints (f : Formula) (t : Tableau) (cs : List Checkpoint) :
    { t with checkpoints := cs }.add f = { t.add f with checkpoints := cs } := by
  unfold add
  split <;> rfl

theorem addAll_withCheckpoints (fs : List Formula) (t : Tableau) (cs : List Checkpoint) :
    { t with checkpoints := cs }.addAll fs = { t.addAll fs with checkpoints := cs } := by
  induction fs generalizing t with
  | nil => rfl
  | cons f fs ih =>
      have hadd := add_withCheckpoints f t cs
      simp only [addAll, List.foldl_cons] at ih ⊢
      rw [hadd, ih]

theorem current_copying (t : Tableau) : t.copying.current = { t with checkpoints := [] } := rfl

/-- What leaves the rewinds alone acts on the counterpart through its current branch. -/
theorem withCurrent_copying (h : u.rewinds = t.rewinds) :
    t.copying.withCurrent { u with checkpoints := [] } = u.copying := by
  rw [copying, copying, h]
  rfl

theorem Layered.copying_add (h : t.Layered) (f : Formula) :
    (t.add f).copying = t.copying.add f := by
  rw [Copying.add, current_copying, add_withCheckpoints f t [],
    withCurrent_copying (h.rewinds_add f)]

theorem Layered.copying_addAll (h : t.Layered) (fs : List Formula) :
    (t.addAll fs).copying = t.copying.addAll fs := by
  rw [Copying.addAll, current_copying, addAll_withCheckpoints fs t [],
    withCurrent_copying (h.rewinds_addAll fs)]

theorem Layered.copying_mark (h : t.Layered) (he : t.entries[i]? = some e)
    (hu : e.expanded = false) : (t.mark i).copying = t.copying.mark i :=
  (withCurrent_copying (h.rewinds_mark he hu)).symm

theorem copying_defer (f : Formula) (t : Tableau) : (t.defer f).copying = t.copying.defer f := by
  rw [copying, rewinds_defer]
  rfl

theorem Layered.copying_expand (h : t.Layered) (he : t.entries[i]? = some e)
    (hu : e.expanded = false) : (t.expand i).copying = t.copying.expand i := by
  have hentry : t.copying.entries[i]? = some e := he
  unfold Copying.expand
  simp only [hentry]
  split
  · next parts hx =>
      rw [expand_of_all he hx, (h.mark i).copying_addAll, h.copying_mark he hu]
  · next f g hx =>
      rw [expand_of_either he hx, ((h.mark i).defer f).copying_add, copying_defer,
        h.copying_mark he hu]

theorem Layered.copying_resume? (h : t.Layered) :
    t.copying.resume? = t.resume?.map copying := by
  cases hu : t.resume? with
  | none =>
      rw [Copying.resume?, copying, resume?_eq_none_iff.mp hu]
      rfl
  | some u =>
      obtain ⟨s, f, hmet, rfl, hs⟩ := exists_of_resume? hu
      rw [Option.map_some, (hs h).copying_add, Copying.resume?, copying, hmet]
      rfl

theorem next?_current_copying (t : Tableau) : t.copying.current.next? = t.next? := rfl

theorem run_copying (ht : t.Layered) : t.copying.run = t.run ht := by
  fun_induction run t ht with
  | case1 t ht hc hu => rw [Copying.run_of_closed (k := t.copying) hc, ht.copying_resume?, hu]; rfl
  | case2 t ht hc u hu ih =>
      rw [Copying.run_of_closed (k := t.copying) hc, ht.copying_resume?, hu, ← ih]
      rfl
  | case3 t ht hc hi => rw [Copying.run_of_open (k := t.copying) hc, next?_current_copying, hi]; rfl
  | case4 t ht hc i hi ih =>
      obtain ⟨e, he, hu⟩ := exists_of_next? hi
      rw [Copying.run_of_open (k := t.copying) hc, next?_current_copying, hi, ← ih,
        ht.copying_expand he hu]

theorem copying_ofFormulas (fs : List Formula) :
    (ofFormulas fs).copying = Copying.ofFormulas fs := by
  rw [copying, rewinds_of_nil (checkpoints_ofFormulas fs)]
  rfl

/-- Along every run, going back leads to the very tableau from which the alternative was deferred.
So a search that copies the tableau into each checkpoint has the same outcome. -/
theorem rewind_exact (fs : List Formula) :
    (∀ t, (ofFormulas fs).Reaches t → ∃ saved, (ofFormulas fs).Recorded t saved) ∧
      (∀ t saved c cs, (ofFormulas fs).Recorded t saved → t.checkpoints = c :: cs →
        saved.head? = some ({ t with checkpoints := cs }.rewind c, c.alternative)) ∧
      satisfy fs = Copying.satisfy fs := by
  refine ⟨fun t ht => exists_recorded_of_reaches ht, fun t saved c cs hrec hc => ?_, ?_⟩
  · obtain ⟨-, hsaved⟩ := hrec.rewinds_eq (layered_ofFormulas fs) (checkpoints_ofFormulas fs)
    rw [← hsaved, rewinds_of_cons hc, List.head?_cons]
  · rw [satisfy, Copying.satisfy, ← copying_ofFormulas, run_copying (layered_ofFormulas fs)]

/-- Going back from the second part of a disjunction to the tableau where the first was deferred. -/
theorem rewind_exact_on_disjunction :
    (ofFormulas [.or (.atom "p") (.atom "q")]).Recorded
        ((((ofFormulas [.or (.atom "p") (.atom "q")]).mark 0).defer (.atom "p")).add (.atom "q"))
        [((ofFormulas [.or (.atom "p") (.atom "q")]).mark 0, .atom "p")] ∧
      ({ (((ofFormulas [.or (.atom "p") (.atom "q")]).mark 0).defer (.atom "p")).add (.atom "q")
          with checkpoints := [] }.rewind ⟨1, 1, .atom "p"⟩) =
        (ofFormulas [.or (.atom "p") (.atom "q")]).mark 0 := by
  have hrec : (ofFormulas [.or (.atom "p") (.atom "q")]).Recorded
      ((((ofFormulas [.or (.atom "p") (.atom "q")]).mark 0).defer (.atom "p")).add (.atom "q"))
      [((ofFormulas [.or (.atom "p") (.atom "q")]).mark 0, .atom "p")] :=
    .either .start (e := ⟨.or (.atom "p") (.atom "q"), false⟩) (by decide) rfl rfl
  have hhead := (rewind_exact [.or (.atom "p") (.atom "q")]).2.1 _ _
    ⟨1, 1, .atom "p"⟩ [] hrec (by decide)
  rw [List.head?_cons, Option.some.injEq, Prod.mk.injEq] at hhead
  exact ⟨hrec, hhead.1.symm⟩

end PropSat.Tableau
