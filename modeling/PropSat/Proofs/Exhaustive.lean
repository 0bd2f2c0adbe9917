import PropSat.Proofs.ConjoinedLiterals
import PropSat.Proofs.TruthTable

/-!
# Exhaustive search finds the first row of the truth table

A row that makes the formulas true makes the literals conjoined at their top true, so fixing these
beforehand loses no such row. From there the search meets the completions of its valuation in the
order of the table. What a partial valuation decides is decided alike in all its completions: a
branch given up has no row to offer, and a valuation returned stands for the first row that
completes it.
-/

namespace PropSat

namespace Formula

variable {w : Valuation String}

theorem truthAll_of_extends {v : Valuation String} {fs : List Formula} {b : Bool}
    (hw : w.Extends v) (h : truthAll v fs = some b) : truthAll w fs = some b :=
  truthAll_le (fun _ _ name _ => hw name) b h

theorem mem_namesOfAll {fs : List Formula} {name : String} :
    name ∈ namesOfAll fs ↔ ∃ f ∈ fs, name ∈ f.occurrences := by
  simp [namesOfAll]

theorem ascending_namesOfAll (fs : List Formula) :
    (namesOfAll fs).Pairwise (compare · · = .lt) :=
  Std.ExtTreeSet.ordered_toList

theorem nodup_namesOfAll (fs : List Formula) : (namesOfAll fs).Nodup :=
  nodup_of_ascending (ascending_namesOfAll fs)

def atomsOfAll (fs : List Formula) : FormulaSet := fs.foldr (fun f s => f.atoms ∪ s) ∅

theorem mem_atomsOfAll {fs : List Formula} {g : Formula} :
    g ∈ atomsOfAll fs ↔ ∃ f ∈ fs, g ∈ f.atoms := by
  unfold atomsOfAll
  induction fs with
  | nil => simp
  | cons f fs ih =>
      rw [List.foldr_cons, Std.ExtTreeSet.mem_union_iff, ih]
      simp only [List.mem_cons, exists_eq_or_imp]

/-- The table over the atoms has the columns over which the search runs, in the same order. -/
theorem names_atomsOfAll (fs : List Formula) : (atomsOfAll fs).names = namesOfAll fs := by
  refine eq_of_ascending (FormulaSet.ordered_names _) (ascending_namesOfAll fs) fun name => ?_
  rw [FormulaSet.mem_names, mem_atomsOfAll, mem_namesOfAll]
  simp

end Formula

namespace Exhaustive

open PropSat.Valuation

variable {fs : List Formula} {v : Valuation String}

/-! ## Steps of the search -/

theorem search_of_truthAll {b : Bool} (h : Formula.truthAll v fs = some b) (names : List String) :
    search fs names v = if b then some v else none := by
  unfold search
  rw [h]
  cases b <;> rfl

theorem search_nil (h : Formula.truthAll v fs = none) : search fs [] v = none := by
  unfold search
  rw [h]

theorem search_cons (h : Formula.truthAll v fs = none) (name : String) (names : List String) :
    search fs (name :: names) v =
      (search fs names (v.insert name true)).or (search fs names (v.insert name false)) := by
  conv => lhs; unfold search
  rw [h]
  exact Option.orElse_eq_or

theorem eq_of_search_of_truthAll {b : Bool} (ht : Formula.truthAll v fs = some b)
    {names : List String} {u : Valuation String} (h : search fs names v = some u) :
    u = v ∧ b = true := by
  rw [search_of_truthAll ht] at h
  cases b with
  | true =>
      cases h
      exact ⟨rfl, rfl⟩
  | false => contradiction

theorem spec_of_search {names : List String} {u : Valuation String}
    (h : search fs names v = some u) : Formula.truthAll u fs = some true ∧ ∀ a ∈ v, a ∈ u := by
  induction names generalizing v with
  | nil =>
      cases ht : Formula.truthAll v fs with
      | some b =>
          obtain ⟨rfl, rfl⟩ := eq_of_search_of_truthAll ht h
          exact ⟨ht, fun _ => id⟩
      | none =>
          rw [search_nil ht] at h
          contradiction
  | cons name names ih =>
      cases ht : Formula.truthAll v fs with
      | some b =>
          obtain ⟨rfl, rfl⟩ := eq_of_search_of_truthAll ht h
          exact ⟨ht, fun _ => id⟩
      | none =>
          have hsub : ∀ b, ∀ a ∈ v, a ∈ v.insert name b :=
            fun b a ha => Std.ExtTreeMap.mem_insert.mpr (.inr ha)
          rw [search_cons ht] at h
          rcases Option.or_eq_some_iff.mp h with h | ⟨-, h⟩
          · exact ⟨(ih h).1, fun a ha => (ih h).2 a (hsub true a ha)⟩
          · exact ⟨(ih h).1, fun a ha => (ih h).2 a (hsub false a ha)⟩

/-! ## Rows of the search -/

/-- What a valuation decides is decided alike in all its completions. -/
theorem map_fillTrue_search_of_truthAll {b : Bool} (ht : Formula.truthAll v fs = some b)
    (names : List String) :
    (search fs names v).map (fillTrue names) =
      (completions names v).find? fun w => decide (Formula.truthAll w fs = some true) := by
  have hall : ∀ w ∈ completions names v, Formula.truthAll w fs = some b :=
    fun w hw => Formula.truthAll_of_extends (mem_completions.mp hw).1 ht
  rw [search_of_truthAll ht]
  cases b with
  | true => exact (find?_completions_of_forall fun w hw => decide_eq_true (hall w hw)).symm
  | false =>
      refine (List.find?_eq_none.mpr fun w hw htrue => ?_).symm
      rw [hall w hw] at htrue
      contradiction

/-- The search finds the first completion that makes the formulas true, less the atoms that need
not be settled. -/
theorem map_fillTrue_search {names : List String} (hnodup : names.Nodup)
    (hopen : ∀ name ∈ names, name ∉ v) :
    (search fs names v).map (fillTrue names) =
      (completions names v).find? fun w => decide (Formula.truthAll w fs = some true) := by
  induction names generalizing v with
  | nil =>
      cases ht : Formula.truthAll v fs with
      | some b => exact map_fillTrue_search_of_truthAll ht []
      | none =>
          rw [search_nil ht, completions, List.find?_cons_of_neg (by simp [ht])]
          rfl
  | cons name names ih =>
      cases ht : Formula.truthAll v fs with
      | some b => exact map_fillTrue_search_of_truthAll ht _
      | none =>
          obtain ⟨hname, hnodup⟩ := List.nodup_cons.mp hnodup
          obtain ⟨hv, hopen⟩ := List.forall_mem_cons.mp hopen
          have hopen : ∀ b, ∀ n ∈ names, n ∉ v.insert name b := by
            intro b n hn hmem
            rw [Std.ExtTreeMap.mem_insert, Std.LawfulEqOrd.compare_eq_iff_eq] at hmem
            rcases hmem with rfl | hmem
            · exact hname hn
            · exact hopen n hn hmem
          have hfill : ∀ b, (search fs names (v.insert name b)).map (fillTrue (name :: names)) =
              (search fs names (v.insert name b)).map (fillTrue names) := by
            intro b
            refine Option.map_congr fun u hu => fillTrue_of_mem ?_
            exact (spec_of_search hu).2 name Std.ExtTreeMap.mem_insert_self
          rw [search_cons ht, Option.map_or, hfill, hfill, ih hnodup (hopen true),
            ih hnodup (hopen false), completions_of_notMem hv, List.find?_append]

theorem mem_namesOfAll_of_forced? {u : Valuation String} (h : Formula.forced? fs = some u) :
    ∀ a ∈ u, a ∈ Formula.namesOfAll fs := by
  intro a ha
  have hget : u[a]? = some u[a] := Std.ExtTreeMap.getElem?_eq_some_getElem ha
  obtain ⟨f, hf, hl⟩ := (Formula.forced?_eq_some_iff.mp h ⟨a, u[a]⟩).mp hget
  exact Formula.mem_namesOfAll.mpr ⟨f, hf, hl.mem_occurrences⟩

/-- With the atoms that it leaves open made true, the valuation returned is the first row of the
truth table that makes every formula true. -/
theorem map_fillTrue_satisfy (fs : List Formula) :
    (satisfy fs).map (fillTrue (Formula.namesOfAll fs)) =
      (table (Formula.namesOfAll fs)).find? fun w => decide (Formula.truthAll w fs = some true) := by
  rw [table_eq_completions (Formula.nodup_namesOfAll fs)]
  cases hforced : Formula.forced? fs with
  | none =>
      have hnone : satisfy fs = none := by
        unfold satisfy
        rw [hforced]
        rfl
      rw [hnone]
      refine (List.find?_eq_none.mpr fun w _ hw => ?_).symm
      obtain ⟨u, hu, -⟩ := Formula.exists_forced? (of_decide_eq_true hw)
      rw [hforced] at hu
      contradiction
  | some u =>
      have hsome : satisfy fs = search fs ((Formula.namesOfAll fs).filter (· ∉ u)) u := by
        unfold satisfy
        rw [hforced]
        rfl
      have hsettled : ∀ n ∈ Formula.namesOfAll fs, decide (n ∉ u) = false → n ∈ u :=
        fun n _ hn => by simpa using hn
      have hopen : ∀ n ∈ (Formula.namesOfAll fs).filter (· ∉ u), n ∉ u :=
        fun n hn => by simpa using (List.mem_filter.mp hn).2
      have hfill : (satisfy fs).map (fillTrue (Formula.namesOfAll fs)) =
          (satisfy fs).map (fillTrue ((Formula.namesOfAll fs).filter (· ∉ u))) := by
        refine Option.map_congr fun w hw => (fillTrue_filter fun n hn hq => ?_).symm
        rw [hsome] at hw
        exact (spec_of_search hw).2 n (hsettled n hn hq)
      rw [hfill, hsome, map_fillTrue_search ((Formula.nodup_namesOfAll fs).filter _) hopen,
        completions_filter hsettled]
      refine (find?_completions_of_extends (fun a b hb => by simp at hb) ?_ ?_).symm
      · exact fun a ha => .inr (mem_namesOfAll_of_forced? hforced a ha)
      · intro w _ hw
        obtain ⟨t, ht, hwt⟩ := Formula.exists_forced? (of_decide_eq_true hw)
        rw [hforced] at ht
        cases ht
        exact hwt

theorem truth_of_satisfy {w : Valuation String} (h : satisfy fs = some w) :
    ∀ f ∈ fs, f.truth w = some true := by
  obtain ⟨v, -, hsearch⟩ := Option.bind_eq_some_iff.mp h
  exact Formula.truthAll_eq_some_true.mp (spec_of_search hsearch).1

theorem satisfy_eq_none_iff_forall (fs : List Formula) :
    satisfy fs = none ↔
      ∀ w ∈ table (Formula.namesOfAll fs), ¬ Formula.truthAll w fs = some true := by
  rw [← Option.map_eq_none_iff, map_fillTrue_satisfy, List.find?_eq_none]
  simp only [decide_eq_true_eq]

theorem exists_satisfy_eq_some {σ : Assignment String} (hσ : ∀ f ∈ fs, f.eval σ = true) :
    ∃ v, satisfy fs = some v := by
  refine Option.ne_none_iff_exists'.mp fun hnone => ?_
  have hrow := restrict_mem_table σ (Formula.nodup_namesOfAll fs)
  refine (satisfy_eq_none_iff_forall fs).mp hnone _ hrow ?_
  apply Formula.truthAll_eq_some_true.mpr
  intro f hf
  rw [← hσ f hf]
  exact Formula.truth_restrict fun name hn => Formula.mem_namesOfAll.mpr ⟨f, hf, hn⟩

theorem satisfy_eq_none_iff (fs : List Formula) :
    satisfy fs = none ↔ ¬ Formula.Satisfiable fs :=
  Formula.eq_none_iff (fun _ => truth_of_satisfy) fun _ => exists_satisfy_eq_some

/-- The valuation returned is a part of its row, so it settles no further atoms. -/
theorem mem_namesOfAll_of_satisfy {v : Valuation String} (h : satisfy fs = some v) :
    ∀ name ∈ v, name ∈ Formula.namesOfAll fs := by
  intro name hname
  have hrow := map_fillTrue_satisfy fs
  rw [h, Option.map_some] at hrow
  have hmem := List.mem_of_find?_eq_some hrow.symm
  have hext : (fillTrue (Formula.namesOfAll fs) v).Extends v :=
    (mem_completions.mp (List.mem_of_head? (head?_completions (Formula.namesOfAll fs) v))).1
  exact ((mem_table_iff (Formula.nodup_namesOfAll fs)).mp hmem name).mp (hext.mem hname)

/-- Exhaustive search fails exactly when no row of the truth table over the atoms of the formulas
makes them all true. A valuation it returns makes them true already where it is defined, is defined
on their atoms only and, with the other atoms made true, is the first row that does. -/
theorem satisfy_first_row (fs : List Formula) :
    (satisfy fs = none ↔
      ∀ w ∈ (Formula.atomsOfAll fs).valuations, ¬ ∀ f ∈ fs, f.truth w = some true) ∧
    ∀ v, satisfy fs = some v →
      (∀ f ∈ fs, f.truth v = some true) ∧
      (∀ name ∈ v, .atom name ∈ Formula.atomsOfAll fs) ∧
      (Formula.atomsOfAll fs).valuations.find? (fun w => decide (∀ f ∈ fs, f.truth w = some true)) =
        some (fillTrue (Formula.atomsOfAll fs).names v) := by
  have hrows : (Formula.atomsOfAll fs).valuations = table (Formula.namesOfAll fs) := by
    rw [FormulaSet.valuations, Formula.names_atomsOfAll]
  rw [hrows, Formula.names_atomsOfAll]
  simp only [← Formula.truthAll_eq_some_true]
  refine ⟨satisfy_eq_none_iff_forall fs, fun v hv => ⟨?_, fun name hname => ?_, ?_⟩⟩
  · exact Formula.truthAll_eq_some_true.mpr (truth_of_satisfy hv)
  · rw [← FormulaSet.mem_names, Formula.names_atomsOfAll]
    exact mem_namesOfAll_of_satisfy hv name hname
  · rw [← Option.map_some, ← hv, map_fillTrue_satisfy]

end Exhaustive

end PropSat
