import PropSat.Proofs.Exhaustive
import PropSat.Proofs.NormalForm.Clausal
import PropSat.Solver

/-!
# A list of formulas is solved as its conjunction

What a solver reads off a conjunction, it reads off the two parts in turn: the literals conjoined at
the top, the atoms and the clauses. Exhaustive search besides looks only at the truth value of all
formulas together, which is that of their conjunction. So a list and its conjunction are solved
alike, to the same valuation.
-/

namespace PropSat

namespace Formula

variable {v : Valuation String} {fs gs : List Formula} {f : Formula}

theorem map_foldl_and {β : Type} {m : Formula → List β} (hm : ∀ g k, m (.and g k) = m g ++ m k)
    (gs : List Formula) (g : Formula) : m (gs.foldl .and g) = m g ++ gs.flatMap m := by
  induction gs generalizing g with
  | nil => exact (List.append_nil (m g)).symm
  | cons k gs ih => rw [List.foldl_cons, ih, hm, List.append_assoc, List.flatMap_cons]

theorem flatMap_eq_of_conjunction? {β : Type} {m : Formula → List β}
    (hm : ∀ g k, m (.and g k) = m g ++ m k) (h : conjunction? fs = some f) :
    fs.flatMap m = m f := by
  cases fs with
  | nil => contradiction
  | cons g gs =>
      cases h
      rw [map_foldl_and hm, List.flatMap_cons]

theorem forced?_conjunction (h : conjunction? fs = some f) : forced? fs = forced? [f] := by
  unfold forced?
  rw [flatMap_eq_of_conjunction? (fun _ _ => rfl) h, List.flatMap_singleton]

theorem namesOfAll_conjunction (h : conjunction? fs = some f) : namesOfAll fs = namesOfAll [f] := by
  unfold namesOfAll
  rw [flatMap_eq_of_conjunction? (fun _ _ => rfl) h, List.flatMap_singleton]

theorem truth_foldl_and (gs : List Formula) (g : Formula) :
    (gs.foldl and g).truth v = (g.truth v).and (truthAll v gs) := by
  induction gs generalizing g with
  | nil => exact (Truth.and_true (g.truth v)).symm
  | cons k gs ih => rw [List.foldl_cons, ih, truth, Truth.and_assoc, truthAll_cons]

theorem truthAll_conjunction (h : conjunction? fs = some f) : truthAll v fs = truthAll v [f] := by
  have hone : truthAll v [f] = f.truth v :=
    (truthAll_cons v f []).trans (Truth.and_true (f.truth v))
  cases fs with
  | nil => contradiction
  | cons g gs =>
      cases h
      rw [hone, truth_foldl_and, truthAll_cons]

end Formula

open Formula

variable {fs gs : List Formula} {f : Formula}

namespace Exhaustive

theorem search_congr (h : ∀ v, truthAll v fs = truthAll v gs) (names : List String)
    (v : Valuation String) : search fs names v = search gs names v := by
  induction names generalizing v with
  | nil =>
      cases ht : truthAll v gs with
      | some b => rw [search_of_truthAll ((h v).trans ht), search_of_truthAll ht]
      | none => rw [search_nil ((h v).trans ht), search_nil ht]
  | cons name names ih =>
      cases ht : truthAll v gs with
      | some b => rw [search_of_truthAll ((h v).trans ht), search_of_truthAll ht]
      | none => rw [search_cons ((h v).trans ht), search_cons ht, ih, ih]

theorem satisfy_conjunction (h : conjunction? fs = some f) : satisfy fs = satisfy [f] := by
  unfold satisfy
  rw [forced?_conjunction h, namesOfAll_conjunction h]
  exact congrArg (Option.bind (forced? [f])) (funext fun v =>
    search_congr (fun _ => truthAll_conjunction h) _ v)

end Exhaustive

theorem ClauseSet.ofFormulas_conjunction (h : conjunction? fs = some f) :
    ofFormulas fs = ofFormulas [f] := by
  have hand : ∀ g k : Formula, (and g k).cnf.toClauses (and g k).isCnf_cnf =
      g.cnf.toClauses g.isCnf_cnf ++ k.cnf.toClauses k.isCnf_cnf := by
    intro g k
    simp only [cnf_and]
    exact toClauses_and g.cnf k.cnf _ g.isCnf_cnf k.isCnf_cnf
  unfold ofFormulas
  rw [flatMap_eq_of_conjunction? hand h, List.flatMap_singleton]

/-- All solvers but the tableau solve formulas as they solve the conjunction of them, with the same
atoms settled and left open. -/
theorem Solver.solve_eq_solve_conjunction (s : Solver) (hs : s ≠ tableau) (fs : List Formula)
    (hfs : fs ≠ []) : ∃ f, conjunction? fs = some f ∧ s.solve fs = s.solve [f] := by
  obtain ⟨g, gs, rfl⟩ := List.exists_cons_of_ne_nil hfs
  refine ⟨gs.foldl .and g, rfl, ?_⟩
  have hclauses : ClauseSet.ofFormulas (g :: gs) = ClauseSet.ofFormulas [gs.foldl .and g] :=
    ClauseSet.ofFormulas_conjunction rfl
  cases s with
  | exhaustive => exact congrArg Solution.ofOption (Exhaustive.satisfy_conjunction rfl)
  | dpll b => exact congrArg (fun cs => Solution.ofOption (Dpll.satisfy b.strategy cs)) hclauses
  | resolution => exact congrArg (fun cs => Solution.ofOption (Resolution.satisfy cs)) hclauses
  | tableau => contradiction

/-- The first formula is true whatever `q` is, so the search leaves `q` open. -/
theorem Solver.solve_eq_solve_conjunction_with_open_atom :
    exhaustive ≠ tableau ∧ [Formula.or (.atom "p") (.atom "q"), .atom "p"] ≠ [] ∧
      ∃ f, conjunction? [.or (.atom "p") (.atom "q"), .atom "p"] = some f ∧
        exhaustive.solve [.or (.atom "p") (.atom "q"), .atom "p"] = exhaustive.solve [f] :=
  ⟨by decide, by decide, solve_eq_solve_conjunction exhaustive (by decide) _ (by decide)⟩

end PropSat
