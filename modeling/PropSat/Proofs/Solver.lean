import PropSat.Proofs.Dimacs.AtomTable
import PropSat.Proofs.Dpll.Search
import PropSat.Proofs.Exhaustive
import PropSat.Proofs.NormalForm.Truth
import PropSat.Proofs.Resolution.Decision
import PropSat.Proofs.Tableau.Decision
import PropSat.Solver

/-!
# All solvers give the right answer

Each procedure is right about the input it works on. The routes that lead there keep satisfiability,
and what a valuation makes true at the end of a route it makes true at its start.
-/

namespace PropSat

/-- The solution says whether there is a model, and a valuation in it has the property asked for. -/
structure Solution.Answers {α : Type} [Atom α] (s : Solution α) (sat : Prop)
    (holds : Valuation α → Prop) : Prop where
  isSat_iff : s.isSat = true ↔ sat
  holds_of_eq : ∀ v, s = .satisfiable v → holds v

namespace Solution

variable {α : Type} [Atom α] {sat : Prop} {holds : Valuation α → Prop}

theorem answers_ofOption {o : Option (Valuation α)} (hnone : o = none ↔ ¬ sat)
    (hsome : ∀ v, o = some v → holds v) : (ofOption o).Answers sat holds := by
  cases o with
  | none =>
      have hunsat : ¬ sat := hnone.mp rfl
      refine ⟨?_, fun v h => nomatch h⟩
      constructor
      · intro h
        contradiction
      · intro h
        contradiction
  | some v =>
      have hsat : sat := Classical.not_not.mp fun h => nomatch hnone.mpr h
      refine ⟨⟨fun _ => hsat, fun _ => rfl⟩, fun w h => ?_⟩
      cases h
      exact hsome v rfl

theorem answers_unsatisfiable (h : ¬ sat) :
    (unsatisfiable : Solution α).Answers sat holds :=
  answers_ofOption (o := none) ⟨fun _ => h, fun _ => rfl⟩ fun _ hv => nomatch hv

theorem Answers.imp {s : Solution α} {sat' : Prop} {holds' : Valuation α → Prop}
    (h : s.Answers sat holds) (hsat : sat ↔ sat') (hholds : ∀ v, holds v → holds' v) :
    s.Answers sat' holds' :=
  ⟨h.isSat_iff.trans hsat, fun v hv => hholds v (h.holds_of_eq v hv)⟩

theorem Answers.map {β : Type} [Atom β] {s : Solution α} (h : s.Answers sat holds)
    {g : Valuation α → Valuation β} {holds' : Valuation β → Prop}
    (hg : ∀ v, holds v → holds' (g v)) :
    (ofOption (s.valuation?.map g)).Answers sat holds' := by
  cases s with
  | unsatisfiable =>
      refine ⟨h.isSat_iff, fun v hv => nomatch hv⟩
  | satisfiable v =>
      refine ⟨h.isSat_iff, fun w hw => ?_⟩
      cases hw
      exact hg v (h.holds_of_eq v rfl)

end Solution

theorem Dpll.answers_satisfy {α : Type} [Atom α] (b : Branching) (cs : ClauseSet α) :
    (Solution.ofOption (satisfy b.strategy cs)).Answers cs.Satisfiable cs.HoldsIn :=
  Solution.answers_ofOption (satisfy_eq_none_iff b) fun _ => holdsIn_of_satisfy

theorem Resolution.answers_satisfy {α : Type} [Atom α] (cs : ClauseSet α) :
    (Solution.ofOption (satisfy cs)).Answers cs.Satisfiable cs.HoldsIn :=
  Solution.answers_ofOption satisfy_eq_none_iff fun _ => holdsIn_of_satisfy

theorem Solution.Answers.of_clauses {s : Solution String} {fs : List Formula}
    (h : s.Answers (ClauseSet.ofFormulas fs).Satisfiable (ClauseSet.ofFormulas fs).HoldsIn) :
    s.Answers (Formula.Satisfiable fs) fun v => ∀ f ∈ fs, f.truth v = some true :=
  h.imp ClauseSet.satisfiable_ofFormulas fun _ => ClauseSet.holdsIn_ofFormulas.mp

namespace Solver

theorem answers_solve (s : Solver) (fs : List Formula) :
    (s.solve fs).Answers (Formula.Satisfiable fs) fun v => ∀ f ∈ fs, f.truth v = some true := by
  cases s with
  | exhaustive =>
      exact Solution.answers_ofOption (Exhaustive.satisfy_eq_none_iff fs)
        fun v => Exhaustive.truth_of_satisfy
  | dpll b => exact (Dpll.answers_satisfy b (.ofFormulas fs)).of_clauses
  | resolution => exact (Resolution.answers_satisfy (.ofFormulas fs)).of_clauses
  | tableau =>
      exact Solution.answers_ofOption (Tableau.satisfy_eq_none_iff fs)
        fun v h => (Tableau.truth_of_satisfy h).1

theorem answers_solveAsFormulas (s : Solver) (cs : ClauseSet String) :
    (s.solveAsFormulas cs).Answers cs.Satisfiable cs.HoldsIn := by
  unfold solveAsFormulas
  cases hfs : cs.toFormulas? with
  | some fs =>
      exact (s.answers_solve fs).imp (ClauseSet.satisfiable_iff_of_toFormulas? hfs).symm
        fun v => (ClauseSet.holdsIn_iff_of_toFormulas? hfs).mpr
  | none =>
      have hempty := ClauseSet.mem_of_toFormulas?_eq_none hfs
      exact Solution.answers_unsatisfiable (ClauseSet.not_satisfiable_of_nil_mem hempty)

theorem answers_solveClauses (s : Solver) (cs : ClauseSet String) :
    (s.solveClauses cs).Answers cs.Satisfiable cs.HoldsIn := by
  cases s with
  | exhaustive => exact answers_solveAsFormulas exhaustive cs
  | dpll b => exact Dpll.answers_satisfy b cs
  | resolution => exact Resolution.answers_satisfy cs
  | tableau => exact answers_solveAsFormulas tableau cs

section

variable {cs : ClauseSet Nat} (hpos : ∀ c ∈ cs, ∀ l ∈ c, 1 ≤ l.atom)
include hpos

theorem answers_solveByName (s : Solver) :
    (s.solveByName cs).Answers cs.Satisfiable cs.HoldsIn :=
  ((s.answers_solveClauses cs.toDecimal.1).imp (ClauseSet.satisfiable_toDecimal_iff hpos)
    fun _ => id).map fun _ => ClauseSet.holdsIn_encodeValuation hpos

theorem answers_solveNumbered (s : Solver) :
    (s.solveNumbered cs).Answers cs.Satisfiable cs.HoldsIn := by
  cases s with
  | exhaustive => exact answers_solveByName hpos exhaustive
  | dpll b => exact Dpll.answers_satisfy b cs
  | resolution => exact Resolution.answers_satisfy cs
  | tableau => exact answers_solveByName hpos tableau

end

/-- Through each of its three entry points every solver finds a model exactly if there is one, given
that no variable is numbered zero. No pass on the way to clausal form refuses a formula, and the
tableau never cuts beyond its branch or its trail. -/
theorem entry_points_agree (s : Solver) :
    (∀ fs : List Formula,
      ((s.solve fs).isSat = true ↔ Formula.Satisfiable fs) ∧
        ∀ v, s.solve fs = .satisfiable v → ∀ f ∈ fs, f.truth v = some true) ∧
    (∀ cs : ClauseSet String,
      ((s.solveClauses cs).isSat = true ↔ cs.Satisfiable) ∧
        ∀ v, s.solveClauses cs = .satisfiable v → ∀ c ∈ cs, ∃ l ∈ c, v[l.atom]? = some l.sign) ∧
    (∀ cs : ClauseSet Nat, (∀ c ∈ cs, ∀ l ∈ c, 1 ≤ l.atom) →
      ((s.solveNumbered cs).isSat = true ↔ cs.Satisfiable) ∧
        ∀ v, s.solveNumbered cs = .satisfiable v → ∀ c ∈ cs, ∃ l ∈ c, v[l.atom]? = some l.sign) ∧
    ∀ fs : List Formula,
      ClauseSet.ofFormulas? fs = .ok (.ofFormulas fs) ∧
        ∀ t, (Tableau.ofFormulas fs).Reaches t →
          (∀ c ∈ t.checkpoints,
            c.entryCount ≤ t.entries.length ∧ c.trailLength ≤ t.trail.length) ∧
          ∀ i, t.next? = some i → i < t.entries.length := by
  refine ⟨fun fs => ?_, fun cs => ?_, fun cs hpos => ?_, fun fs => ⟨?_, fun t ht => ?_⟩⟩
  · have h := s.answers_solve fs
    exact ⟨h.isSat_iff, h.holds_of_eq⟩
  · have h := s.answers_solveClauses cs
    exact ⟨h.isSat_iff, h.holds_of_eq⟩
  · have h := s.answers_solveNumbered hpos
    exact ⟨h.isSat_iff, h.holds_of_eq⟩
  · exact ClauseSet.ofFormulas?_eq_ok fs
  · exact Tableau.bounds_of_reaches ht

/-- Variables need not be numbered without gaps. -/
theorem entry_points_agree_on_sparse_numbers :
    (Solver.tableau.solveNumbered [[⟨7, true⟩, ⟨3, true⟩], [⟨7, false⟩]]).isSat = true := by
  have hmodel : ClauseSet.Satisfiable [[⟨7, true⟩, ⟨3, true⟩], [(⟨7, false⟩ : Literal Nat)]] :=
    ⟨fun n => n == 3, by simp [ClauseSet.TrueUnder, Clause.TrueUnder, Literal.TrueUnder]⟩
  exact ((entry_points_agree tableau).2.2.1 _ (by decide)).1.mpr hmodel

end Solver

end PropSat
