import PropSat.Proofs.Exhaustive

/-!
# Equivalence, entailment and validity

The truth table over the atoms of two formulas and the search for a model of the premises without
the conclusion are about the same total assignments. So the three checks say what they say
classically, and each can be put in terms of the others.
-/

namespace PropSat

namespace Formula

variable {premises : List Formula} {conclusion f g : Formula}

theorem entails_iff_eval :
    entails premises conclusion = true ↔
      ∀ σ : Assignment String, (∀ f ∈ premises, f.eval σ = true) → conclusion.eval σ = true := by
  unfold entails
  rw [Option.isNone_iff_eq_none, Exhaustive.satisfy_eq_none_iff, satisfiable_iff_eval, not_exists]
  refine forall_congr' fun σ => ?_
  rw [List.forall_mem_append, List.forall_mem_singleton, not_and, eval, Bool.not_eq_true',
    Bool.not_eq_false]

/-- A valid formula is entailed by no premises. -/
theorem valid_iff_eval : f.valid = true ↔ ∀ σ : Assignment String, f.eval σ = true := by
  have hnil : f.valid = entails [] f := rfl
  rw [hnil, entails_iff_eval]
  simp only [List.not_mem_nil, false_implies, implies_true, true_implies]

theorem mem_names_union {name : String} :
    name ∈ (f.atoms ∪ g.atoms).names ↔ name ∈ f.occurrences ∨ name ∈ g.occurrences := by
  rw [FormulaSet.mem_names, Std.ExtTreeSet.mem_union_iff]
  simp

/-- Every assignment is met in some row of the table, and every row has the values of one. -/
theorem equivalent_iff_eval :
    f.equivalent g = true ↔ ∀ σ : Assignment String, f.eval σ = true ↔ g.eval σ = true := by
  have hf : ∀ name ∈ f.occurrences, name ∈ (f.atoms ∪ g.atoms).names :=
    fun name hn => mem_names_union.mpr (.inl hn)
  have hg : ∀ name ∈ g.occurrences, name ∈ (f.atoms ∪ g.atoms).names :=
    fun name hn => mem_names_union.mpr (.inr hn)
  have hnodup := FormulaSet.nodup_names (f.atoms ∪ g.atoms)
  simp only [← Bool.eq_iff_iff]
  constructor
  · intro h σ
    have hrow := List.all_eq_true.mp h _ (Valuation.restrict_mem_table σ hnodup)
    rw [beq_iff_eq, truth_restrict hf, truth_restrict hg] at hrow
    exact Option.some.inj hrow
  · intro h
    refine List.all_eq_true.mpr fun v hv => ?_
    have hdom := (Valuation.mem_table_iff hnodup).mp hv
    have hfv := truth_eq_eval_toAssignment fun name hn => (hdom name).mpr (hf name hn)
    have hgv := truth_eq_eval_toAssignment fun name hn => (hdom name).mpr (hg name hn)
    rw [beq_iff_eq, hfv, hgv, h]

/-- A valuation of further atoms says no more about the formulas, so any names will do that include
theirs. -/
theorem entails_iff_truth {names : Std.ExtTreeSet String}
    (h : ∀ f ∈ conclusion :: premises, ∀ name ∈ f.atomNames, name ∈ names) :
    entails premises conclusion = true ↔
      ∀ v : Valuation String, (∀ name, name ∈ v ↔ name ∈ names) →
        (∀ f ∈ premises, f.truth v = some true) → conclusion.truth v = some true := by
  have hnames : ∀ f ∈ conclusion :: premises, ∀ name ∈ f.occurrences, name ∈ names :=
    fun f hf name hn => h f hf name (mem_atomNames.mpr hn)
  rw [entails_iff_eval]
  constructor
  · intro hall v hv htrue
    have htotal : ∀ name ∈ conclusion.occurrences, name ∈ v :=
      fun name hn => (hv name).mpr (hnames conclusion List.mem_cons_self name hn)
    rw [truth_eq_eval_toAssignment htotal, hall v.toAssignment (eval_of_truth htrue)]
  · intro hall σ htrue
    have hrow : ∀ f ∈ conclusion :: premises, f.truth (σ.restrict names.toList) = some (f.eval σ) :=
      fun f hf => truth_restrict fun name hn => Std.ExtTreeSet.mem_toList.mpr (hnames f hf name hn)
    have hdom : ∀ name, name ∈ σ.restrict names.toList ↔ name ∈ names :=
      fun name => Assignment.mem_restrict.trans Std.ExtTreeSet.mem_toList
    have hconclusion := hall (σ.restrict names.toList) hdom fun f hf => by
      rw [hrow f (List.mem_cons_of_mem _ hf), htrue f hf]
    rw [hrow conclusion List.mem_cons_self] at hconclusion
    exact Option.some.inj hconclusion

/-- Two formulas are found equivalent when each is found to entail the other, and when the
implications both ways are found valid. A premise may be moved into the conclusion. Entailment is
classical: over whatever names include those of the atoms, the conclusion is true under every total
valuation that makes the premises true. -/
theorem equivalent_entails_valid_agree (premises : List Formula) (f g : Formula) :
    f.equivalent g = (entails [f] g && entails [g] f) ∧
    f.equivalent g = valid (and (implies f g) (implies g f)) ∧
    entails (premises ++ [f]) g = entails premises (implies f g) ∧
    ∀ names : Std.ExtTreeSet String,
      (∀ h ∈ g :: premises, ∀ name ∈ h.atomNames, name ∈ names) →
        (entails premises g = true ↔
          ∀ v : Valuation String, (∀ name, name ∈ v ↔ name ∈ names) →
            (∀ h ∈ premises, h.truth v = some true) → g.truth v = some true) := by
  refine ⟨?_, ?_, ?_, fun names h => entails_iff_truth h⟩
  · rw [Bool.eq_iff_iff, Bool.and_eq_true, equivalent_iff_eval, entails_iff_eval, entails_iff_eval]
    simp only [List.forall_mem_singleton, ← forall_and, iff_iff_implies_and_implies]
  · rw [Bool.eq_iff_iff, equivalent_iff_eval, valid_iff_eval]
    simp only [eval_and, eval_implies, iff_iff_implies_and_implies]
  · rw [Bool.eq_iff_iff, entails_iff_eval, entails_iff_eval]
    simp only [List.forall_mem_append, List.forall_mem_singleton, eval_implies, and_imp]

/-- The conclusion has an atom that no premise has, and the names have one that no formula has. -/
theorem equivalent_entails_valid_agree_on_fresh_conclusion :
    (∀ h ∈ [atom "q", and (atom "p") (not (atom "p"))], ∀ name ∈ h.atomNames,
      name ∈ Std.ExtTreeSet.ofList ["p", "q", "r"]) ∧
      entails [and (atom "p") (not (atom "p"))] (atom "q") = true := by
  have hnames : ∀ h ∈ [atom "q", and (atom "p") (not (atom "p"))], ∀ name ∈ h.atomNames,
      name ∈ Std.ExtTreeSet.ofList ["p", "q", "r"] := by simp [occurrences]
  refine ⟨hnames, ((equivalent_entails_valid_agree _ (atom "p") _).2.2.2 _ hnames).mpr ?_⟩
  intro v _ htrue
  obtain ⟨hp, hnot⟩ := Truth.and_eq_some_true.mp (htrue _ (List.mem_singleton_self _))
  have hfalse : (atom "p").truth v = some false := Truth.not_eq_some_iff.mp hnot
  rw [hp] at hfalse
  contradiction

end Formula

end PropSat
