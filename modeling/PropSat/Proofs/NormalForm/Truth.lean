import PropSat.Proofs.NormalForm.Clausal
import PropSat.Proofs.Truth

/-!
# Normal forms keep the truth value

Every pass on the way to clausal form keeps the truth value under every partial valuation, unknown
values included. A clause has the value of a disjunction and a clause set that of a conjunction, so
a clause set of formulas is true exactly where all the formulas are.
-/

namespace PropSat

namespace Formula

variable {v : Valuation String}

theorem truth_eliminateImplications (f : Formula) :
    f.eliminateImplications.truth v = f.truth v := by
  induction f with
  | atom name => rfl
  | not f ih => rw [eliminateImplications, truth, ih, truth]
  | and f g ihf ihg => rw [eliminateImplications, truth, ihf, ihg, truth]
  | or f g ihf ihg => rw [eliminateImplications, truth, ihf, ihg, truth]
  | implies f g ihf ihg =>
      rw [eliminateImplications, truth, truth, ihf, ihg, truth, Truth.implies_eq_or]

theorem truth_of_nnf {f g : Formula} {positive : Bool} (h : f.nnf positive = .ok g) :
    g.truth v = (f.withSign positive).truth v := by
  induction f generalizing g positive with
  | atom name =>
      cases h
      rfl
  | not f ih =>
      rw [ih h]
      cases positive with
      | true => rfl
      | false => exact (Truth.not_not (f.truth v)).symm
  | and f k ihf ihk =>
      obtain ⟨l, hl, hrest⟩ := exists_of_bind_eq_ok h
      obtain ⟨r, hr, hg⟩ := exists_of_bind_eq_ok hrest
      cases hg
      have hlt := ihf hl
      have hrt := ihk hr
      cases positive with
      | true =>
          show (l.truth v).and (r.truth v) = (f.truth v).and (k.truth v)
          rw [hlt, hrt]
          rfl
      | false =>
          show (l.truth v).or (r.truth v) = ((f.truth v).and (k.truth v)).not
          rw [hlt, hrt, Truth.not_and]
          rfl
  | or f k ihf ihk =>
      obtain ⟨l, hl, hrest⟩ := exists_of_bind_eq_ok h
      obtain ⟨r, hr, hg⟩ := exists_of_bind_eq_ok hrest
      cases hg
      have hlt := ihf hl
      have hrt := ihk hr
      cases positive with
      | true =>
          show (l.truth v).or (r.truth v) = (f.truth v).or (k.truth v)
          rw [hlt, hrt]
          rfl
      | false =>
          show (l.truth v).and (r.truth v) = ((f.truth v).or (k.truth v)).not
          rw [hlt, hrt, Truth.not_or]
          rfl
  | implies f k => contradiction

theorem truth_toNnf {f : Formula} (h : f.implicationFree) : (f.toNnf h).truth v = f.truth v :=
  truth_of_nnf (nnf_eq_toNnf h)

theorem truth_orInto (f g : Formula) : (f.orInto g).truth v = (f.truth v).or (g.truth v) := by
  induction g with
  | and g h ihg ihh => rw [orInto, truth, ihg, ihh, truth, Truth.or_and]
  | atom name => rfl
  | not g => rfl
  | or g h => rfl
  | implies g h => rfl

theorem truth_orDistributed (f g : Formula) :
    (f.orDistributed g).truth v = (f.truth v).or (g.truth v) := by
  induction f with
  | and f h ihf ihh => rw [orDistributed, truth, ihf, ihh, truth, Truth.and_or]
  | atom name => exact truth_orInto _ g
  | not f => exact truth_orInto _ g
  | or f h => exact truth_orInto _ g
  | implies f h => exact truth_orInto _ g

theorem truth_distribute (f : Formula) : f.distribute.truth v = f.truth v := by
  induction f with
  | and f g ihf ihg => rw [distribute, truth, ihf, ihg, truth]
  | or f g ihf ihg => rw [distribute, truth_orDistributed, ihf, ihg, truth]
  | atom name => rfl
  | not f => rfl
  | implies f g => rfl

theorem truth_cnf (f : Formula) : f.cnf.truth v = f.truth v := by
  rw [cnf, truth_distribute, truth_toNnf, truth_eliminateImplications]

end Formula

/-! ## Truth of clauses -/

section

variable {α : Type} [Atom α] {v : Valuation α}

def Clause.truth (v : Valuation α) (c : Clause α) : Truth :=
  c.foldr (fun l p => (l.truth v).or p) (some false)

def ClauseSet.truth (v : Valuation α) (cs : ClauseSet α) : Truth :=
  cs.foldr (fun c p => (c.truth v).and p) (some true)

theorem Clause.truth_eq_some_true {c : Clause α} : c.truth v = some true ↔ c.HoldsIn v := by
  unfold Clause.truth HoldsIn
  induction c with
  | nil => simp
  | cons l c ih =>
      rw [List.foldr_cons, Truth.or_eq_some_true, ih, Literal.truth_eq_some_true]
      simp only [List.mem_cons, exists_eq_or_imp]

theorem Clause.truth_eq_some_false {c : Clause α} :
    c.truth v = some false ↔ ∀ l ∈ c, l.truth v = some false := by
  unfold Clause.truth
  induction c with
  | nil => simp
  | cons l c ih => rw [List.foldr_cons, Truth.or_eq_some_false, ih, List.forall_mem_cons]

theorem ClauseSet.truth_eq_some_true {cs : ClauseSet α} :
    cs.truth v = some true ↔ cs.HoldsIn v := by
  unfold ClauseSet.truth HoldsIn
  induction cs with
  | nil => simp
  | cons c cs ih =>
      rw [List.foldr_cons, Truth.and_eq_some_true, ih, Clause.truth_eq_some_true,
        List.forall_mem_cons]

theorem Clause.truth_append (c d : Clause α) :
    Clause.truth v (c ++ d) = (c.truth v).or (d.truth v) := by
  refine Truth.eq_of_iff ?_ ?_
  · rw [Truth.or_eq_some_true, truth_eq_some_true, truth_eq_some_true, truth_eq_some_true]
    simp only [HoldsIn, List.mem_append, or_and_right, exists_or]
  · rw [Truth.or_eq_some_false, truth_eq_some_false, truth_eq_some_false, truth_eq_some_false]
    exact List.forall_mem_append

theorem Clause.truth_distinct (c : Clause α) : c.distinct.truth v = c.truth v := by
  refine Truth.eq_of_iff ?_ ?_
  · rw [truth_eq_some_true, truth_eq_some_true]
    simp only [HoldsIn, distinct, List.mem_eraseDups]
  · rw [truth_eq_some_false, truth_eq_some_false]
    simp only [distinct, List.mem_eraseDups]

theorem ClauseSet.truth_append (cs ds : ClauseSet α) :
    ClauseSet.truth v (cs ++ ds) = (cs.truth v).and (ds.truth v) := by
  induction cs with
  | nil => exact (Truth.true_and _).symm
  | cons c cs ih =>
      unfold ClauseSet.truth at ih ⊢
      rw [List.cons_append, List.foldr_cons, ih, List.foldr_cons, Truth.and_assoc]

end

namespace Formula

variable {v : Valuation String}

theorem truth_of_disjuncts? {f : Formula} {c : Clause String} (h : f.disjuncts? = .ok c) :
    c.truth v = f.truth v := by
  refine disjuncts?_induction (P := fun f c => c.truth v = f.truth v) ?_ ?_ h
  · intro l
    rw [truth_ofLiteral]
    exact Truth.or_false (l.truth v)
  · intro f g c d hf hg
    rw [Clause.truth_append, hf, hg, truth]

theorem truth_of_clauses? {f : Formula} {cs : ClauseSet String} (h : f.clauses? = .ok cs) :
    cs.truth v = f.truth v := by
  refine clauses?_induction (P := fun f cs => cs.truth v = f.truth v) ?_ ?_ h
  · intro f c hc
    have hsingle : ClauseSet.truth v [c.distinct] = c.distinct.truth v := Truth.and_true _
    rw [hsingle, Clause.truth_distinct, truth_of_disjuncts? hc]
  · intro f g cs ds hf hg
    rw [ClauseSet.truth_append, hf, hg, truth]

end Formula

namespace ClauseSet

theorem truth_ofFormulas (v : Valuation String) (fs : List Formula) :
    (ofFormulas fs).truth v = Formula.truthAll v fs := by
  induction fs with
  | nil => rfl
  | cons f fs ih =>
      have hclauses : (f.cnf.toClauses f.isCnf_cnf).truth v = f.cnf.truth v :=
        Formula.truth_of_clauses? (Formula.clauses?_eq_toClauses f.isCnf_cnf)
      have hcons : ofFormulas (f :: fs) = f.cnf.toClauses f.isCnf_cnf ++ ofFormulas fs :=
        List.flatMap_cons
      rw [hcons, truth_append, hclauses, ih, Formula.truth_cnf, Formula.truthAll_cons]

theorem holdsIn_ofFormulas {v : Valuation String} {fs : List Formula} :
    (ofFormulas fs).HoldsIn v ↔ ∀ f ∈ fs, f.truth v = some true := by
  rw [← truth_eq_some_true, truth_ofFormulas, Formula.truthAll_eq_some_true]

theorem satisfiable_ofFormulas {fs : List Formula} :
    (ofFormulas fs).Satisfiable ↔ Formula.Satisfiable fs := by
  rw [satisfiable_iff_holdsIn, Formula.satisfiable_iff_truth]
  simp only [holdsIn_ofFormulas]

/-! ## Passes that refuse nothing -/

/-- The clauses of the formulas, by passes that refuse a formula of another shape. -/
def ofFormulas? (fs : List Formula) : Except ShapeError (ClauseSet String) := do
  let css ← fs.mapM fun f => do
    let g ← f.eliminateImplications.nnf true
    g.distribute.clauses?
  return css.flatten

theorem ofFormulas?_eq_ok (fs : List Formula) : ofFormulas? fs = .ok (ofFormulas fs) := by
  have hone : ∀ f : Formula, (do
      let g ← f.eliminateImplications.nnf true
      g.distribute.clauses?) = .ok (f.cnf.toClauses f.isCnf_cnf) := by
    intro f
    rw [Formula.nnf_eq_toNnf (Formula.implicationFree_eliminateImplications f)]
    exact Formula.clauses?_eq_toClauses f.isCnf_cnf
  unfold ofFormulas?
  simp only [hone]
  have hall : fs.mapM (fun f => (Except.ok (f.cnf.toClauses f.isCnf_cnf) :
      Except ShapeError (ClauseSet String))) = .ok (fs.map fun f => f.cnf.toClauses f.isCnf_cnf) :=
    List.mapM_pure
  rw [hall, ofFormulas, List.flatMap_def]
  rfl

/-! ## Clauses as formulas -/

theorem ReadOff.map_truth {cs : ClauseSet String} {fs : List Formula} (h : cs.ReadOff fs)
    (v : Valuation String) : fs.map (Formula.truth v) = cs.map (Clause.truth v) := by
  have htruth : List.Forall₂ (fun c f => c.truth v = f.truth v) cs fs :=
    h.imp fun _ _ => Formula.truth_of_disjuncts?
  rw [← List.forall₂_map_right_iff, ← List.forall₂_map_left_iff, List.forall₂_eq_eq_eq] at htruth
  exact htruth.symm

theorem truthAll_of_toFormulas? {v : Valuation String} {cs : ClauseSet String} {fs : List Formula}
    (h : cs.toFormulas? = some fs) : Formula.truthAll v fs = cs.truth v := by
  rw [Formula.truthAll_eq_foldr, (readOff_of_toFormulas? h).map_truth v, List.foldr_map]
  rfl

theorem mem_of_toFormulas?_eq_none {cs : ClauseSet String} (h : cs.toFormulas? = none) :
    [] ∈ cs := by
  unfold toFormulas? at h
  induction cs with
  | nil => contradiction
  | cons c cs ih =>
      cases c with
      | nil => exact List.mem_cons_self
      | cons l c =>
          refine List.mem_cons_of_mem _ (ih ?_)
          cases hcs : cs.mapM fun c => Formula.disjunction? (c.map .ofLiteral) with
          | none => rfl
          | some gs =>
              rw [List.mapM_cons, hcs] at h
              contradiction

theorem holdsIn_iff_of_toFormulas? {v : Valuation String} {cs : ClauseSet String}
    {fs : List Formula} (h : cs.toFormulas? = some fs) :
    cs.HoldsIn v ↔ ∀ f ∈ fs, f.truth v = some true := by
  rw [← truth_eq_some_true, ← truthAll_of_toFormulas? h, Formula.truthAll_eq_some_true]

theorem satisfiable_iff_of_toFormulas? {cs : ClauseSet String} {fs : List Formula}
    (h : cs.toFormulas? = some fs) : cs.Satisfiable ↔ Formula.Satisfiable fs := by
  rw [satisfiable_iff_holdsIn, Formula.satisfiable_iff_truth]
  simp only [holdsIn_iff_of_toFormulas? h]

theorem not_satisfiable_of_nil_mem {cs : ClauseSet String} (h : [] ∈ cs) : ¬ cs.Satisfiable := by
  intro hex
  rcases hex with ⟨σ, hσ⟩
  obtain ⟨l, hl, -⟩ := hσ [] h
  contradiction

end ClauseSet

end PropSat
