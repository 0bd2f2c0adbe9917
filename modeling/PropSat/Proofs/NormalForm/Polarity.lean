import PropSat.Proofs.NormalForm.Clausal

/-!
# Clausal form by polarity

The clauses of a formula and those of its negation are computed in one pass over the formula. Every
pass of the conversion to clausal form keeps these clauses, so they are what it reads in the end:
the same clauses in the same order, with repetitions removed. Distribution keeps the order because
it splits the first operand down to single clauses before it splits the second.
-/

namespace PropSat

namespace ClauseSet

variable {α : Type}

/-- Each clause of the first set joined with each of the second, the first varying slowest. -/
def product (cs ds : ClauseSet α) : ClauseSet α := cs.flatMap fun c => ds.map fun d => c ++ d

theorem append_product (cs ds es : ClauseSet α) :
    product (cs ++ ds) es = product cs es ++ product ds es :=
  List.flatMap_append

theorem singleton_product (c : Clause α) (ds : ClauseSet α) :
    product [c] ds = ds.map fun d => c ++ d :=
  List.flatMap_singleton _ c

theorem distinct_append [Atom α] (cs ds : ClauseSet α) :
    distinct (cs ++ ds) = cs.distinct ++ ds.distinct :=
  List.map_append

end ClauseSet

namespace Formula

mutual

/-- The clauses of the formula, repetitions kept. -/
def positiveClauses : Formula → ClauseSet String
  | atom name => [[⟨name, true⟩]]
  | not f => f.negativeClauses
  | and f g => f.positiveClauses ++ g.positiveClauses
  | or f g => f.positiveClauses.product g.positiveClauses
  | implies f g => f.negativeClauses.product g.positiveClauses

/-- The clauses of the negated formula, repetitions kept. -/
def negativeClauses : Formula → ClauseSet String
  | atom name => [[⟨name, false⟩]]
  | not f => f.positiveClauses
  | and f g => f.negativeClauses.product g.negativeClauses
  | or f g => f.negativeClauses ++ g.negativeClauses
  | implies f g => f.positiveClauses ++ g.negativeClauses

end

theorem clauses_eliminateImplications (f : Formula) :
    f.eliminateImplications.positiveClauses = f.positiveClauses ∧
      f.eliminateImplications.negativeClauses = f.negativeClauses := by
  induction f with
  | atom name => exact ⟨rfl, rfl⟩
  | not f ih => exact ih.symm
  | and f g ihf ihg | or f g ihf ihg | implies f g ihf ihg =>
      simp only [eliminateImplications, positiveClauses, negativeClauses, ihf, ihg, and_self]

theorem positiveClauses_of_nnf {f g : Formula} {positive : Bool} (h : f.nnf positive = .ok g) :
    g.positiveClauses = (f.withSign positive).positiveClauses := by
  induction f generalizing g positive with
  | atom name =>
      cases h
      rfl
  | not f ih =>
      rw [ih h]
      cases positive <;> rfl
  | and f k ihf ihk | or f k ihf ihk =>
      obtain ⟨l, hl, hrest⟩ := exists_of_bind_eq_ok h
      obtain ⟨r, hr, hg⟩ := exists_of_bind_eq_ok hrest
      cases hg
      have hlc := ihf hl
      have hrc := ihk hr
      cases positive <;>
        simp only [withSign, positiveClauses, negativeClauses, hlc, hrc, if_true,
          Bool.false_eq_true, if_false]
  | implies f k => contradiction

theorem positiveClauses_of_disjuncts? {f : Formula} {c : Clause String}
    (h : f.disjuncts? = .ok c) : f.positiveClauses = [c] := by
  refine disjuncts?_induction (P := fun f c => f.positiveClauses = [c]) ?_ ?_ h
  · intro l
    obtain ⟨name, s⟩ := l
    cases s <;> rfl
  · intro f g c d hf hg
    rw [positiveClauses, hf, hg]
    rfl

/-- A formula of several clauses would be split in each conjunct apart, and the first would no longer
vary slowest. -/
theorem positiveClauses_orInto {f : Formula} (hf : f.isClause) (g : Formula) :
    (f.orInto g).positiveClauses = f.positiveClauses.product g.positiveClauses := by
  obtain ⟨c, hc⟩ := disjuncts?_ok_of_isClause hf
  have hone := positiveClauses_of_disjuncts? hc
  induction g with
  | and g h ihg ihh =>
      rw [orInto, positiveClauses, ihg, ihh, positiveClauses, hone, ClauseSet.singleton_product,
        ClauseSet.singleton_product, ClauseSet.singleton_product, List.map_append]
  | atom name => rfl
  | not g => rfl
  | or g h => rfl
  | implies g h => rfl

theorem positiveClauses_orDistributed {f : Formula} (hf : f.isCnf) (g : Formula) :
    (f.orDistributed g).positiveClauses = f.positiveClauses.product g.positiveClauses := by
  induction f with
  | and f h ihf ihh =>
      simp only [isCnf, Bool.and_eq_true] at hf
      rw [orDistributed, positiveClauses, ihf hf.1, ihh hf.2, positiveClauses,
        ClauseSet.append_product]
  | atom name => exact positiveClauses_orInto (isClause_of_isCnf hf (by simp)) g
  | not f => exact positiveClauses_orInto (isClause_of_isCnf hf (by simp)) g
  | or f h => exact positiveClauses_orInto (isClause_of_isCnf hf (by simp)) g
  | implies f h => exact positiveClauses_orInto (isClause_of_isCnf hf (by simp)) g

theorem positiveClauses_distribute {f : Formula} (h : f.isNnf) :
    f.distribute.positiveClauses = f.positiveClauses := by
  induction f with
  | and f g ihf ihg =>
      simp only [isNnf, Bool.and_eq_true] at h
      rw [distribute, positiveClauses, ihf h.1, ihg h.2, positiveClauses]
  | or f g ihf ihg =>
      simp only [isNnf, Bool.and_eq_true] at h
      rw [distribute, positiveClauses_orDistributed (isCnf_distribute h.1), ihf h.1, ihg h.2,
        positiveClauses]
  | atom name => rfl
  | not f => rfl
  | implies f g => rfl

theorem positiveClauses_cnf (f : Formula) : f.cnf.positiveClauses = f.positiveClauses := by
  have hfree := implicationFree_eliminateImplications f
  rw [cnf, positiveClauses_distribute (isNnf_toNnf hfree),
    positiveClauses_of_nnf (nnf_eq_toNnf hfree)]
  exact (clauses_eliminateImplications f).1

theorem eq_distinct_of_clauses? {f : Formula} {cs : ClauseSet String} (h : f.clauses? = .ok cs) :
    cs = f.positiveClauses.distinct := by
  refine clauses?_induction (P := fun f cs => cs = f.positiveClauses.distinct) ?_ ?_ h
  · intro f c hc
    rw [positiveClauses_of_disjuncts? hc]
    rfl
  · intro f g cs ds hf hg
    rw [positiveClauses, ClauseSet.distinct_append, ← hf, ← hg]

end Formula

/-- The clausal form of the formulas lists their clauses by polarity one formula after the other,
each clause without repetitions. -/
theorem ClauseSet.ofFormulas_eq_distinct_positiveClauses (fs : List Formula) :
    ofFormulas fs = ClauseSet.distinct (fs.flatMap Formula.positiveClauses) := by
  have hone : ∀ f : Formula, f.cnf.toClauses f.isCnf_cnf = f.positiveClauses.distinct := by
    intro f
    rw [Formula.eq_distinct_of_clauses? (Formula.clauses?_eq_toClauses f.isCnf_cnf),
      Formula.positiveClauses_cnf]
  unfold ofFormulas ClauseSet.distinct
  rw [List.map_flatMap]
  exact congrArg fs.flatMap (funext hone)

end PropSat
