import PropSat.Clause
import PropSat.NormalForm.Conjunctive

/-!
# Clausal form

A formula in conjunctive normal form read as a clause set, and clause sets read as formulas.
-/

namespace PropSat

namespace Formula

/-- The literals of a disjunction of literals, from left to right. -/
def disjuncts? : Formula → Except ShapeError (Clause String)
  | or f g => do
      let c ← f.disjuncts?
      let d ← g.disjuncts?
      return c ++ d
  | f =>
      match f.literal? with
      | some l => .ok [l]
      | none => .error (.notClausal f)

/-- One clause for each conjunct, each without repetitions. Of several parts that do not fit, the
leftmost is blamed. -/
def clauses? : Formula → Except ShapeError (ClauseSet String)
  | and f g => do
      let cs ← f.clauses?
      let ds ← g.clauses?
      return cs ++ ds
  | f => do
      let c ← f.disjuncts?
      return [c.distinct]

theorem disjuncts?_ok_of_isClause {f : Formula} (h : f.isClause) :
    ∃ c, f.disjuncts? = .ok c := by
  induction f with
  | or f g ihf ihg =>
      simp only [isClause, Bool.and_eq_true] at h
      obtain ⟨c, hc⟩ := ihf h.1
      obtain ⟨d, hd⟩ := ihg h.2
      exact ⟨c ++ d, by simp only [disjuncts?, hc, hd]; rfl⟩
  | _ =>
      obtain ⟨l, hl⟩ := Option.isSome_iff_exists.mp (by simpa [isClause, isLiteral] using h)
      exact ⟨[l], by simp [disjuncts?, hl]⟩

theorem clauses?_ok_of_isCnf {f : Formula} (h : f.isCnf) : ∃ cs, f.clauses? = .ok cs := by
  induction f with
  | and f g ihf ihg =>
      simp only [isCnf, Bool.and_eq_true] at h
      obtain ⟨cs, hcs⟩ := ihf h.1
      obtain ⟨ds, hds⟩ := ihg h.2
      exact ⟨cs ++ ds, by simp only [clauses?, hcs, hds]; rfl⟩
  | _ =>
      obtain ⟨c, hc⟩ := disjuncts?_ok_of_isClause (isClause_of_isCnf h (by simp))
      exact ⟨[c.distinct], by simp only [clauses?, hc]; rfl⟩

def toClauses (f : Formula) (h : f.isCnf) : ClauseSet String :=
  match hf : f.clauses? with
  | .ok cs => cs
  | .error _ => absurd (clauses?_ok_of_isCnf h) (by simp [hf])

theorem clauses?_eq_toClauses {f : Formula} (h : f.isCnf) : f.clauses? = .ok (f.toClauses h) := by
  unfold toClauses
  split
  · assumption
  · next hf => exact absurd (clauses?_ok_of_isCnf h) (by simp [hf])

end Formula

namespace ClauseSet

/-- The clausal form of a list of formulas read as their conjunction. -/
def ofFormulas (fs : List Formula) : ClauseSet String :=
  fs.flatMap fun f => f.cnf.toClauses f.isCnf_cnf

/-- One left-leaning disjunction for each clause. There is none when some clause is empty. -/
def toFormulas? (cs : ClauseSet String) : Option (List Formula) :=
  cs.mapM fun c => Formula.disjunction? (c.map .ofLiteral)

end ClauseSet

end PropSat
