import PropSat.NormalForm.Clausal
import PropSat.Proofs.Except

/-!
# Reading clauses off a formula

What can be read as a clause is a disjunction of literals, and what can be read as clauses is a
conjunction of such. So a property of clauses and the formula they are read off is proved once for a
literal and carried through the connectives. The disjunction made of a clause is read as that
clause.
-/

namespace PropSat.Formula

theorem exists_literal_of_disjuncts? {f : Formula} {c : Clause String} (hf : ∀ g k, f ≠ or g k)
    (h : f.disjuncts? = .ok c) : ∃ l, f = ofLiteral l ∧ c = [l] := by
  unfold disjuncts? at h
  split at h
  · next g k => exact absurd rfl (hf g k)
  · split at h
    · next l hl =>
        cases h
        exact ⟨l, eq_ofLiteral_of_literal? hl, rfl⟩
    · contradiction

/-- What holds of a literal, and of a disjunction where it holds of both sides, holds of every
clause that is read. -/
theorem disjuncts?_induction {P : Formula → Clause String → Prop}
    (literal : ∀ l, P (ofLiteral l) [l])
    (disjunction : ∀ f g c d, P f c → P g d → P (.or f g) (c ++ d))
    {f : Formula} {c : Clause String} (h : f.disjuncts? = .ok c) : P f c := by
  have hliteral : ∀ {f : Formula} {c : Clause String}, (∀ g k, f ≠ .or g k) →
      f.disjuncts? = .ok c → P f c := by
    intro f c hf h
    obtain ⟨l, rfl, rfl⟩ := exists_literal_of_disjuncts? hf h
    exact literal l
  induction f generalizing c with
  | or f g ihf ihg =>
      obtain ⟨d, hd, hrest⟩ := exists_of_bind_eq_ok h
      obtain ⟨e, he, hc⟩ := exists_of_bind_eq_ok hrest
      cases hc
      exact disjunction f g d e (ihf hd) (ihg he)
  | atom name => exact hliteral (by simp) h
  | not f => exact hliteral (by simp) h
  | and f g => exact hliteral (by simp) h
  | implies f g => exact hliteral (by simp) h

theorem exists_clause_of_clauses? {f : Formula} {cs : ClauseSet String} (hf : ∀ g k, f ≠ and g k)
    (h : f.clauses? = .ok cs) : ∃ c, f.disjuncts? = .ok c ∧ cs = [c.distinct] := by
  unfold clauses? at h
  split at h
  · next g k => exact absurd rfl (hf g k)
  · obtain ⟨c, hc, hcs⟩ := exists_of_bind_eq_ok h
    cases hcs
    exact ⟨c, hc, rfl⟩

/-- What holds of a single clause, and of a conjunction where it holds of both sides, holds of all
clause sets that are read. -/
theorem clauses?_induction {P : Formula → ClauseSet String → Prop}
    (clause : ∀ f c, f.disjuncts? = .ok c → P f [c.distinct])
    (conjunction : ∀ f g cs ds, P f cs → P g ds → P (.and f g) (cs ++ ds))
    {f : Formula} {cs : ClauseSet String} (h : f.clauses? = .ok cs) : P f cs := by
  have hclause : ∀ {f : Formula} {cs : ClauseSet String}, (∀ g k, f ≠ .and g k) →
      f.clauses? = .ok cs → P f cs := by
    intro f cs hf h
    obtain ⟨c, hc, rfl⟩ := exists_clause_of_clauses? hf h
    exact clause f c hc
  induction f generalizing cs with
  | and f g ihf ihg =>
      obtain ⟨ds, hds, hrest⟩ := exists_of_bind_eq_ok h
      obtain ⟨es, hes, hcs⟩ := exists_of_bind_eq_ok hrest
      cases hcs
      exact conjunction f g ds es (ihf hds) (ihg hes)
  | atom name => exact hclause (by simp) h
  | not f => exact hclause (by simp) h
  | or f g => exact hclause (by simp) h
  | implies f g => exact hclause (by simp) h

theorem isClause_of_disjuncts? {f : Formula} {c : Clause String} (h : f.disjuncts? = .ok c) :
    f.isClause := by
  refine disjuncts?_induction (P := fun f _ => f.isClause = true) ?_ ?_ h
  · intro l
    obtain ⟨name, s⟩ := l
    cases s <;> rfl
  · intro f g c d hf hg
    rw [isClause, hf, hg, Bool.and_self]

theorem isCnf_of_clauses? {f : Formula} {cs : ClauseSet String} (h : f.clauses? = .ok cs) :
    f.isCnf := by
  refine clauses?_induction (P := fun f _ => f.isCnf = true) ?_ ?_ h
  · exact fun f c hc => isCnf_of_isClause (isClause_of_disjuncts? hc)
  · intro f g cs ds hf hg
    rw [isCnf, hf, hg, Bool.and_self]

theorem clauses?_of_disjuncts? {f : Formula} {c : Clause String} (h : f.disjuncts? = .ok c) :
    f.clauses? = .ok [c.distinct] := by
  cases f with
  | and f g => contradiction
  | _ =>
      simp only [clauses?, h]
      rfl

theorem disjuncts?_ofLiteral (l : Literal String) : (ofLiteral l).disjuncts? = .ok [l] := by
  obtain ⟨name, s⟩ := l
  cases s <;> rfl

/-- Each further disjunct is read last. -/
theorem disjuncts?_foldl_or (c : Clause String) {f : Formula} {d : Clause String}
    (h : f.disjuncts? = .ok d) : ((c.map ofLiteral).foldl or f).disjuncts? = .ok (d ++ c) := by
  induction c generalizing f d with
  | nil => rw [List.append_nil, List.map_nil, List.foldl_nil, h]
  | cons l c ih =>
      have hor : (or f (ofLiteral l)).disjuncts? = .ok (d ++ [l]) := by
        rw [disjuncts?, h, disjuncts?_ofLiteral]
        rfl
      rw [List.map_cons, List.foldl_cons, ih hor, List.append_assoc]
      rfl

theorem disjuncts?_of_disjunction? {c : Clause String} {f : Formula}
    (h : disjunction? (c.map ofLiteral) = some f) : f.disjuncts? = .ok c := by
  cases c with
  | nil => contradiction
  | cons l c =>
      cases h
      exact disjuncts?_foldl_or c (disjuncts?_ofLiteral l)

theorem toClauses_and (g k : Formula) (h : (and g k).isCnf) (hg : g.isCnf) (hk : k.isCnf) :
    (and g k).toClauses h = g.toClauses hg ++ k.toClauses hk := by
  have hand : (and g k).clauses? = .ok (g.toClauses hg ++ k.toClauses hk) := by
    rw [clauses?, clauses?_eq_toClauses hg, clauses?_eq_toClauses hk]
    rfl
  exact Except.ok.inj ((clauses?_eq_toClauses h).symm.trans hand)

theorem cnf_and (g k : Formula) : (and g k).cnf = and g.cnf k.cnf := by
  have hgk := implicationFree_eliminateImplications (and g k)
  have hg := implicationFree_eliminateImplications g
  have hk := implicationFree_eliminateImplications k
  have hnnf : (and g k).eliminateImplications.nnf true =
      .ok (and (g.eliminateImplications.toNnf hg) (k.eliminateImplications.toNnf hk)) := by
    rw [eliminateImplications, nnf, nnf_eq_toNnf hg, nnf_eq_toNnf hk]
    rfl
  rw [cnf, Except.ok.inj ((nnf_eq_toNnf hgk).symm.trans hnnf)]
  rfl

end PropSat.Formula

namespace PropSat.ClauseSet

/-- The clauses are read off the formulas one by one. -/
def ReadOff (cs : ClauseSet String) (fs : List Formula) : Prop :=
  List.Forall₂ (fun c f => f.disjuncts? = .ok c) cs fs

theorem readOff_of_toFormulas? {cs : ClauseSet String} {fs : List Formula}
    (h : cs.toFormulas? = some fs) : cs.ReadOff fs :=
  (mapM_eq_some_iff_forall₂.mp h).imp fun _ _ => Formula.disjuncts?_of_disjunction?

end PropSat.ClauseSet
