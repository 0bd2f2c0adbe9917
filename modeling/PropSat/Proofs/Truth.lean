import PropSat.Formula.Occurrence
import PropSat.Kleene
import PropSat.Proofs.Assignment

/-!
# Three-valued and classical truth

A known three-valued truth is the classical one under every completion, and under a valuation of all
atoms every truth is known. Hence a list of formulas that some partial valuation makes true is
satisfiable.
-/

namespace PropSat

namespace Truth

@[simp] theorem not_eq_some_iff {p : Truth} {b : Bool} : p.not = some b ↔ p = some (!b) := by
  rcases p with _ | a
  · simp [Truth.not]
  · cases a <;> cases b <;> simp [Truth.not]

@[simp] theorem and_eq_some_true {p q : Truth} :
    p.and q = some true ↔ p = some true ∧ q = some true := by
  rcases p with _ | a <;> rcases q with _ | b
  · simp [Truth.and]
  · cases b <;> simp [Truth.and]
  · cases a <;> simp [Truth.and]
  · cases a <;> cases b <;> simp [Truth.and]

@[simp] theorem and_eq_some_false {p q : Truth} :
    p.and q = some false ↔ p = some false ∨ q = some false := by
  rcases p with _ | a <;> rcases q with _ | b
  · simp [Truth.and]
  · cases b <;> simp [Truth.and]
  · cases a <;> simp [Truth.and]
  · cases a <;> cases b <;> simp [Truth.and]

theorem not_not (p : Truth) : p.not.not = p := by
  cases p <;> simp [Truth.not]

/-- A disjunction is false where both negations are conjoined. -/
theorem or_eq_not_and (p q : Truth) : p.or q = (p.not.and q.not).not := by
  rcases p with _ | a <;> rcases q with _ | b
  · rfl
  · cases b <;> rfl
  · cases a <;> rfl
  · cases a <;> cases b <;> rfl

theorem implies_eq_or (p q : Truth) : p.implies q = p.not.or q := by
  rcases p with _ | a <;> rcases q with _ | b
  · rfl
  · cases b <;> rfl
  · cases a <;> rfl
  · cases a <;> cases b <;> rfl

@[simp] theorem or_eq_some_true {p q : Truth} :
    p.or q = some true ↔ p = some true ∨ q = some true := by
  simp [or_eq_not_and]

@[simp] theorem or_eq_some_false {p q : Truth} :
    p.or q = some false ↔ p = some false ∧ q = some false := by
  simp [or_eq_not_and]

@[simp] theorem implies_eq_some_true {p q : Truth} :
    p.implies q = some true ↔ p = some false ∨ q = some true := by
  simp [implies_eq_or]

@[simp] theorem implies_eq_some_false {p q : Truth} :
    p.implies q = some false ↔ p = some true ∧ q = some false := by
  simp [implies_eq_or]

theorem eq_of_iff {p q : Truth} (ht : p = some true ↔ q = some true)
    (hf : p = some false ↔ q = some false) : p = q := by
  rcases p with _ | a
  · cases q with
    | none => rfl
    | some b => cases b <;> simp_all
  · cases a with
    | true => exact (ht.mp rfl).symm
    | false => exact (hf.mp rfl).symm

protected theorem and_assoc (p q r : Truth) : (p.and q).and r = p.and (q.and r) :=
  eq_of_iff (by simp [and_assoc]) (by simp [or_assoc])

theorem or_and (p q r : Truth) : p.or (q.and r) = (p.or q).and (p.or r) :=
  eq_of_iff (by simp [or_and_left]) (by simp [and_or_left])

theorem and_or (p q r : Truth) : (p.and q).or r = (p.or r).and (q.or r) :=
  eq_of_iff (by simp [and_or_right]) (by simp [or_and_right])

protected theorem not_and (p q : Truth) : (p.and q).not = p.not.or q.not :=
  eq_of_iff (by simp) (by simp)

protected theorem not_or (p q : Truth) : (p.or q).not = p.not.and q.not :=
  eq_of_iff (by simp) (by simp)

protected theorem true_and (p : Truth) : Truth.and (some true) p = p := by
  rcases p with _ | a
  · rfl
  · cases a <;> rfl

protected theorem and_true (p : Truth) : p.and (some true) = p := by
  rcases p with _ | a
  · rfl
  · cases a <;> rfl

protected theorem or_false (p : Truth) : p.or (some false) = p := by
  rcases p with _ | a
  · rfl
  · cases a <;> rfl

theorem not_some (a : Bool) : Truth.not (some a) = some (!a) := rfl

theorem and_some (a b : Bool) : Truth.and (some a) (some b) = some (a && b) := by
  cases a <;> cases b <;> rfl

theorem or_some (a b : Bool) : Truth.or (some a) (some b) = some (a || b) := by
  cases a <;> cases b <;> rfl

/-- The second truth is the first one, as far as that is known. -/
def Le (p q : Truth) : Prop := ∀ b, p = some b → q = some b

theorem Le.antisymm {p q : Truth} (h : p.Le q) (k : q.Le p) : p = q :=
  Option.ext fun b => ⟨h b, k b⟩

theorem Le.not {p q : Truth} (h : p.Le q) : p.not.Le q.not := by
  intro b hb
  rw [not_eq_some_iff] at hb ⊢
  exact h (!b) hb

theorem Le.and {p q r s : Truth} (h : p.Le q) (k : r.Le s) : (p.and r).Le (q.and s) := by
  intro b hb
  cases b with
  | true =>
      obtain ⟨hp, hr⟩ := and_eq_some_true.mp hb
      exact and_eq_some_true.mpr ⟨h true hp, k true hr⟩
  | false =>
      rcases and_eq_some_false.mp hb with hp | hr
      · exact and_eq_some_false.mpr (.inl (h false hp))
      · exact and_eq_some_false.mpr (.inr (k false hr))

theorem Le.or {p q r s : Truth} (h : p.Le q) (k : r.Le s) : (p.or r).Le (q.or s) := by
  rw [or_eq_not_and, or_eq_not_and]
  exact (h.not.and k.not).not

theorem Le.implies {p q r s : Truth} (h : p.Le q) (k : r.Le s) :
    (p.implies r).Le (q.implies s) := by
  rw [implies_eq_or, implies_eq_or]
  exact h.not.or k

end Truth

namespace Formula

/-- What is known under one valuation stays so under another that keeps the atoms of the formula. -/
theorem truth_le {v w : Valuation String} {f : Formula}
    (h : ∀ name ∈ f.occurrences, Truth.Le v[name]? w[name]?) : (f.truth v).Le (f.truth w) := by
  induction f with
  | atom name => exact h name (List.mem_singleton_self name)
  | not f ih => exact (ih h).not
  | and f g ihf ihg =>
      exact (ihf fun n hn => h n (List.mem_append_left _ hn)).and
        (ihg fun n hn => h n (List.mem_append_right _ hn))
  | or f g ihf ihg =>
      exact (ihf fun n hn => h n (List.mem_append_left _ hn)).or
        (ihg fun n hn => h n (List.mem_append_right _ hn))
  | implies f g ihf ihg =>
      exact (ihf fun n hn => h n (List.mem_append_left _ hn)).implies
        (ihg fun n hn => h n (List.mem_append_right _ hn))

theorem truthAll_eq_some_true {v : Valuation String} {fs : List Formula} :
    truthAll v fs = some true ↔ ∀ f ∈ fs, f.truth v = some true := by
  induction fs with
  | nil => simp [truthAll]
  | cons f fs ih => rw [truthAll_cons, Truth.and_eq_some_true, ih, List.forall_mem_cons]

theorem truthAll_le {v w : Valuation String} {fs : List Formula}
    (h : ∀ f ∈ fs, ∀ name ∈ f.occurrences, Truth.Le v[name]? w[name]?) :
    (truthAll v fs).Le (truthAll w fs) := by
  induction fs with
  | nil => exact fun _ => id
  | cons f fs ih =>
      obtain ⟨hf, hfs⟩ := List.forall_mem_cons.mp h
      rw [truthAll_cons, truthAll_cons]
      exact (truth_le hf).and (ih hfs)

theorem truthAll_eq_foldr (v : Valuation String) (fs : List Formula) :
    truthAll v fs = (fs.map (truth v)).foldr Truth.and (some true) := by
  induction fs with
  | nil => rfl
  | cons f fs ih => rw [truthAll_cons, ih, List.map_cons, List.foldr_cons]

/-- The classical truth value under a total assignment. -/
def eval (σ : Assignment String) : Formula → Bool
  | atom name => σ name
  | not f => !f.eval σ
  | and f g => f.eval σ && g.eval σ
  | or f g => f.eval σ || g.eval σ
  | implies f g => !f.eval σ || g.eval σ

theorem eval_and (σ : Assignment String) (f g : Formula) :
    (and f g).eval σ = true ↔ f.eval σ = true ∧ g.eval σ = true :=
  Bool.and_eq_true_iff

theorem eval_implies (σ : Assignment String) (f g : Formula) :
    (implies f g).eval σ = true ↔ (f.eval σ = true → g.eval σ = true) := by
  rw [eval]
  cases f.eval σ <;> simp

theorem truth_eq_eval {σ : Assignment String} {v : Valuation String} {f : Formula}
    (h : ∀ name ∈ f.occurrences, v[name]? = some (σ name)) : f.truth v = some (f.eval σ) := by
  induction f with
  | atom name => exact h name (List.mem_singleton_self name)
  | not f ih => rw [truth, ih h, eval, Truth.not_some]
  | and f g ihf ihg =>
      have hf := ihf fun n hn => h n (List.mem_append_left _ hn)
      have hg := ihg fun n hn => h n (List.mem_append_right _ hn)
      rw [truth, hf, hg, eval, Truth.and_some]
  | or f g ihf ihg =>
      have hf := ihf fun n hn => h n (List.mem_append_left _ hn)
      have hg := ihg fun n hn => h n (List.mem_append_right _ hn)
      rw [truth, hf, hg, eval, Truth.or_some]
  | implies f g ihf ihg =>
      have hf := ihf fun n hn => h n (List.mem_append_left _ hn)
      have hg := ihg fun n hn => h n (List.mem_append_right _ hn)
      rw [truth, hf, hg, eval, Truth.implies_eq_or, Truth.not_some, Truth.or_some]

theorem truth_eq_eval_toAssignment {v : Valuation String} {f : Formula}
    (h : ∀ name ∈ f.occurrences, name ∈ v) : f.truth v = some (f.eval v.toAssignment) :=
  truth_eq_eval fun name hn => Valuation.getElem?_eq_toAssignment (h name hn)

theorem truth_restrict {σ : Assignment String} {names : List String} {f : Formula}
    (h : ∀ name ∈ f.occurrences, name ∈ names) : f.truth (σ.restrict names) = some (f.eval σ) :=
  truth_eq_eval fun name hn => Assignment.getElem?_restrict (h name hn)

theorem eval_eq_of_truth {σ : Assignment String} {v : Valuation String} (hσ : σ.Completes v)
    {f : Formula} {b : Bool} (h : f.truth v = some b) : f.eval σ = b := by
  have hle : (f.truth v).Le (f.truth (σ.restrict f.occurrences)) := by
    apply truth_le
    intro name hn b hb
    rw [Assignment.getElem?_restrict hn, hσ name b hb]
  have hb := hle b h
  rw [truth_restrict fun _ => id] at hb
  exact Option.some.inj hb

/-- A known truth stays as it is when more becomes known, and it depends on the atoms of the formula
only. Once all of these have a value it is known, and it is the one that every total assignment with
these values gives. -/
theorem truth_monotone_and_local (f : Formula) :
    (∀ v w : Valuation String,
      (∀ name ∈ f.atomNames, ∀ b, v[name]? = some b → w[name]? = some b) →
        ∀ b, f.truth v = some b → f.truth w = some b) ∧
      (∀ v w : Valuation String, (∀ name ∈ f.atomNames, v[name]? = w[name]?) →
        f.truth v = f.truth w) ∧
      ∀ v : Valuation String, (∀ name ∈ f.atomNames, name ∈ v) →
        ∃ b, f.truth v = some b ∧ ∀ σ : Assignment String, σ.Completes v → f.eval σ = b := by
  simp only [mem_atomNames]
  refine ⟨fun v w h => truth_le h, fun v w h => ?_, fun v h => ?_⟩
  · have hvw : (f.truth v).Le (f.truth w) := truth_le fun name hn b hb => h name hn ▸ hb
    have hwv : (f.truth w).Le (f.truth v) := truth_le fun name hn b hb => (h name hn).trans hb
    exact hvw.antisymm hwv
  · have hv := truth_eq_eval_toAssignment h
    exact ⟨f.eval v.toAssignment, hv, fun σ hσ => eval_eq_of_truth hσ hv⟩

/-- Some valuation of all their atoms makes every formula true. -/
def Satisfiable (fs : List Formula) : Prop :=
  ∃ v : Valuation String,
    (∀ f ∈ fs, ∀ name ∈ f.occurrences, name ∈ v) ∧ ∀ f ∈ fs, f.truth v = some true

theorem satisfiable_of_eval {fs : List Formula} {σ : Assignment String}
    (h : ∀ f ∈ fs, f.eval σ = true) : Satisfiable fs := by
  have hnames : ∀ f ∈ fs, ∀ name ∈ f.occurrences, name ∈ fs.flatMap occurrences :=
    fun f hf name hn => List.mem_flatMap.mpr ⟨f, hf, hn⟩
  refine ⟨σ.restrict (fs.flatMap occurrences), fun f hf name hn => ?_, fun f hf => ?_⟩
  · exact Assignment.mem_restrict.mpr (hnames f hf name hn)
  · rw [truth_restrict (hnames f hf), h f hf]

theorem eval_of_truth {fs : List Formula} {v : Valuation String}
    (h : ∀ f ∈ fs, f.truth v = some true) : ∀ f ∈ fs, f.eval v.toAssignment = true :=
  fun f hf => eval_eq_of_truth v.completes_toAssignment (h f hf)

theorem satisfiable_iff_eval {fs : List Formula} :
    Satisfiable fs ↔ ∃ σ : Assignment String, ∀ f ∈ fs, f.eval σ = true := by
  constructor
  · intro hex
    rcases hex with ⟨v, -, hv⟩
    exact ⟨v.toAssignment, eval_of_truth hv⟩
  · intro hex
    rcases hex with ⟨σ, hσ⟩
    exact satisfiable_of_eval hσ

theorem satisfiable_iff_truth {fs : List Formula} :
    Satisfiable fs ↔ ∃ v : Valuation String, ∀ f ∈ fs, f.truth v = some true := by
  constructor
  · intro hex
    rcases hex with ⟨v, -, hv⟩
    exact ⟨v, hv⟩
  · intro hex
    rcases hex with ⟨v, hv⟩
    exact satisfiable_of_eval (eval_of_truth hv)

/-- A search that returns models only, and one wherever there is one, fails exactly on formulas
that have none. -/
theorem eq_none_iff {fs : List Formula} {o : Option (Valuation String)}
    (hsound : ∀ v, o = some v → ∀ f ∈ fs, f.truth v = some true)
    (hcomplete : ∀ σ : Assignment String, (∀ f ∈ fs, f.eval σ = true) → ∃ v, o = some v) :
    o = none ↔ ¬ Satisfiable fs := by
  constructor
  · intro hnone hsat
    obtain ⟨σ, hσ⟩ := satisfiable_iff_eval.mp hsat
    obtain ⟨v, hv⟩ := hcomplete σ hσ
    rw [hnone] at hv
    contradiction
  · intro hunsat
    cases o with
    | none => rfl
    | some v => exact absurd (satisfiable_iff_truth.mpr ⟨v, hsound v rfl⟩) hunsat

end Formula

section

variable {α : Type} [Atom α]

def Literal.truth (v : Valuation α) (l : Literal α) : Truth :=
  if l.sign then v[l.atom]? else Truth.not v[l.atom]?

theorem Literal.truth_eq_some_true {v : Valuation α} {l : Literal α} :
    l.truth v = some true ↔ l.HoldsIn v := by
  unfold Literal.truth Literal.HoldsIn
  cases l.sign with
  | true => rfl
  | false => exact Truth.not_eq_some_iff

end

theorem Formula.truth_ofLiteral (v : Valuation String) (l : Literal String) :
    (ofLiteral l).truth v = l.truth v := by
  obtain ⟨name, s⟩ := l
  cases s <;> rfl

end PropSat
