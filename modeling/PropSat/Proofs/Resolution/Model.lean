import PropSat.Proofs.Resolution.Saturation

/-!
# The canonical model is the least model

The atoms are decided in ascending order. Whatever the clauses are, a model of them that departs
from the canonical one makes an atom true at the first difference. When they are closed under
resolution and none is empty, every clause over the atoms decided so far is true.
-/

namespace PropSat

variable {α : Type} [Atom α]

namespace LiteralSet

def HoldsIn (v : Valuation α) (c : LiteralSet α) : Prop := ∃ l ∈ c, l.HoldsIn v

theorem tautology_iff {c : LiteralSet α} : c.tautology ↔ ∃ l ∈ c, l.negate ∈ c := by
  simp [tautology]

theorem requires_iff {v : Valuation α} {a : α} {c : LiteralSet α} :
    requires v a c ↔ ¬ c.tautology ∧ (⟨a, true⟩ : Literal α) ∈ c ∧
      ∀ l ∈ c, l.atom ≠ a → compare l.atom a = .lt ∧ l.negate.HoldsIn v := by
  simp only [requires, Bool.and_eq_true, Bool.not_eq_true', decide_eq_true_eq, List.all_eq_true,
    Std.ExtTreeSet.mem_toList, Bool.or_eq_true, and_assoc, Ordering.isLT_iff_eq_lt,
    Bool.not_eq_true, Decidable.or_iff_not_imp_left, ne_eq]

def decideNext (cs : List (LiteralSet α)) (v : Valuation α) (a : α) : Valuation α :=
  v.insert a (cs.any (requires v a))

theorem getElem?_decideNext (cs : List (LiteralSet α)) (v : Valuation α) (a b : α) :
    (decideNext cs v a)[b]? = if a = b then some (cs.any (requires v a)) else v[b]? := by
  simp [decideNext, Std.ExtTreeMap.getElem?_insert]

theorem mem_decideNext {cs : List (LiteralSet α)} {v : Valuation α} {a b : α} :
    b ∈ decideNext cs v a ↔ a = b ∨ b ∈ v := by
  simp [decideNext, Std.ExtTreeMap.mem_insert]

/-- What holds at first, and passes from the atoms decided so far to the next greater one, holds
once all atoms are decided. -/
theorem foldl_decideNext {cs : List (LiteralSet α)} {P : List α → Valuation α → Prop}
    (step : ∀ done a v, (∀ b ∈ done, compare b a = .lt) → P done v →
      P (done ++ [a]) (decideNext cs v a))
    {todo done : List α} {v : Valuation α} (h : P done v)
    (hs : (done ++ todo).Pairwise (compare · · = .lt)) :
    P (done ++ todo) (todo.foldl (decideNext cs) v) := by
  induction todo generalizing done v with
  | nil => simpa using h
  | cons a todo ih =>
      have hless : ∀ b ∈ done, compare b a = .lt := fun b hb =>
        (List.pairwise_append.mp hs).2.2 b hb a List.mem_cons_self
      rw [List.append_cons] at hs ⊢
      exact ih (step done a v hless h) hs

def atoms (cs : List (LiteralSet α)) : Std.ExtTreeSet α := ClauseSet.atoms (cs.map (·.toList))

theorem mem_atoms {cs : List (LiteralSet α)} {a : α} :
    a ∈ atoms cs ↔ ∃ l ∈ literals cs, l.atom = a := by
  rw [atoms, ClauseSet.mem_atoms]
  constructor
  · intro hex
    rcases hex with ⟨d, hd, l, hl, ha⟩
    obtain ⟨c, hc, rfl⟩ := List.mem_map.mp hd
    exact ⟨l, mem_literals.mpr ⟨c, hc, Std.ExtTreeSet.mem_toList.mp hl⟩, ha⟩
  · intro hex
    rcases hex with ⟨l, hl, ha⟩
    obtain ⟨c, hc, hlc⟩ := mem_literals.mp hl
    exact ⟨c.toList, List.mem_map_of_mem hc, l, Std.ExtTreeSet.mem_toList.mpr hlc, ha⟩

theorem canonicalModel_induction {cs : List (LiteralSet α)} {P : List α → Valuation α → Prop}
    (start : P [] ∅)
    (step : ∀ done a v, (∀ b ∈ done, compare b a = .lt) → P done v →
      P (done ++ [a]) (decideNext cs v a)) :
    P (atoms cs).toList (canonicalModel cs) := by
  have hs : ([] ++ (atoms cs).toList).Pairwise (compare · · = Ordering.lt) := by
    rw [List.nil_append]
    exact Std.ExtTreeSet.ordered_toList
  exact foldl_decideNext step start hs

/-- The valuation gives a value to the listed atoms and to no other. -/
def Covers (done : List α) (v : Valuation α) : Prop := ∀ b, b ∈ v ↔ b ∈ done

theorem covers_empty : Covers [] (∅ : Valuation α) := by
  intro b
  simp [Std.ExtTreeMap.not_mem_empty]

theorem Covers.next {cs : List (LiteralSet α)} {done : List α} {v : Valuation α}
    (h : Covers done v) (a : α) : Covers (done ++ [a]) (decideNext cs v a) := by
  intro b
  rw [mem_decideNext, h b, List.mem_append, List.mem_singleton, eq_comm, or_comm]

theorem notMem_of_less {done : List α} {a : α}
    (hless : ∀ b ∈ done, compare b a = .lt) : a ∉ done := by
  intro ha
  simpa using hless a ha

theorem holdsIn_decideNext {cs : List (LiteralSet α)} {v : Valuation α} {a : α} {l : Literal α}
    (hne : l.atom ≠ a) (h : l.HoldsIn v) : l.HoldsIn (decideNext cs v a) := by
  unfold Literal.HoldsIn at h ⊢
  rw [getElem?_decideNext, if_neg hne.symm, h]

/-! ## Truth of closed clauses -/

/-- A clause that is false apart from a negated atom clashes with the clause that requires the atom,
and their resolvent is false on smaller atoms. -/
theorem exists_false_of_requires {cs : List (LiteralSet α)} (hcs : Closed cs) {v : Valuation α}
    {a : α} {c d : LiteralSet α} (hc : c ∈ cs) (hd : d ∈ cs) (hreq : requires v a d)
    (ht : ¬ c.tautology) (hneg : (⟨a, false⟩ : Literal α) ∈ c)
    (hfalse : ∀ l ∈ c, l.atom ≠ a → l.negate.HoldsIn v) :
    ∃ r ∈ cs, ∀ l ∈ r, l.atom ≠ a ∧ l.negate.HoldsIn v := by
  obtain ⟨htd, hpos, hrest⟩ := requires_iff.mp hreq
  have honly : ∀ k ∈ c, k.negate ∈ d → k = ⟨a, false⟩ := by
    intro k hk hkd
    by_cases ha : k.atom = a
    · rcases Literal.eq_or_eq_negate_of_atom_eq (k := ⟨a, false⟩) ha with he | he
      · exact he
      · exact absurd (tautology_iff.mpr ⟨⟨a, false⟩, hneg, he ▸ hk⟩) ht
    · have hkv := (hrest k.negate hkd ha).2
      exact absurd hkv (hfalse k hk ha).not_negate
  have hclash : c.ClashOn d ⟨a, false⟩ := ⟨hneg, hpos, honly⟩
  refine ⟨_, hcs c hc d hd _ (resolve?_eq_some_iff.mpr ⟨_, hclash, rfl⟩), fun l hl => ?_⟩
  rcases mem_erase_union_erase.mp hl with ⟨hlc, hne⟩ | ⟨hld, hne⟩
  · have ha : l.atom ≠ a := by
      intro ha
      rcases Literal.eq_or_eq_negate_of_atom_eq (k := ⟨a, false⟩) ha with he | he
      · exact hne he
      · exact ht (tautology_iff.mpr ⟨⟨a, false⟩, hneg, he ▸ hlc⟩)
    exact ⟨ha, hfalse l hlc ha⟩
  · have ha : l.atom ≠ a := by
      intro ha
      rcases Literal.eq_or_eq_negate_of_atom_eq (k := ⟨a, true⟩) ha with he | he
      · exact hne he
      · exact htd (tautology_iff.mpr ⟨⟨a, true⟩, hpos, he ▸ hld⟩)
    exact ⟨ha, (hrest l hld ha).2⟩

/-- Every clause over the atoms decided so far is true. -/
def Valid (cs : List (LiteralSet α)) (done : List α) (v : Valuation α) : Prop :=
  ∀ c ∈ cs, (∀ l ∈ c, l.atom ∈ done) → c.HoldsIn v

/-- A closed list has no clause that is false on the atoms decided so far, so a clause required at
the next atom leaves no clause false there either. -/
theorem Valid.not_requires {cs : List (LiteralSet α)} (hcs : Closed cs) {done : List α}
    {v : Valuation α} {a : α} (hv : Covers done v) (h : Valid cs done v) {c d : LiteralSet α}
    (hc : c ∈ cs) (ht : ¬ c.tautology) (hneg : (⟨a, false⟩ : Literal α) ∈ c)
    (hfalse : ∀ l ∈ c, l.atom ≠ a → l.negate.HoldsIn v) (hd : d ∈ cs) : ¬ requires v a d := by
  intro hreq
  obtain ⟨r, hr, hrv⟩ := exists_false_of_requires hcs hc hd hreq ht hneg hfalse
  have hdone : ∀ l ∈ r, l.atom ∈ done := fun l hl => (hv l.atom).mp (hrv l hl).2.mem
  obtain ⟨l, hl, hlv⟩ := h r hr hdone
  exact hlv.not_negate (hrv l hl).2

theorem Valid.next {cs : List (LiteralSet α)} (hcs : Closed cs) {done : List α} {v : Valuation α}
    {a : α} (hless : ∀ b ∈ done, compare b a = .lt) (hv : Covers done v) (h : Valid cs done v) :
    Valid cs (done ++ [a]) (decideNext cs v a) := by
  intro c hc hatoms
  have hold : ∀ l ∈ c, l.atom ≠ a → l.atom ∈ done := by
    intro l hl hne
    rcases List.mem_append.mp (hatoms l hl) with hd | ha
    · exact hd
    · exact absurd (List.mem_singleton.mp ha) hne
  have hnew : (⟨a, cs.any (requires v a)⟩ : Literal α) ∈ c → c.HoldsIn (decideNext cs v a) := by
    intro hmem
    refine ⟨_, hmem, ?_⟩
    unfold Literal.HoldsIn
    rw [getElem?_decideNext, if_pos rfl]
  by_cases htrue : ∃ l ∈ c, l.atom ≠ a ∧ l.HoldsIn v
  · obtain ⟨l, hl, hne, hlv⟩ := htrue
    exact ⟨l, hl, holdsIn_decideNext hne hlv⟩
  have hfalse : ∀ l ∈ c, l.atom ≠ a → l.negate.HoldsIn v := by
    intro l hl hne
    have hmem : l.atom ∈ v := (hv l.atom).mpr (hold l hl hne)
    exact (Literal.holdsIn_or_negate hmem).resolve_left fun hlv => htrue ⟨l, hl, hne, hlv⟩
  by_cases ht : c.tautology
  · obtain ⟨l, hl, hln⟩ := tautology_iff.mp ht
    by_cases ha : l.atom = a
    · rcases Literal.eq_or_eq_negate_of_atom_eq (k := ⟨a, cs.any (requires v a)⟩) ha with he | he
      · exact hnew (he ▸ hl)
      · rw [he, Literal.negate_negate] at hln
        exact hnew hln
    · exact absurd (hfalse l.negate hln ha) (hfalse l hl ha).not_negate
  by_cases ha : ∃ l ∈ c, l.atom = a
  · obtain ⟨⟨b, s⟩, hl, hb⟩ := ha
    obtain rfl : b = a := hb
    cases s with
    | true =>
        have hreq : requires v b c := requires_iff.mpr
          ⟨ht, hl, fun l hlc hne => ⟨hless _ (hold l hlc hne), hfalse l hlc hne⟩⟩
        exact hnew (by rw [List.any_eq_true.mpr ⟨c, hc, hreq⟩]; exact hl)
    | false =>
        have hnone : cs.any (requires v b) = false := by
          apply List.any_eq_false.mpr
          intro d hd
          exact h.not_requires hcs hv hc ht hl hfalse hd
        exact hnew (by rw [hnone]; exact hl)
  · have hne : ∀ l ∈ c, l.atom ≠ a := fun l hl he => ha ⟨l, hl, he⟩
    obtain ⟨l, hl, hlv⟩ := h c hc fun l hl => hold l hl (hne l hl)
    exact absurd ⟨l, hl, hne l hl, hlv⟩ htrue

theorem covers_canonicalModel (cs : List (LiteralSet α)) :
    Covers (atoms cs).toList (canonicalModel cs) :=
  canonicalModel_induction covers_empty fun _ a _ _ hv => hv.next a

theorem mem_canonicalModel {cs : List (LiteralSet α)} {a : α} :
    a ∈ canonicalModel cs ↔ a ∈ atoms cs := by
  rw [covers_canonicalModel cs a, Std.ExtTreeSet.mem_toList]

theorem holdsIn_canonicalModel {cs : List (LiteralSet α)} (hcs : Closed cs) (he : ∅ ∉ cs) :
    ∀ c ∈ cs, c.HoldsIn (canonicalModel cs) := by
  have hstart : Valid cs [] ∅ := by
    intro c hc hatoms
    have hempty : c = ∅ := by
      ext l
      constructor
      · intro hl
        exact absurd (hatoms l hl) List.not_mem_nil
      · intro hl
        exact absurd hl Std.ExtTreeSet.not_mem_empty
    exact absurd (hempty ▸ hc) he
  have hfinal : Covers (atoms cs).toList (canonicalModel cs) ∧
      Valid cs (atoms cs).toList (canonicalModel cs) :=
    canonicalModel_induction (P := fun done v => Covers done v ∧ Valid cs done v)
      ⟨covers_empty, hstart⟩ fun _ a _ hless h => ⟨h.1.next a, h.2.next hcs hless h.1⟩
  intro c hc
  apply hfinal.2 c hc
  intro l hl
  rw [Std.ExtTreeSet.mem_toList, mem_atoms]
  exact ⟨l, mem_literals.mpr ⟨c, hc, hl⟩, rfl⟩

/-! ## Order of models -/

/-- On the atoms decided so far the assignment agrees with the valuation, or it makes the first atom
true on which it does not. -/
def Below (σ : Assignment α) (done : List α) (v : Valuation α) : Prop :=
  (∀ b ∈ done, v[b]? = some (σ b)) ∨
    ∃ a ∈ done, v[a]? = some false ∧ σ a = true ∧
      ∀ b ∈ done, compare b a = .lt → v[b]? = some (σ b)

theorem eq_true_of_requires {σ : Assignment α} {v : Valuation α} {a : α} {c : LiteralSet α}
    (h : requires v a c) (hc : c.TrueUnder σ) (hv : σ.Completes v) : σ a = true := by
  obtain ⟨ht, hpos, hrest⟩ := requires_iff.mp h
  obtain ⟨l, hl, hσ⟩ := hc
  by_cases ha : l.atom = a
  · rcases Literal.eq_or_eq_negate_of_atom_eq (k := ⟨a, true⟩) ha with he | he
    · rw [he] at hσ
      exact hσ
    · exact absurd (tautology_iff.mpr ⟨⟨a, true⟩, hpos, he ▸ hl⟩) ht
  · have hfalse : l.negate.TrueUnder σ := (hrest l hl ha).2.trueUnder hv
    exact absurd hfalse (Literal.not_trueUnder_negate hσ)

theorem Below.next {cs : List (LiteralSet α)} {σ : Assignment α} (hσ : ∀ c ∈ cs, c.TrueUnder σ)
    {done : List α} {v : Valuation α} {a : α} (hless : ∀ b ∈ done, compare b a = .lt)
    (hv : Covers done v) (h : Below σ done v) : Below σ (done ++ [a]) (decideNext cs v a) := by
  have hkeep : ∀ b ∈ done, (decideNext cs v a)[b]? = v[b]? := by
    intro b hb
    have hne : a ≠ b := fun he => notMem_of_less hless (he ▸ hb)
    rw [getElem?_decideNext, if_neg hne]
  have hself : (decideNext cs v a)[a]? = some (cs.any (requires v a)) := by
    rw [getElem?_decideNext, if_pos rfl]
  rcases h with hagree | ⟨e, he, hve, hσe, hbelow⟩
  · have hcomplete : σ.Completes v := by
      intro b s hb
      have hmem : b ∈ done := (hv b).mp (Valuation.mem_of_getElem?_eq_some hb)
      rw [hagree b hmem] at hb
      exact Option.some.inj hb
    have hle : cs.any (requires v a) = true → σ a = true := by
      intro hany
      obtain ⟨c, hc, hreq⟩ := List.any_eq_true.mp hany
      exact eq_true_of_requires hreq (hσ c hc) hcomplete
    by_cases heq : cs.any (requires v a) = σ a
    · refine .inl fun b hb => ?_
      rcases List.mem_append.mp hb with hd | ha
      · rw [hkeep b hd, hagree b hd]
      · rw [List.mem_singleton.mp ha, hself, heq]
    · have hany : cs.any (requires v a) = false :=
        Bool.eq_false_iff.mpr fun hany => heq (hany.trans (hle hany).symm)
      have hσa : σ a = true := by simpa [hany] using heq
      refine .inr ⟨a, by simp, by rw [hself, hany], hσa, fun b hb hlt => ?_⟩
      rcases List.mem_append.mp hb with hd | ha
      · rw [hkeep b hd, hagree b hd]
      · rw [List.mem_singleton.mp ha] at hlt
        simp at hlt
  · refine .inr ⟨e, List.mem_append_left _ he, by rw [hkeep e he, hve], hσe, fun b hb hlt => ?_⟩
    rcases List.mem_append.mp hb with hd | ha
    · rw [hkeep b hd, hbelow b hd hlt]
    · rw [List.mem_singleton.mp ha] at hlt
      exact absurd hlt (Std.OrientedCmp.not_lt_of_lt (hless e he))

theorem below_canonicalModel {cs : List (LiteralSet α)} {σ : Assignment α}
    (hσ : ∀ c ∈ cs, c.TrueUnder σ) : Below σ (atoms cs).toList (canonicalModel cs) := by
  have hfinal : Covers (atoms cs).toList (canonicalModel cs) ∧
      Below σ (atoms cs).toList (canonicalModel cs) :=
    canonicalModel_induction (P := fun done v => Covers done v ∧ Below σ done v)
      ⟨covers_empty, .inl fun b hb => absurd hb List.not_mem_nil⟩
      fun _ a _ hless h => ⟨h.1.next a, h.2.next hσ hless h.1⟩
  exact hfinal.2

/-- The canonical model gives a value to exactly the atoms of the clauses. A model of the clauses
that differs from it on them makes the first atom on which they differ true, and the canonical model
makes it false. If no clause is empty and all resolvents are among the clauses, the canonical model
makes a literal of every clause true. -/
theorem canonicalModel_bounds_models (cs : List (LiteralSet α)) :
    (∀ a, a ∈ canonicalModel cs ↔ ∃ c ∈ cs, ∃ l ∈ c, l.atom = a) ∧
      (∀ σ : Assignment α, (∀ c ∈ cs, c.TrueUnder σ) →
        (∃ a ∈ canonicalModel cs, (canonicalModel cs)[a]? ≠ some (σ a)) →
          ∃ a, (canonicalModel cs)[a]? = some false ∧ σ a = true ∧
            ∀ b ∈ canonicalModel cs, compare b a = .lt → (canonicalModel cs)[b]? = some (σ b)) ∧
      (∅ ∉ cs → (∀ c ∈ cs, ∀ d ∈ cs, ∀ r, c.resolve? d = some r → r ∈ cs) →
        ∀ c ∈ cs, ∃ l ∈ c, (canonicalModel cs)[l.atom]? = some l.sign) := by
  have hlisted : ∀ a, a ∈ canonicalModel cs ↔ a ∈ (atoms cs).toList := covers_canonicalModel cs
  refine ⟨fun a => ?_, fun σ hσ hdiff => ?_, fun he hcs => holdsIn_canonicalModel hcs he⟩
  · rw [mem_canonicalModel, mem_atoms]
    constructor
    · intro hex
      obtain ⟨l, hl, ha⟩ := hex
      obtain ⟨c, hc, hlc⟩ := mem_literals.mp hl
      exact ⟨c, hc, l, hlc, ha⟩
    · intro hex
      obtain ⟨c, hc, l, hlc, ha⟩ := hex
      exact ⟨l, mem_literals.mpr ⟨c, hc, hlc⟩, ha⟩
  · obtain ⟨b, hb, hne⟩ := hdiff
    rcases below_canonicalModel hσ with hagree | ⟨a, -, hfalse, htrue, hbelow⟩
    · exact absurd (hagree b ((hlisted b).mp hb)) hne
    · exact ⟨a, hfalse, htrue, fun b hb => hbelow b ((hlisted b).mp hb)⟩

end LiteralSet

end PropSat
