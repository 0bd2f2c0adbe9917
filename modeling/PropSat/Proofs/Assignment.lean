import PropSat.Clause

/-!
# Total assignments

A total assignment gives every atom a value. It completes a partial valuation when it agrees with it
wherever that is defined, so what a valuation makes true is true under all its completions.
-/

namespace PropSat

abbrev Assignment (α : Type) := α → Bool

section

variable {α : Type}

def Literal.TrueUnder (σ : Assignment α) (l : Literal α) : Prop := σ l.atom = l.sign

def Clause.TrueUnder (σ : Assignment α) (c : Clause α) : Prop := ∃ l ∈ c, l.TrueUnder σ

def ClauseSet.TrueUnder (σ : Assignment α) (cs : ClauseSet α) : Prop := ∀ c ∈ cs, c.TrueUnder σ

def ClauseSet.Satisfiable (cs : ClauseSet α) : Prop := ∃ σ : Assignment α, cs.TrueUnder σ

theorem Literal.trueUnder_or_negate (σ : Assignment α) (l : Literal α) :
    l.TrueUnder σ ∨ l.negate.TrueUnder σ := by
  unfold TrueUnder
  rw [negate_atom, negate_sign]
  cases σ l.atom <;> cases l.sign <;> simp

theorem Literal.not_trueUnder_negate {σ : Assignment α} {l : Literal α} (h : l.TrueUnder σ) :
    ¬ l.negate.TrueUnder σ := by
  unfold TrueUnder at h ⊢
  rw [negate_atom, negate_sign, h]
  simp

end

variable {α : Type} [Atom α]

/-- The assignment agrees with the valuation wherever that is defined. -/
def Assignment.Completes (σ : Assignment α) (v : Valuation α) : Prop :=
  ∀ (a : α) (b : Bool), v[a]? = some b → σ a = b

namespace Valuation

theorem mem_of_getElem?_eq_some {v : Valuation α} {a : α} {b : Bool} (h : v[a]? = some b) : a ∈ v :=
  Std.ExtTreeMap.mem_iff_isSome_getElem?.mpr (Option.isSome_of_eq_some h)

/-- The completion that makes all other atoms false. -/
def toAssignment (v : Valuation α) : Assignment α := fun a => v[a]?.getD false

theorem completes_toAssignment (v : Valuation α) : v.toAssignment.Completes v := by
  intro a b h
  simp [toAssignment, h]

theorem getElem?_eq_toAssignment {v : Valuation α} {a : α} (h : a ∈ v) :
    v[a]? = some (v.toAssignment a) := by
  rw [toAssignment, Std.ExtTreeMap.getElem?_eq_some_getElem h, Option.getD_some]

/-- The first valuation gives every atom of the second the same value. -/
def Extends (w v : Valuation α) : Prop := ∀ (a : α) (b : Bool), v[a]? = some b → w[a]? = some b

theorem Extends.refl (v : Valuation α) : v.Extends v := fun _ _ h => h

/-- At the first atom on which the valuations differ, the first is false and the second true. -/
def LexLT (v w : Valuation α) : Prop :=
  ∃ a : α, v[a]? = some false ∧ w[a]? = some true ∧ ∀ b, compare b a = .lt → v[b]? = w[b]?

theorem LexLT.ne {v w : Valuation α} (h : v.LexLT w) : v ≠ w := by
  obtain ⟨a, hv, hw, -⟩ := h
  intro heq
  rw [heq, hw] at hv
  contradiction

end Valuation

def Assignment.restrict (σ : Assignment α) (as : List α) : Valuation α :=
  as.foldr (fun a v => v.insert a (σ a)) ∅

theorem Assignment.getElem?_restrict {σ : Assignment α} {as : List α} {a : α} (h : a ∈ as) :
    (σ.restrict as)[a]? = some (σ a) := by
  induction as with
  | nil => contradiction
  | cons b as ih =>
      unfold restrict at ih ⊢
      rw [List.foldr_cons, Std.ExtTreeMap.getElem?_insert]
      by_cases hb : b = a
      · simp [hb]
      · have hm : a ∈ as := List.mem_of_ne_of_mem (Ne.symm hb) h
        simp [hb, ih hm]

theorem Assignment.mem_restrict {σ : Assignment α} {as : List α} {a : α} :
    a ∈ σ.restrict as ↔ a ∈ as := by
  induction as with
  | nil => simp [restrict]
  | cons b as ih =>
      unfold restrict at ih ⊢
      rw [List.foldr_cons, Std.ExtTreeMap.mem_insert, Std.LawfulEqOrd.compare_eq_iff_eq, ih,
        List.mem_cons, eq_comm]

theorem Valuation.getElem?_foldl_assign {ls : List (Literal α)} {v : Valuation α} {a : α} {b : Bool}
    (h : (ls.foldl assign v)[a]? = some b) : v[a]? = some b ∨ ⟨a, b⟩ ∈ ls := by
  induction ls generalizing v with
  | nil => exact .inl h
  | cons l ls ih =>
      rcases ih h with hv | hl
      · rw [getElem?_assign] at hv
        by_cases ha : l.atom = a
        · rw [if_pos ha] at hv
          obtain ⟨a', s⟩ := l
          cases ha
          cases hv
          exact .inr List.mem_cons_self
        · rw [if_neg ha] at hv
          exact .inl hv
      · exact .inr (List.mem_cons_of_mem l hl)

theorem Valuation.mem_foldl_assign {ls : List (Literal α)} {v : Valuation α} {a : α}
    (h : a ∈ v ∨ ∃ l ∈ ls, l.atom = a) : a ∈ ls.foldl assign v := by
  induction ls generalizing v with
  | nil =>
      rcases h with hv | ⟨l, hl, -⟩
      · exact hv
      · contradiction
  | cons l ls ih =>
      apply ih
      rcases h with hv | ⟨k, hk, rfl⟩
      · exact .inl (Std.ExtTreeMap.mem_insert.mpr (.inr hv))
      · rcases List.mem_cons.mp hk with rfl | hk
        · exact .inl Std.ExtTreeMap.mem_insert_self
        · exact .inr ⟨k, hk, rfl⟩

/-- Literals without the complement of one of them make that one true. -/
theorem Valuation.holdsIn_foldl_assign {ls : List (Literal α)} {l : Literal α} (h : l ∈ ls)
    (hneg : l.negate ∉ ls) : l.HoldsIn (ls.foldl assign (∅ : Valuation α)) := by
  have hmem := mem_foldl_assign (v := ∅) (.inr ⟨l, h, rfl⟩)
  obtain ⟨b, hget⟩ : ∃ b, (ls.foldl assign (∅ : Valuation α))[l.atom]? = some b :=
    ⟨_, getElem?_eq_toAssignment hmem⟩
  rcases getElem?_foldl_assign hget with hempty | hl
  · simp at hempty
  · rcases Literal.eq_or_eq_negate_of_atom_eq (l := ⟨l.atom, b⟩) (k := l) rfl with heq | heq
    · exact hget.trans (congrArg (fun k => some k.sign) heq)
    · rw [heq] at hl
      contradiction

theorem Valuation.exists_of_mem_foldl_assign {ls : List (Literal α)} {a : α}
    (h : a ∈ ls.foldl assign (∅ : Valuation α)) : ∃ l ∈ ls, l.atom = a := by
  rcases getElem?_foldl_assign (getElem?_eq_toAssignment h) with hempty | hl
  · simp at hempty
  · exact ⟨_, hl, rfl⟩

theorem Literal.HoldsIn.not_negate {v : Valuation α} {l : Literal α} (h : l.HoldsIn v) :
    ¬ l.negate.HoldsIn v := by
  unfold HoldsIn at h ⊢
  rw [negate_atom, negate_sign, h]
  simp

theorem Literal.HoldsIn.mem {v : Valuation α} {l : Literal α} (h : l.HoldsIn v) : l.atom ∈ v :=
  Valuation.mem_of_getElem?_eq_some h

theorem Literal.holdsIn_or_negate {v : Valuation α} {l : Literal α} (h : l.atom ∈ v) :
    l.HoldsIn v ∨ l.negate.HoldsIn v := by
  unfold HoldsIn
  rw [negate_atom, negate_sign, Std.ExtTreeMap.getElem?_eq_some_getElem h]
  cases v[l.atom] <;> cases l.sign <;> simp

theorem Literal.holdsIn_assign_iff {v : Valuation α} {l : Literal α} (hl : ¬ l.negate.HoldsIn v)
    {k : Literal α} : k.HoldsIn (v.assign l) ↔ k = l ∨ k.HoldsIn v := by
  unfold HoldsIn
  rw [Valuation.getElem?_assign]
  by_cases ha : l.atom = k.atom
  · rw [if_pos ha, Option.some.injEq]
    rcases Literal.eq_or_eq_negate_of_atom_eq ha.symm with rfl | rfl
    · exact iff_of_true rfl (.inl rfl)
    · exact iff_of_false (by simp) (not_or.mpr ⟨Literal.negate_ne l, hl⟩)
  · have hne : k ≠ l := fun hk => ha (hk ▸ rfl)
    rw [if_neg ha, or_iff_right hne]

theorem Valuation.eq_of_holdsIn {v w : Valuation α}
    (h : ∀ l : Literal α, l.HoldsIn v ↔ l.HoldsIn w) : v = w := by
  apply Std.ExtTreeMap.ext_getElem?
  intro a
  exact Option.ext fun b => h ⟨a, b⟩

theorem Literal.HoldsIn.trueUnder {σ : Assignment α} {v : Valuation α} {l : Literal α}
    (h : l.HoldsIn v) (hσ : σ.Completes v) : l.TrueUnder σ :=
  hσ l.atom l.sign h

theorem Clause.HoldsIn.trueUnder {σ : Assignment α} {v : Valuation α} {c : Clause α}
    (h : c.HoldsIn v) (hσ : σ.Completes v) : c.TrueUnder σ := by
  obtain ⟨l, hl, hv⟩ := h
  exact ⟨l, hl, hv.trueUnder hσ⟩

theorem ClauseSet.HoldsIn.trueUnder {σ : Assignment α} {v : Valuation α} {cs : ClauseSet α}
    (h : cs.HoldsIn v) (hσ : σ.Completes v) : cs.TrueUnder σ :=
  fun c hc => (h c hc).trueUnder hσ

theorem ClauseSet.HoldsIn.satisfiable {v : Valuation α} {cs : ClauseSet α} (h : cs.HoldsIn v) :
    cs.Satisfiable :=
  ⟨v.toAssignment, h.trueUnder v.completes_toAssignment⟩

/-- The valuation may be taken partial, as long as it makes a literal of each clause true. -/
theorem ClauseSet.satisfiable_iff_holdsIn {cs : ClauseSet α} :
    cs.Satisfiable ↔ ∃ v : Valuation α, cs.HoldsIn v := by
  constructor
  · intro hex
    rcases hex with ⟨σ, hσ⟩
    refine ⟨σ.restrict (cs.flatten.map Literal.atom), fun c hc => ?_⟩
    obtain ⟨l, hl, htrue⟩ := hσ c hc
    have hatom : l.atom ∈ cs.flatten.map Literal.atom :=
      List.mem_map_of_mem (List.mem_flatten_of_mem hc hl)
    refine ⟨l, hl, ?_⟩
    unfold Literal.HoldsIn
    rw [Assignment.getElem?_restrict hatom, htrue]
  · intro hex
    rcases hex with ⟨v, hv⟩
    exact hv.satisfiable

/-- A search that returns models only, and one wherever there is one, fails exactly on clauses that
have none. -/
theorem ClauseSet.eq_none_iff {cs : ClauseSet α} {o : Option (Valuation α)}
    (hsound : ∀ v, o = some v → cs.HoldsIn v)
    (hcomplete : ∀ σ : Assignment α, cs.TrueUnder σ → ∃ v, o = some v) :
    o = none ↔ ¬ cs.Satisfiable := by
  constructor
  · intro hnone hsat
    rcases hsat with ⟨σ, hσ⟩
    obtain ⟨v, hv⟩ := hcomplete σ hσ
    rw [hnone] at hv
    contradiction
  · intro hunsat
    cases o with
    | none => rfl
    | some v => exact absurd (hsound v rfl).satisfiable hunsat

theorem nodup_eraseDups {β : Type} [BEq β] [LawfulBEq β] (xs : List β) : xs.eraseDups.Nodup := by
  cases xs with
  | nil => exact List.nodup_nil
  | cons x xs =>
      rw [List.eraseDups_cons, List.nodup_cons]
      constructor
      · rw [List.mem_eraseDups]
        simp
      · exact nodup_eraseDups (xs.filter fun y => !y == x)
termination_by xs.length
decreasing_by exact Nat.lt_succ_of_le (List.length_filter_le _ _)

theorem ClauseSet.holdsIn_distinct {v : Valuation α} {cs : ClauseSet α} :
    cs.distinct.HoldsIn v ↔ cs.HoldsIn v := by
  simp only [HoldsIn, Clause.HoldsIn, distinct, Clause.distinct, List.forall_mem_map,
    List.mem_eraseDups]

theorem ClauseSet.trueUnder_distinct {σ : Assignment α} {cs : ClauseSet α} :
    cs.distinct.TrueUnder σ ↔ cs.TrueUnder σ := by
  simp only [TrueUnder, Clause.TrueUnder, distinct, Clause.distinct, List.forall_mem_map,
    List.mem_eraseDups]

theorem ClauseSet.mem_atoms_distinct {cs : ClauseSet α} {a : α} :
    a ∈ cs.distinct.atoms ↔ a ∈ cs.atoms := by
  rw [mem_atoms, mem_atoms]
  constructor
  · intro hex
    rcases hex with ⟨d, hd, l, hl, ha⟩
    obtain ⟨c, hc, rfl⟩ := List.mem_map.mp hd
    exact ⟨c, hc, l, List.mem_eraseDups.mp hl, ha⟩
  · intro hex
    rcases hex with ⟨c, hc, l, hl, ha⟩
    exact ⟨c.distinct, List.mem_map_of_mem hc, l, List.mem_eraseDups.mpr hl, ha⟩

end PropSat
