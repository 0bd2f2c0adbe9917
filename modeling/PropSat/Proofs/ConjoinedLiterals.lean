import PropSat.Exhaustive
import PropSat.Proofs.Truth

/-!
# Literals conjoined at the top

The literals that a formula conjoins are made true one after the other. At any time those that are
true and those still to come are the same literals together, so the valuation reached has exactly
these. It is missed only when two of them are complementary, and then nothing makes the formula
true. To keep a stack of formulas that are still to be looked at comes to the same.
-/

namespace PropSat

namespace Formula

/-- The literal is reached from the formula through conjunctions only. -/
inductive Conjoins : Formula → Literal String → Prop
  | pos (name : String) : Conjoins (.atom name) ⟨name, true⟩
  | neg (name : String) : Conjoins (.not (.atom name)) ⟨name, false⟩
  | left {f g : Formula} {l : Literal String} (h : Conjoins f l) : Conjoins (.and f g) l
  | right {f g : Formula} {l : Literal String} (h : Conjoins g l) : Conjoins (.and f g) l

variable {f : Formula} {l : Literal String}

theorem conjoins_ofLiteral (l : Literal String) : (ofLiteral l).Conjoins l := by
  obtain ⟨name, s⟩ := l
  cases s with
  | true => exact .pos name
  | false => exact .neg name

/-- A formula that is no conjunction conjoins the literal that it is. -/
theorem conjoinedLiterals_eq_toList (h : ∀ g k, f ≠ .and g k) :
    f.conjoinedLiterals = f.literal?.toList := by
  cases f with
  | and g k => exact absurd rfl (h g k)
  | _ => rfl

theorem mem_conjoinedLiterals : l ∈ f.conjoinedLiterals ↔ f.Conjoins l := by
  constructor
  · intro h
    have hliteral : ∀ g : Formula, l ∈ g.literal?.toList → g.Conjoins l := by
      intro g hl
      rw [eq_ofLiteral_of_literal? (Option.mem_toList.mp hl)]
      exact conjoins_ofLiteral l
    induction f with
    | and f g ihf ihg => exact (List.mem_append.mp h).elim (.left ∘ ihf) (.right ∘ ihg)
    | atom name => exact hliteral _ h
    | not f => exact hliteral _ h
    | or f g => exact hliteral _ h
    | implies f g => exact hliteral _ h
  · intro h
    induction h with
    | pos name => exact List.mem_singleton_self _
    | neg name => exact List.mem_singleton_self _
    | left _ ih => exact List.mem_append_left _ ih
    | right _ ih => exact List.mem_append_right _ ih

theorem Conjoins.holdsIn {w : Valuation String} (h : f.Conjoins l) (hf : f.truth w = some true) :
    l.HoldsIn w := by
  induction h with
  | pos name => exact hf
  | neg name => exact Truth.not_eq_some_iff.mp hf
  | left _ ih => exact ih (Truth.and_eq_some_true.mp hf).1
  | right _ ih => exact ih (Truth.and_eq_some_true.mp hf).2

theorem Conjoins.mem_occurrences (h : f.Conjoins l) : l.atom ∈ f.occurrences := by
  induction h with
  | pos name => exact List.mem_singleton_self name
  | neg name => exact List.mem_singleton_self name
  | left _ ih => exact List.mem_append_left _ ih
  | right _ ih => exact List.mem_append_right _ ih

end Formula

namespace Valuation

variable {α : Type} [Atom α] {ls : List (Literal α)} {l : Literal α} {u v w : Valuation α}

/-! ## Literals one after the other -/

theorem foldlM_assign?_cons_of_holdsIn (h : l.negate.HoldsIn v) :
    (l :: ls).foldlM assign? v = none := by
  rw [List.foldlM_cons, assign?, if_pos h]
  rfl

theorem foldlM_assign?_cons (h : ¬ l.negate.HoldsIn v) :
    (l :: ls).foldlM assign? v = ls.foldlM assign? (v.assign l) := by
  rw [List.foldlM_cons, assign?, if_neg h]
  rfl

/-- To make a literal true moves it from those still to come to those that are true. -/
theorem holdsIn_assign_or_mem {k : Literal α} (h : ¬ l.negate.HoldsIn v) :
    k.HoldsIn (v.assign l) ∨ k ∈ ls ↔ k.HoldsIn v ∨ k ∈ l :: ls := by
  rw [Literal.holdsIn_assign_iff h, List.mem_cons, or_left_comm, or_assoc]

theorem foldlM_assign?_eq_some_iff :
    ls.foldlM assign? v = some u ↔ ∀ k : Literal α, k.HoldsIn u ↔ k.HoldsIn v ∨ k ∈ ls := by
  induction ls generalizing v with
  | nil =>
      simp only [List.foldlM_nil, List.not_mem_nil, or_false]
      constructor
      · intro h
        cases h
        exact fun _ => Iff.rfl
      · intro h
        exact congrArg some (eq_of_holdsIn fun k => (h k).symm)
  | cons l ls ih =>
      by_cases hneg : l.negate.HoldsIn v
      · rw [foldlM_assign?_cons_of_holdsIn hneg]
        refine iff_of_false (Option.some_ne_none u ∘ Eq.symm) fun h => ?_
        exact ((h l).mpr (.inr List.mem_cons_self)).not_negate ((h l.negate).mpr (.inl hneg))
      · rw [foldlM_assign?_cons hneg, ih]
        simp only [holdsIn_assign_or_mem hneg]

theorem foldlM_assign?_eq_none_iff :
    ls.foldlM assign? v = none ↔
      ∃ k : Literal α, (k.HoldsIn v ∨ k ∈ ls) ∧ (k.negate.HoldsIn v ∨ k.negate ∈ ls) := by
  induction ls generalizing v with
  | nil =>
      simp only [List.foldlM_nil, List.not_mem_nil, or_false]
      refine iff_of_false (Option.some_ne_none v) fun h => ?_
      obtain ⟨k, hk, hneg⟩ := h
      exact hk.not_negate hneg
  | cons l ls ih =>
      by_cases hneg : l.negate.HoldsIn v
      · rw [foldlM_assign?_cons_of_holdsIn hneg]
        exact iff_of_true rfl ⟨l, .inr List.mem_cons_self, .inl hneg⟩
      · rw [foldlM_assign?_cons hneg, ih]
        simp only [holdsIn_assign_or_mem hneg]

end Valuation

namespace Formula

open PropSat.Valuation

variable {f : Formula} {fs : List Formula} {v w : Valuation String}

/-! ## The stack of pending formulas -/

theorem size_pos (f : Formula) : 0 < f.size := by
  cases f <;> simp only [size] <;> omega

def totalSize : List Formula → Nat
  | [] => 0
  | f :: fs => f.size + totalSize fs

/-- Makes the literals of the pending formulas true, the next formula first. A conjunction gives way
to its two sides, and a formula that is no literal is dropped. The first literal whose complement
is already true ends the walk. -/
def takeLiterals : List Formula → Valuation String → Option (Valuation String)
  | [], v => some v
  | .and f g :: pending, v => takeLiterals (f :: g :: pending) v
  | f :: pending, v =>
      match f.literal? with
      | some l => (v.assign? l).bind fun w => takeLiterals pending w
      | none => takeLiterals pending v
termination_by pending => totalSize pending
decreasing_by
  · simp only [totalSize, size]
    omega
  all_goals
    have := size_pos f
    simp only [totalSize]
    omega

theorem takeLiterals_eq_foldlM (pending : List Formula) (v : Valuation String) :
    takeLiterals pending v = (pending.flatMap conjoinedLiterals).foldlM assign? v := by
  fun_induction takeLiterals pending v with
  | case1 v => rfl
  | case2 v f g pending ih =>
      rw [ih, List.flatMap_cons, List.flatMap_cons, List.flatMap_cons, conjoinedLiterals,
        List.append_assoc]
  | case3 f pending v hand l hl ih =>
      rw [List.flatMap_cons, conjoinedLiterals_eq_toList hand, hl, Option.toList_some,
        List.singleton_append, List.foldlM_cons]
      exact congrArg (Option.bind (v.assign? l)) (funext ih)
  | case4 f pending v hand hl ih =>
      rw [ih, List.flatMap_cons, conjoinedLiterals_eq_toList hand, hl, Option.toList_none,
        List.nil_append]

/-! ## The forced valuation -/

theorem mem_flatMap_conjoinedLiterals {l : Literal String} :
    l ∈ fs.flatMap conjoinedLiterals ↔ ∃ f ∈ fs, f.Conjoins l := by
  simp only [List.mem_flatMap, mem_conjoinedLiterals]

theorem holdsIn_empty_or {l : Literal String} {p : Prop} : l.HoldsIn ∅ ∨ p ↔ p :=
  or_iff_right (by simp [Literal.HoldsIn])

theorem forced?_eq_some_iff :
    forced? fs = some v ↔ ∀ l : Literal String, l.HoldsIn v ↔ ∃ f ∈ fs, f.Conjoins l := by
  unfold forced? ofLiterals?
  rw [foldlM_assign?_eq_some_iff]
  simp only [holdsIn_empty_or, mem_flatMap_conjoinedLiterals]

theorem forced?_eq_none_iff :
    forced? fs = none ↔ ∃ l : Literal String,
      (∃ f ∈ fs, f.Conjoins l) ∧ ∃ f ∈ fs, f.Conjoins l.negate := by
  unfold forced? ofLiterals?
  rw [foldlM_assign?_eq_none_iff]
  simp only [holdsIn_empty_or, mem_flatMap_conjoinedLiterals]

/-- A valuation that makes the formulas true makes the literals conjoined at their top true, so no
two of these are complementary. -/
theorem exists_forced? (h : truthAll w fs = some true) : ∃ u, forced? fs = some u ∧ w.Extends u := by
  have htrue : ∀ l : Literal String, (∃ f ∈ fs, f.Conjoins l) → l.HoldsIn w := by
    intro l hex
    rcases hex with ⟨f, hf, hl⟩
    exact hl.holdsIn (truthAll_eq_some_true.mp h f hf)
  cases hforced : forced? fs with
  | none =>
      obtain ⟨l, hl, hneg⟩ := forced?_eq_none_iff.mp hforced
      exact absurd (htrue l.negate hneg) (htrue l hl).not_negate
  | some u =>
      refine ⟨u, rfl, fun name b hb => ?_⟩
      exact htrue ⟨name, b⟩ ((forced?_eq_some_iff.mp hforced ⟨name, b⟩).mp hb)

/-- The walk over the stack finds no valuation exactly when the formula conjoins two complementary
literals. Otherwise it finds the one that gives the atoms of the conjoined literals their signs and
has no other atoms. Every valuation that makes the formula true, total or not, has these values. -/
theorem forced?_exact (f : Formula) :
    forced? [f] = takeLiterals [f] ∅ ∧
      (forced? [f] = none ↔ ∃ l, f.Conjoins l ∧ f.Conjoins l.negate) ∧
      (∀ v, forced? [f] = some v ↔ ∀ name s, v[name]? = some s ↔ f.Conjoins ⟨name, s⟩) ∧
      ∀ w : Valuation String, f.truth w = some true → ∃ v, forced? [f] = some v ∧ w.Extends v := by
  refine ⟨(takeLiterals_eq_foldlM [f] ∅).symm, ?_, fun v => ?_, fun w hw => ?_⟩
  · rw [forced?_eq_none_iff]
    simp only [List.mem_singleton, exists_eq_left]
  · rw [forced?_eq_some_iff]
    simp only [List.mem_singleton, exists_eq_left]
    exact ⟨fun h name s => h ⟨name, s⟩, fun h l => h l.atom l.sign⟩
  · exact exists_forced? (truthAll_eq_some_true.mpr (by simpa using hw))

end Formula

end PropSat
