import PropSat.Kleene

/-!
# The truth value of a replacement

Replacement puts a formula in the place of the outermost occurrences of another and keeps the
connectives above them. So the truth value of the result is computed over the old formula, with the
value of what was put in counted at each of those places.
-/

namespace PropSat

namespace Valuation

variable {α : Type} [Atom α]

/-- The atom takes the truth value. It has no value afterwards when that is unknown. -/
def update (v : Valuation α) (a : α) (t : Truth) : Valuation α := v.alter a fun _ => t

theorem getElem?_update (v : Valuation α) (a b : α) (t : Truth) :
    (v.update a t)[b]? = if a = b then t else v[b]? := by
  simp [update, Std.ExtTreeMap.getElem?_alter]

end Valuation

namespace Formula

/-- The truth value when every outermost occurrence of `old` counts as `t`. -/
def truthGiven (v : Valuation String) (f old : Formula) (t : Truth) : Truth :=
  if f = old then t
  else
    match f with
    | atom name => v[name]?
    | not f => (f.truthGiven v old t).not
    | and f g => (f.truthGiven v old t).and (g.truthGiven v old t)
    | or f g => (f.truthGiven v old t).or (g.truthGiven v old t)
    | implies f g => (f.truthGiven v old t).implies (g.truthGiven v old t)

variable {v : Valuation String}

theorem truth_replace (f old new : Formula) :
    (f.replace old new).truth v = f.truthGiven v old (new.truth v) := by
  induction f with
  | atom name =>
      rw [replace, truthGiven]
      split <;> rfl
  | not f ih =>
      rw [replace, truthGiven]
      split
      · rfl
      · rw [truth, ih]
  | and f g ihf ihg | or f g ihf ihg | implies f g ihf ihg =>
      rw [replace, truthGiven]
      split
      · rfl
      · rw [truth, ihf, ihg]

theorem truthGiven_truth (f old : Formula) : f.truthGiven v old (old.truth v) = f.truth v := by
  induction f with
  | atom name =>
      rw [truthGiven]
      split
      · next h => rw [h]
      · rfl
  | not f ih =>
      rw [truthGiven]
      split
      · next h => rw [h]
      · rw [truth, ih]
  | and f g ihf ihg | or f g ihf ihg | implies f g ihf ihg =>
      rw [truthGiven]
      split
      · next h => rw [h]
      · rw [truth, ihf, ihg]

/-- All occurrences of an atom are outermost, so it may as well have the value. -/
theorem truthGiven_atom (f : Formula) (name : String) (t : Truth) :
    f.truthGiven v (atom name) t = f.truth (v.update name t) := by
  induction f with
  | atom n =>
      rw [truthGiven, truth, Valuation.getElem?_update]
      by_cases h : name = n
      · rw [if_pos h, if_pos (congrArg atom h.symm)]
      · rw [if_neg h, if_neg fun heq => h (atom.inj heq).symm]
  | not f ih => rw [truthGiven, if_neg nofun, truth, ih]
  | and f g ihf ihg | or f g ihf ihg | implies f g ihf ihg =>
      rw [truthGiven, if_neg nofun, truth, ihf, ihg]

/-- The truth value of a replacement is that of the formula with the outermost occurrences counting
as what was put in. Hence nothing changes when that has the value of what was taken out, unknown
included, and to replace an atom is to give it another value. -/
theorem truth_replace_compositional (v : Valuation String) (f old new : Formula) :
    (f.replace old new).truth v = f.truthGiven v old (new.truth v) ∧
    (old.truth v = new.truth v → (f.replace old new).truth v = f.truth v) ∧
    ∀ name, (f.replace (atom name) new).truth v = f.truth (v.update name (new.truth v)) := by
  refine ⟨truth_replace f old new, fun h => ?_, fun name => ?_⟩
  · rw [truth_replace, ← h, truthGiven_truth]
  · rw [truth_replace, truthGiven_atom]

/-- Two unknown values are the same value, and what is put in may contain what is taken out. -/
theorem truth_replace_compositional_on_unknown :
    (and (atom "p") (atom "q")).truth ∅ = (not (and (atom "p") (atom "q"))).truth ∅ ∧
      ((implies (and (atom "p") (atom "q")) (atom "p")).replace
        (and (atom "p") (atom "q")) (not (and (atom "p") (atom "q")))).truth ∅ =
      (implies (and (atom "p") (atom "q")) (atom "p")).truth ∅ := by
  have h : (and (atom "p") (atom "q")).truth ∅ = (not (and (atom "p") (atom "q"))).truth ∅ := by
    simp [truth, Truth.and, Truth.not]
  exact ⟨h, (truth_replace_compositional ∅ _ _ _).2.1 h⟩

end Formula

end PropSat
