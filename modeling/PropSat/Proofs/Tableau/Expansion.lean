import PropSat.Proofs.Truth
import PropSat.Tableau.Termination

/-!
# What an expansion means

Under a total assignment a true formula has its expansion met by true parts. Conversely a formula
that is no literal is known to be true where the parts that meet its expansion are. Formulas among
which every expansion is met are therefore true as soon as the literals among them are.
-/

namespace PropSat

namespace Expansion

/-- The formulas with the property are enough for the expansion. -/
def MetBy (P : Formula → Prop) : Expansion → Prop
  | all parts => ∀ p ∈ parts, P p
  | either deferred chosen => P deferred ∨ P chosen

def parts : Expansion → List Formula
  | all parts => parts
  | either deferred chosen => [deferred, chosen]

theorem MetBy.imp {P Q : Formula → Prop} {x : Expansion} (h : x.MetBy P)
    (hpq : ∀ p ∈ x.parts, P p → Q p) : x.MetBy Q := by
  cases x with
  | all parts => exact fun p hp => hpq p hp (h p hp)
  | either deferred chosen =>
      rcases h with h | h
      · exact .inl (hpq deferred (by simp [parts]) h)
      · exact .inr (hpq chosen (by simp [parts]) h)

end Expansion

namespace Formula

theorem weight_lt_of_mem_parts {f p : Formula} (hp : p ∈ f.expansion.parts) :
    p.weight < f.weight := by
  cases he : f.expansion with
  | all parts =>
      have hsum := weightOfAll_lt_of_expansion he
      rw [he] at hp
      have hle : ∀ ps : List Formula, p ∈ ps → p.weight ≤ weightOfAll ps := by
        intro ps
        induction ps with
        | nil => simp
        | cons q ps ih =>
            intro hm
            simp only [weightOfAll]
            rcases List.mem_cons.mp hm with rfl | hm
            · omega
            · have := ih hm
              omega
      exact Nat.lt_of_le_of_lt (hle parts hp) hsum
  | either deferred chosen =>
      obtain ⟨hd, hc⟩ := weight_lt_of_expansion he
      rw [he] at hp
      simp only [Expansion.parts, List.mem_cons, List.not_mem_nil, or_false] at hp
      rcases hp with rfl | rfl
      · exact hd
      · exact hc

theorem mem_occurrences_of_mem_parts {f p : Formula} (hp : p ∈ f.expansion.parts) {name : String}
    (hn : name ∈ p.occurrences) : name ∈ f.occurrences := by
  have hall : ∀ p ∈ f.expansion.parts, ∀ name ∈ p.occurrences, name ∈ f.occurrences := by
    unfold expansion
    split <;> simp +contextual [Expansion.parts, occurrences]
  exact hall p hp name hn

theorem metBy_of_eval {σ : Assignment String} {f : Formula} (h : f.eval σ = true) :
    f.expansion.MetBy (·.eval σ = true) := by
  unfold expansion
  split <;> simp_all [Expansion.MetBy, eval]

theorem truth_of_metBy {v : Valuation String} {f : Formula} (hf : f.literal? = none)
    (h : f.expansion.MetBy (·.truth v = some true)) : f.truth v = some true := by
  unfold expansion at h
  split at h <;> simp_all [Expansion.MetBy, truth, literal?]

/-- Formulas whose literals are true, and among which every expansion is met, are all true. -/
theorem truth_of_expanded {fs : List Formula} {v : Valuation String}
    (hlit : ∀ f ∈ fs, ∀ l, f.literal? = some l → l.HoldsIn v)
    (hmet : ∀ f ∈ fs, f.expansion.MetBy (· ∈ fs)) : ∀ f ∈ fs, f.truth v = some true := by
  intro f hf
  induction hw : f.weight using Nat.strongRecOn generalizing f with
  | ind n ih =>
      subst hw
      cases hl : f.literal? with
      | some l =>
          rw [eq_ofLiteral_of_literal? hl, truth_ofLiteral]
          exact Literal.truth_eq_some_true.mpr (hlit f hf l hl)
      | none =>
          refine truth_of_metBy hl ((hmet f hf).imp fun p hp hmem => ?_)
          exact ih p.weight (weight_lt_of_mem_parts hp) p hmem rfl

end Formula

end PropSat
