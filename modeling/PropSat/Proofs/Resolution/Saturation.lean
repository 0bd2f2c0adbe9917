import PropSat.Proofs.Resolution.Resolvent
import PropSat.Resolution.Saturation

/-!
# Saturated clauses

A saturation adds consequences over the same literals until it is closed under resolution. It is
given up only for clauses that no assignment makes true.
-/

namespace PropSat.LiteralSet

variable {α : Type} [Atom α]

/-- Every resolvent of two members is a member. -/
def Closed (cs : List (LiteralSet α)) : Prop :=
  ∀ c ∈ cs, ∀ d ∈ cs, ∀ r, c.resolve? d = some r → r ∈ cs

/-- The first list holds the second with consequences over the same literals, and is closed. -/
structure Saturates (sat known : List (LiteralSet α)) : Prop where
  base : ∀ c ∈ known, c ∈ sat
  literals_eq : literals sat = literals known
  entailed : ∀ σ : Assignment α, (∀ c ∈ known, c.TrueUnder σ) → ∀ c ∈ sat, c.TrueUnder σ
  nonempty : ∅ ∉ known → ∅ ∉ sat
  closed : Closed sat

theorem not_trueUnder_empty {σ : Assignment α} : ¬ (∅ : LiteralSet α).TrueUnder σ := by
  intro hex
  rcases hex with ⟨l, hl, -⟩
  exact Std.ExtTreeSet.not_mem_empty hl

theorem mem_novel {seen : Std.ExtTreeSet (LiteralSet α)} {cs : List (LiteralSet α)}
    {c : LiteralSet α} : c ∈ novel seen cs ↔ c ∈ cs ∧ c ∉ seen := by
  refine ⟨mem_of_mem_novel, fun h => ?_⟩
  induction cs generalizing seen with
  | nil => exact absurd h.1 List.not_mem_nil
  | cons d cs ih =>
      obtain ⟨hc, hs⟩ := h
      unfold novel
      by_cases hcd : c = d
      · rw [if_neg (hcd ▸ hs), hcd]
        exact List.mem_cons_self
      · have hcs : c ∈ cs := List.mem_of_ne_of_mem hcd hc
        split
        · exact ih ⟨hcs, hs⟩
        · refine List.mem_cons_of_mem d (ih ⟨hcs, fun hm => ?_⟩)
          rcases Std.ExtTreeSet.mem_insert.mp hm with heq | hm
          · exact hcd (Std.LawfulEqOrd.eq_of_compare heq).symm
          · exact hs hm

theorem mem_novel_ofList {known cs : List (LiteralSet α)} {c : LiteralSet α} :
    c ∈ novel (.ofList known) cs ↔ c ∈ cs ∧ c ∉ known := by
  rw [mem_novel, Std.ExtTreeSet.mem_ofList, List.contains_iff_mem]

theorem nodup_novel {seen : Std.ExtTreeSet (LiteralSet α)} {cs : List (LiteralSet α)} :
    (novel seen cs).Nodup := by
  induction cs generalizing seen with
  | nil => exact List.nodup_nil
  | cons d cs ih =>
      unfold novel
      split
      · exact ih
      · refine List.nodup_cons.mpr ⟨fun hd => ?_, ih⟩
        exact (mem_novel.mp hd).2 Std.ExtTreeSet.mem_insert_self

theorem novel_eq_nil_iff {known cs : List (LiteralSet α)} :
    novel (.ofList known) cs = [] ↔ ∀ c ∈ cs, c ∈ known := by
  rw [List.eq_nil_iff_forall_not_mem]
  simp only [mem_novel_ofList, not_and, Decidable.not_not]

theorem closed_of_resolvents {cs : List (LiteralSet α)} (h : ∀ r ∈ resolvents cs, r ∈ cs) :
    Closed cs :=
  fun _ hc _ hd r hr => h r (mem_resolvents hc hd hr)

theorem Saturates.of_append {sat known new : List (LiteralSet α)}
    (hnew : ∀ r ∈ new, r ∈ resolvents known) (he : ∅ ∉ resolvents known)
    (h : Saturates sat (known ++ new)) : Saturates sat known where
  base c hc := h.base c (List.mem_append_left new hc)
  literals_eq := h.literals_eq.trans (literals_append_of_resolvents hnew)
  entailed σ hσ := by
    apply h.entailed σ
    intro c hc
    rcases List.mem_append.mp hc with hk | hn
    · exact hσ c hk
    · exact trueUnder_of_mem_resolvents hσ (hnew c hn)
  nonempty hk := by
    apply h.nonempty
    intro hm
    rcases List.mem_append.mp hm with hk' | hn
    · exact hk hk'
    · exact he (hnew ∅ hn)
  closed := h.closed

theorem saturates_of_saturate? {known sat : List (LiteralSet α)} (h : saturate? known = some sat) :
    Saturates sat known := by
  fun_induction saturate? known with
  | case1 known derived he => contradiction
  | case2 known derived he hn =>
      rw [← Option.some.inj h]
      have hold : ∀ r ∈ resolvents known, r ∈ known := novel_eq_nil_iff.mp hn
      exact ⟨fun c hc => hc, rfl, fun σ hσ => hσ, id, closed_of_resolvents hold⟩
  | case3 known derived he c cs hn ih =>
      have hnew : ∀ r ∈ c :: cs, r ∈ resolvents known := by
        intro r hr
        rw [← hn] at hr
        exact (mem_of_mem_novel hr).1
      exact .of_append hnew he (ih h)

theorem exists_saturate?_eq_some {known : List (LiteralSet α)} {σ : Assignment α}
    (hσ : ∀ c ∈ known, c.TrueUnder σ) : ∃ sat, saturate? known = some sat := by
  fun_induction saturate? known with
  | case1 known derived he => exact absurd (trueUnder_of_mem_resolvents hσ he) not_trueUnder_empty
  | case2 known derived he hn => exact ⟨known, rfl⟩
  | case3 known derived he c cs hn ih =>
      apply ih
      intro d hd
      rcases List.mem_append.mp hd with hk | hr
      · exact hσ d hk
      · rw [← hn] at hr
        exact trueUnder_of_mem_resolvents hσ (mem_of_mem_novel hr).1

end PropSat.LiteralSet
