import PropSat.Proofs.Resolution.Decision
import Mathlib.Algebra.Group.Nat.Defs
import Mathlib.Data.List.Chain
import Mathlib.Data.List.Perm.Subperm
import Mathlib.Logic.Relation

/-!
# Saturation ends

A round of saturation that goes on adds clauses that are new. All clauses are distinct sets of the
literals given at the start, and a list of such sets has a greatest length. So the rounds are
numbered: each makes the list longer, and the last one derives the empty clause or nothing new.
-/

namespace PropSat

variable {α : Type} [Atom α]

namespace LiteralSet

variable {known next : List (LiteralSet α)}

/-! ## One round -/

/-- A round of saturation that goes on: the empty clause is not derived, and the resolvents that are
not there yet, of which there is one at least, are added. -/
inductive Round (known : List (LiteralSet α)) : List (LiteralSet α) → Prop where
  | add {c : LiteralSet α} {cs : List (LiteralSet α)} (he : ∅ ∉ resolvents known)
      (hn : novel (.ofList known) (resolvents known) = c :: cs) : Round known (known ++ c :: cs)

theorem Round.mem_next (h : Round known next) {c : LiteralSet α} :
    c ∈ next ↔ c ∈ known ∨ c ∈ resolvents known := by
  obtain ⟨-, hn⟩ := h
  rw [← hn, List.mem_append, mem_novel_ofList]
  by_cases hc : c ∈ known <;> simp [hc]

theorem Round.exists_new (h : Round known next) : ∃ c ∈ next, c ∉ known := by
  obtain @⟨c, cs, -, hn⟩ := h
  have hnew : c ∈ novel (.ofList known) (resolvents known) := hn ▸ List.mem_cons_self
  exact ⟨c, List.mem_append_right known List.mem_cons_self, (mem_novel_ofList.mp hnew).2⟩

/-- A round goes on unless it derives the empty clause or finds nothing new. -/
theorem exists_round_iff :
    (∃ next, Round known next) ↔ ∅ ∉ resolvents known ∧ ∃ r ∈ resolvents known, r ∉ known := by
  constructor
  · intro hex
    obtain ⟨next, hround⟩ := hex
    obtain ⟨c, hc, hnew⟩ := hround.exists_new
    have hderived : c ∈ resolvents known := (hround.mem_next.mp hc).resolve_left hnew
    cases hround with
    | add he _ => exact ⟨he, c, hderived, hnew⟩
  · intro hand
    obtain ⟨he, r, hr, hnew⟩ := hand
    obtain ⟨c, cs, hn⟩ := List.exists_cons_of_ne_nil fun hnil =>
      hnew (novel_eq_nil_iff.mp hnil r hr)
    exact ⟨_, .add he hn⟩

theorem Round.length_lt (h : Round known next) : known.length < next.length := by
  obtain ⟨-, -⟩ := h
  rw [List.length_append, List.length_cons]
  omega

theorem Round.nodup (h : Round known next) (hk : known.Nodup) : next.Nodup := by
  obtain ⟨-, hn⟩ := h
  rw [← hn]
  refine List.nodup_append.mpr ⟨hk, nodup_novel, fun c hc d hd heq => ?_⟩
  exact (mem_novel_ofList.mp hd).2 (heq ▸ hc)

theorem mem_literals_of_mem_resolvents {r : LiteralSet α} (hr : r ∈ resolvents known)
    {l : Literal α} (hl : l ∈ r) : l ∈ literals known := by
  obtain ⟨c, hc, d, hd, he⟩ := exists_of_mem_resolvents hr
  rcases mem_of_mem_resolve? he hl with hlc | hld
  · exact mem_literals.mpr ⟨c, hc, hlc⟩
  · exact mem_literals.mpr ⟨d, hd, hld⟩

theorem Round.literals_eq (h : Round known next) : literals next = literals known := by
  obtain ⟨-, hn⟩ := h
  refine literals_append_of_resolvents fun r hr => ?_
  rw [← hn] at hr
  exact (mem_novel_ofList.mp hr).1

/-! ## Rounds in a row -/

theorem nodup_and_literals_eq_of_rounds (hk : known.Nodup)
    (h : Relation.ReflTransGen Round known next) :
    next.Nodup ∧ literals next = literals known := by
  induction h with
  | refl => exact ⟨hk, rfl⟩
  | tail _ hlast ih => exact ⟨hlast.nodup ih.1, hlast.literals_eq.trans ih.2⟩

theorem length_subsets (ls : List (Literal α)) : (subsets ls).length = 2 ^ ls.length := by
  induction ls with
  | nil => rfl
  | cons l ls ih =>
      rw [subsets, List.length_append, List.length_map, ih, List.length_cons, Nat.pow_succ]
      omega

theorem length_le_of_nodup (hk : known.Nodup) : known.length ≤ 2 ^ (literals known).size := by
  have hsub : known ⊆ subsets (literals known).toList := by
    intro c hc
    refine mem_subsets fun l hl => ?_
    rw [Std.ExtTreeSet.mem_toList]
    exact mem_literals.mpr ⟨c, hc, hl⟩
  have hlen : (subsets (literals known).toList).length = 2 ^ (literals known).size := by
    rw [length_subsets, Std.ExtTreeSet.length_toList]
  exact hlen ▸ (hk.subperm hsub).length_le

theorem length_add_rounds_le (hk : known.Nodup) {nexts : List (List (LiteralSet α))}
    (h : (known :: nexts).IsChain Round) :
    known.length + nexts.length ≤ 2 ^ (literals known).size := by
  induction nexts generalizing known with
  | nil => exact length_le_of_nodup hk
  | cons next nexts ih =>
      obtain ⟨hfirst, hrest⟩ := List.isChain_cons_cons.mp h
      have hlen : next.length + nexts.length ≤ 2 ^ (literals next).size :=
        ih (hfirst.nodup hk) hrest
      have hgrow := hfirst.length_lt
      rw [hfirst.literals_eq] at hlen
      rw [List.length_cons]
      omega

/-- The rounds come to one that does not go on, and what it finds there is the outcome. -/
theorem exists_last_round (known : List (LiteralSet α)) :
    ∃ last, Relation.ReflTransGen Round known last ∧
      (∅ ∈ resolvents last ∨ ∀ r ∈ resolvents last, r ∈ last) ∧
      saturate? known = if ∅ ∈ resolvents last then none else some last := by
  fun_induction saturate? known with
  | case1 known derived he => exact ⟨known, .refl, .inl he, (if_pos he).symm⟩
  | case2 known derived he hn =>
      exact ⟨known, .refl, .inr (novel_eq_nil_iff.mp hn), (if_neg he).symm⟩
  | case3 known derived he c cs hn ih =>
      obtain ⟨last, hreach, hend, hout⟩ := ih
      exact ⟨last, .head (.add he hn) hreach, hend, hout⟩

end LiteralSet

namespace Resolution

open LiteralSet (Round resolvents)

theorem nodup_start (cs : ClauseSet α) : (start cs).Nodup := nodup_eraseDups _

theorem literals_start (cs : ClauseSet α) :
    LiteralSet.literals (start cs) = Clause.toSet cs.flatten := by
  ext l
  rw [mem_literals_start, Clause.mem_toSet, List.mem_flatten]

/-- The saturation of a clause set holds sets of its literals only, and so are the resolvents that
it forms. A round goes on unless it derives the empty clause or nothing new. If it goes on it adds
the resolvents, one of which was not there. So the clauses at any time and the rounds still to come
are together at most as many as there are sets of the literals. One round is the last, and what it
finds is the answer. -/
theorem saturation_ends (cs : ClauseSet α) :
    (∀ known, Relation.ReflTransGen Round (start cs) known →
        (∀ c, c ∈ known ∨ c ∈ resolvents known → ∀ l ∈ c, ∃ d ∈ cs, l ∈ d) ∧
        ((∃ next, Round known next) ↔
          ∅ ∉ resolvents known ∧ ∃ r ∈ resolvents known, r ∉ known) ∧
        (∀ next, Round known next →
          (∀ c, c ∈ next ↔ c ∈ known ∨ c ∈ resolvents known) ∧ ∃ c ∈ next, c ∉ known) ∧
        ∀ nexts, (known :: nexts).IsChain Round →
          known.length + nexts.length ≤ 2 ^ (Clause.toSet cs.flatten).size) ∧
      ∃ known, Relation.ReflTransGen Round (start cs) known ∧
        (∅ ∈ resolvents known ∨ ∀ r ∈ resolvents known, r ∈ known) ∧
        satisfy cs = if ∅ ∈ start cs ∨ ∅ ∈ resolvents known then none
          else some (LiteralSet.canonicalModel known) := by
  refine ⟨fun known hreach => ?_, ?_⟩
  · obtain ⟨hnodup, hlit⟩ :=
      LiteralSet.nodup_and_literals_eq_of_rounds (nodup_start cs) hreach
    refine ⟨fun c hc l hl => ?_, LiteralSet.exists_round_iff,
      fun next hnext => ⟨fun c => hnext.mem_next, hnext.exists_new⟩, fun nexts hchain => ?_⟩
    · have hmem : l ∈ LiteralSet.literals known := by
        rcases hc with hc | hc
        · exact LiteralSet.mem_literals.mpr ⟨c, hc, hl⟩
        · exact LiteralSet.mem_literals_of_mem_resolvents hc hl
      rw [hlit] at hmem
      exact mem_literals_start.mp hmem
    · have hbound := LiteralSet.length_add_rounds_le hnodup hchain
      rwa [hlit, literals_start] at hbound
  · obtain ⟨known, hreach, hend, hout⟩ := LiteralSet.exists_last_round (start cs)
    refine ⟨known, hreach, hend, ?_⟩
    rw [satisfy_eq_ite, hout]
    by_cases hs : ∅ ∈ start cs
    · rw [if_pos hs, if_pos (.inl hs)]
    · by_cases hr : ∅ ∈ resolvents known
      · rw [if_neg hs, if_pos hr, if_pos (.inr hr), Option.map_none]
      · rw [if_neg hs, if_neg hr, if_neg (not_or.mpr ⟨hs, hr⟩), Option.map_some]

/-- Along a chain of implications the second atom comes up in the first round and the third in the
second. -/
theorem saturation_ends_on_chain :
    ∃ known next,
      Relation.ReflTransGen Round
        (start ([[⟨1, true⟩], [⟨1, false⟩, ⟨2, true⟩], [⟨2, false⟩, ⟨3, true⟩]] : ClauseSet Nat))
        known ∧
      Round known next ∧ (∃ c ∈ next, c ∉ known) ∧ known.length + 1 ≤ 2 ^ 5 := by
  have hfirst : Round
      (start ([[⟨1, true⟩], [⟨1, false⟩, ⟨2, true⟩], [⟨2, false⟩, ⟨3, true⟩]] : ClauseSet Nat))
      (start [[⟨1, true⟩], [⟨1, false⟩, ⟨2, true⟩], [⟨2, false⟩, ⟨3, true⟩]] ++
        [Clause.toSet [⟨2, true⟩], Clause.toSet [⟨1, false⟩, ⟨3, true⟩]]) :=
    .add (by decide +kernel) (by decide +kernel)
  have hsecond : Round
      (start ([[⟨1, true⟩], [⟨1, false⟩, ⟨2, true⟩], [⟨2, false⟩, ⟨3, true⟩]] : ClauseSet Nat) ++
        [Clause.toSet [⟨2, true⟩], Clause.toSet [⟨1, false⟩, ⟨3, true⟩]])
      (start [[⟨1, true⟩], [⟨1, false⟩, ⟨2, true⟩], [⟨2, false⟩, ⟨3, true⟩]] ++
        [Clause.toSet [⟨2, true⟩], Clause.toSet [⟨1, false⟩, ⟨3, true⟩]] ++
        [Clause.toSet [⟨3, true⟩]]) :=
    .add (by decide +kernel) (by decide +kernel)
  have hsize : (Clause.toSet ([[⟨1, true⟩], [⟨1, false⟩, ⟨2, true⟩], [⟨2, false⟩, ⟨3, true⟩]] :
      ClauseSet Nat).flatten).size = 5 := by decide +kernel
  obtain ⟨-, -, hgrow, hbound⟩ := (saturation_ends _).1 _ (.single hfirst)
  have hlen := hbound _ (.cons_cons hsecond (.singleton _))
  rw [hsize] at hlen
  exact ⟨_, _, .single hfirst, hsecond, (hgrow _ hsecond).2, hlen⟩

end Resolution

end PropSat
