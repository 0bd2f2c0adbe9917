import PropSat.Dpll.Branching
import Mathlib.Data.List.Basic
import Mathlib.Data.List.Induction
import Mathlib.Data.List.Pairwise

/-!
# What the branching strategies pick

Of the literals that occur most often the one met first, in all clauses or in the two that come first
when the clauses are sorted by length. A strategy gives up only where no clause has a literal.
-/

namespace PropSat

/-! ## First maxima and first occurrences -/

section

variable {β : Type}

theorem maxOn?_eq_none_iff {f : β → Nat} {xs : List β} : xs.maxOn? f = none ↔ xs = [] := by
  have hsome : (xs.maxOn? f).isSome ↔ xs ≠ [] := List.isSome_maxOn?_iff
  rw [← Option.not_isSome_iff_eq_none, hsome, not_not]

theorem exists_split_of_maxOn? {f : β → Nat} {xs : List β} {x : β} (h : xs.maxOn? f = some x) :
    ∃ before after, xs = before ++ x :: after ∧ (∀ y ∈ before, f y < f x) ∧
      ∀ y ∈ after, f y ≤ f x := by
  induction xs generalizing x with
  | nil => contradiction
  | cons z xs ih =>
      rw [List.maxOn?_cons] at h
      cases hm : xs.maxOn? f with
      | none =>
          rw [hm] at h
          cases h
          have hnil : xs = [] := maxOn?_eq_none_iff.mp hm
          exact ⟨[], [], by rw [hnil]; rfl, by simp, by simp⟩
      | some m =>
          obtain ⟨before, after, hsplit, hlt, hle⟩ := ih hm
          rw [hm, Option.elim_some, Option.some.injEq, maxOn_eq_if] at h
          split at h
          · next hfirst =>
              subst h
              refine ⟨[], xs, rfl, by simp, fun y hy => ?_⟩
              rw [hsplit, List.mem_append, List.mem_cons] at hy
              rcases hy with hy | rfl | hy
              · exact Nat.le_trans (Nat.le_of_lt (hlt y hy)) hfirst
              · exact hfirst
              · exact Nat.le_trans (hle y hy) hfirst
          · next hlater =>
              subst h
              refine ⟨z :: before, after, by rw [hsplit]; rfl, ?_, hle⟩
              exact List.forall_mem_cons.mpr ⟨Nat.lt_of_not_le hlater, hlt⟩

theorem pairwise_idxOf_eraseDups [DecidableEq β] (xs : List β) :
    xs.eraseDups.Pairwise fun x y => xs.idxOf x < xs.idxOf y := by
  induction xs using List.reverseRecOn with
  | nil => exact .nil
  | append_singleton xs x ih =>
      have hold : xs.eraseDups.Pairwise fun y z => (xs ++ [x]).idxOf y < (xs ++ [x]).idxOf z := by
        refine ih.imp_of_mem fun {y z} hy hz hlt => ?_
        rwa [List.idxOf_append_of_mem (List.mem_eraseDups.mp hy),
          List.idxOf_append_of_mem (List.mem_eraseDups.mp hz)]
      rw [List.eraseDups_append]
      by_cases hx : x ∈ xs
      · have hnone : [x].removeAll xs = [] := by simp [List.removeAll, hx]
        rwa [hnone, List.eraseDups_nil, List.append_nil]
      · have hnew : [x].removeAll xs = [x] := by simp [List.removeAll, hx]
        have hlast : [x].eraseDups = [x] := by rw [List.eraseDups_cons]; rfl
        rw [hnew, hlast]
        refine List.pairwise_append.mpr ⟨hold, List.pairwise_singleton _ x, fun y hy z hz => ?_⟩
        have hy := List.mem_eraseDups.mp hy
        have hlt := List.idxOf_lt_length_of_mem hy
        rw [List.mem_singleton.mp hz, List.idxOf_append_of_mem hy, List.idxOf_append, if_neg hx]
        omega

end

variable {α : Type}

/-! ## Clauses by length -/

namespace ClauseSet

/-- The second clause set holds the clauses of the first that have a literal, the shorter ones first
and equally long ones in the order given. -/
structure SortedByLength (cs ds : ClauseSet α) : Prop where
  sorted : ds.Pairwise fun c d => c.length ≤ d.length
  nil_notMem : [] ∉ ds
  filter_length : ∀ n, 0 < n → ds.filter (·.length = n) = cs.filter (·.length = n)

def sortedByLength (cs : ClauseSet α) : ClauseSet α :=
  (cs.filter (!·.isEmpty)).mergeSort fun c d => c.length ≤ d.length

theorem twoShortest_eq_take (cs : ClauseSet α) : cs.twoShortest = cs.sortedByLength.take 2 := rfl

theorem mem_sortedByLength {cs : ClauseSet α} {c : Clause α} :
    c ∈ cs.sortedByLength ↔ c ∈ cs ∧ c ≠ [] := by
  rw [sortedByLength, List.mem_mergeSort, List.mem_filter]
  simp

/-- Sorting is stable: the clauses of one length are a sorted part of the list, so they keep their
order. -/
theorem sortedByLength_spec (cs : ClauseSet α) : cs.SortedByLength cs.sortedByLength := by
  have htrans : ∀ c d e : Clause α, decide (c.length ≤ d.length) → decide (d.length ≤ e.length) →
      decide (c.length ≤ e.length) := by
    simp only [decide_eq_true_eq]
    exact fun _ _ _ => Nat.le_trans
  have htotal : ∀ c d : Clause α, decide (c.length ≤ d.length) || decide (d.length ≤ c.length) := by
    simp only [Bool.or_eq_true, decide_eq_true_eq]
    exact fun _ _ => Nat.le_total _ _
  constructor
  · exact (List.pairwise_mergeSort htrans htotal _).imp of_decide_eq_true
  · exact fun h => (mem_sortedByLength.mp h).2 rfl
  · intro n hn
    have hfull : (cs.filter (!·.isEmpty)).filter (·.length = n) = cs.filter (·.length = n) := by
      rw [List.filter_filter]
      refine List.filter_congr fun c _ => ?_
      cases c with
      | nil => simp [Nat.ne_of_lt hn]
      | cons l c => simp
    have hsub : (cs.filter (·.length = n)).Sublist cs.sortedByLength := by
      refine List.sublist_mergeSort htrans htotal ?_ (hfull ▸ List.filter_sublist)
      refine List.pairwise_of_forall_mem_list fun c hc d hd => ?_
      rw [List.mem_filter, decide_eq_true_eq] at hc hd
      exact decide_eq_true (Nat.le_of_eq (hc.2.trans hd.2.symm))
    have hlength : (cs.sortedByLength.filter (·.length = n)).length =
        (cs.filter (·.length = n)).length := by
      rw [← hfull]
      exact ((List.mergeSort_perm _ _).filter _).length_eq
    have hkeep := hsub.filter (·.length = n)
    simp only [List.filter_filter, Bool.and_self] at hkeep
    exact (hkeep.eq_of_length hlength.symm).symm

theorem mem_iff_of_filter_length {ds es : ClauseSet α}
    (h : ∀ n, ds.filter (·.length = n) = es.filter (·.length = n)) (c : Clause α) :
    c ∈ ds ↔ c ∈ es := by
  have hmem : c ∈ ds.filter (·.length = c.length) ↔ c ∈ es.filter (·.length = c.length) := by
    rw [h]
  simpa using hmem

/-- Order by length, with the clauses of each length in a given order, leaves no choice. -/
theorem eq_of_filter_length {ds es : ClauseSet α}
    (hds : ds.Pairwise fun c d => c.length ≤ d.length)
    (hes : es.Pairwise fun c d => c.length ≤ d.length)
    (h : ∀ n, ds.filter (·.length = n) = es.filter (·.length = n)) : ds = es := by
  induction ds generalizing es with
  | nil =>
      refine (List.eq_nil_iff_forall_not_mem.mpr fun c hc => ?_).symm
      exact absurd ((mem_iff_of_filter_length h c).mpr hc) List.not_mem_nil
  | cons d ds ih =>
      have hmem := mem_iff_of_filter_length h
      cases es with
      | nil => exact absurd ((hmem d).mp List.mem_cons_self) List.not_mem_nil
      | cons e es =>
          obtain ⟨hd, hdtail⟩ := List.pairwise_cons.mp hds
          obtain ⟨he, hetail⟩ := List.pairwise_cons.mp hes
          have hle : d.length ≤ e.length := by
            rcases List.mem_cons.mp ((hmem e).mpr List.mem_cons_self) with rfl | hmem
            · exact Nat.le_refl _
            · exact hd e hmem
          have hge : e.length ≤ d.length := by
            rcases List.mem_cons.mp ((hmem d).mp List.mem_cons_self) with rfl | hmem
            · exact Nat.le_refl _
            · exact he d hmem
          have hlength : e.length = d.length := Nat.le_antisymm hge hle
          have hhead := h d.length
          simp only [List.filter_cons, hlength, decide_true, if_true] at hhead
          obtain ⟨rfl, -⟩ := List.cons.inj hhead
          have hrest : ∀ n, ds.filter (·.length = n) = es.filter (·.length = n) := by
            intro n
            have hn := h n
            by_cases hdn : d.length = n
            · simpa [hdn] using hn
            · simpa [hdn] using hn
          rw [ih hdtail hetail hrest]

theorem SortedByLength.eq {cs ds es : ClauseSet α} (hd : cs.SortedByLength ds)
    (he : cs.SortedByLength es) : ds = es := by
  refine eq_of_filter_length hd.sorted he.sorted fun n => ?_
  rcases Nat.eq_zero_or_pos n with rfl | hn
  · have hnone : ∀ fs : ClauseSet α, [] ∉ fs → fs.filter (·.length = 0) = [] := by
      intro fs hfs
      rw [List.filter_eq_nil_iff]
      intro c hc hlength
      exact hfs (List.eq_nil_of_length_eq_zero (of_decide_eq_true hlength) ▸ hc)
    rw [hnone ds hd.nil_notMem, hnone es he.nil_notMem]
  · rw [hd.filter_length n hn, he.filter_length n hn]

end ClauseSet

/-! ## Counting literals -/

variable [Atom α]

/-- No literal occurs more often, and none that occurs as often is met earlier. -/
structure MostFrequent (ls : List (Literal α)) (l : Literal α) : Prop where
  mem : l ∈ ls
  count_le : ∀ k ∈ ls, ls.count k ≤ ls.count l
  first : ∀ k ∈ ls, ls.count k = ls.count l → ls.idxOf l ≤ ls.idxOf k

theorem MostFrequent.eq {ls : List (Literal α)} {l k : Literal α} (hl : MostFrequent ls l)
    (hk : MostFrequent ls k) : l = k := by
  have hcount : ls.count l = ls.count k :=
    Nat.le_antisymm (hk.count_le l hl.mem) (hl.count_le k hk.mem)
  have hfirst : ls.idxOf l = ls.idxOf k :=
    Nat.le_antisymm (hl.first k hk.mem hcount.symm) (hk.first l hl.mem hcount)
  exact (List.idxOf_inj hl.mem).mp hfirst

theorem mostFrequent?_eq_none_iff {ls : List (Literal α)} : mostFrequent? ls = none ↔ ls = [] := by
  have hnil : ls.eraseDups = [] ↔ ls = [] := by
    simp only [List.eq_nil_iff_forall_not_mem, List.mem_eraseDups]
  rw [mostFrequent?, maxOn?_eq_none_iff, hnil]

theorem mostFrequent_of_mostFrequent? {ls : List (Literal α)} {l : Literal α}
    (h : mostFrequent? ls = some l) : MostFrequent ls l := by
  obtain ⟨before, after, hsplit, hlt, hle⟩ := exists_split_of_maxOn? h
  have horder := pairwise_idxOf_eraseDups ls
  rw [hsplit, List.pairwise_append, List.pairwise_cons] at horder
  have hplace : ∀ k ∈ ls, k ∈ before ∨ k = l ∨ k ∈ after := by
    intro k hk
    rw [← List.mem_eraseDups, hsplit, List.mem_append, List.mem_cons] at hk
    exact hk
  refine ⟨mem_of_mostFrequent? h, fun k hk => ?_, fun k hk hcount => ?_⟩
  · rcases hplace k hk with hk | rfl | hk
    · exact Nat.le_of_lt (hlt k hk)
    · exact Nat.le_refl _
    · exact hle k hk
  · rcases hplace k hk with hk | rfl | hk
    · exact absurd hcount (Nat.ne_of_lt (hlt k hk))
    · exact Nat.le_refl _
    · exact Nat.le_of_lt (horder.2.1.1 k hk)

theorem mostFrequent?_eq_some_iff {ls : List (Literal α)} {l : Literal α} :
    mostFrequent? ls = some l ↔ MostFrequent ls l := by
  constructor
  · exact mostFrequent_of_mostFrequent?
  · intro hl
    obtain ⟨k, hk⟩ := Option.ne_none_iff_exists'.mp fun hnone =>
      List.ne_nil_of_mem hl.mem (mostFrequent?_eq_none_iff.mp hnone)
    rw [hk, hl.eq (mostFrequent_of_mostFrequent? hk)]

/-! ## The literal picked -/

omit [Atom α] in
theorem ClauseSet.flatten_twoShortest_eq_nil_iff {cs : ClauseSet α} :
    cs.twoShortest.flatten = [] ↔ ∀ c ∈ cs, c = [] := by
  rw [List.flatten_eq_nil_iff]
  constructor
  · intro h c hc
    by_contra hne
    have hmem : c ∈ cs.sortedByLength := mem_sortedByLength.mpr ⟨hc, hne⟩
    obtain ⟨d, ds, hd⟩ := List.exists_cons_of_ne_nil (List.ne_nil_of_mem hmem)
    have hfirst : d ∈ cs.twoShortest := by
      rw [twoShortest_eq_take, hd]
      exact List.mem_cons_self
    exact (mem_sortedByLength.mp (hd ▸ List.mem_cons_self)).2 (h d hfirst)
  · exact fun h c hc => h c (mem_of_mem_twoShortest hc)

theorem Branching.pick?_eq_none_iff (b : Branching) {cs : ClauseSet α} :
    b.pick? cs = none ↔ ∀ c ∈ cs, c = [] := by
  cases b with
  | twoSmallest =>
      rw [pick?, mostFrequent?_eq_none_iff, ClauseSet.flatten_twoShortest_eq_nil_iff]
  | firstLiteral =>
      rw [pick?, ← List.head?_flatten, List.head?_eq_none_iff, List.flatten_eq_nil_iff]
  | mostOccurrences => rw [pick?, mostFrequent?_eq_none_iff, List.flatten_eq_nil_iff]

omit [Atom α] in
/-- The strategy gives up only when no clause has a literal. -/
def Strategy.Persistent (s : Strategy α) : Prop :=
  ∀ cs : ClauseSet α, s.pick? cs = none → ∀ c ∈ cs, c = []

theorem Branching.persistent_strategy (b : Branching) : (b.strategy : Strategy α).Persistent :=
  fun _ => b.pick?_eq_none_iff.mp

namespace Branching

/-- A strategy picks a literal of the clauses unless they have none. Counting picks the most frequent
literal, of several the one met first, in all clauses or in the first two clauses by length. -/
theorem pick?_by_occurrences (cs : ClauseSet α) :
    (∀ b : Branching, (b.pick? cs = none ↔ ∀ c ∈ cs, ∀ l, l ∉ c) ∧
      ∀ l, b.pick? cs = some l → ∃ c ∈ cs, l ∈ c) ∧
      (∀ l, mostOccurrences.pick? cs = some l ↔ MostFrequent cs.flatten l) ∧
      (∃ ds, cs.SortedByLength ds) ∧
      ∀ ds, cs.SortedByLength ds →
        ∀ l, twoSmallest.pick? cs = some l ↔ MostFrequent (ds.take 2).flatten l := by
  refine ⟨fun b => ⟨?_, fun l => b.mem_of_pick?⟩, fun l => mostFrequent?_eq_some_iff,
    ⟨_, cs.sortedByLength_spec⟩, fun ds hds l => ?_⟩
  · simp only [b.pick?_eq_none_iff, List.eq_nil_iff_forall_not_mem]
  · rw [pick?, mostFrequent?_eq_some_iff, ClauseSet.twoShortest_eq_take,
      hds.eq cs.sortedByLength_spec]

/-- In the two shortest clauses two literals occur twice each; the one picked is met first there. A
third clause, and an empty one, have no part in this. -/
theorem pick?_by_occurrences_on_tie :
    twoSmallest.pick? ([[⟨1, true⟩, ⟨2, true⟩, ⟨3, true⟩], [], [⟨2, false⟩, ⟨3, true⟩],
      [⟨3, true⟩, ⟨2, false⟩]] : ClauseSet Nat) = some ⟨2, false⟩ := by
  have hds : ClauseSet.SortedByLength
      ([[⟨1, true⟩, ⟨2, true⟩, ⟨3, true⟩], [], [⟨2, false⟩, ⟨3, true⟩],
        [⟨3, true⟩, ⟨2, false⟩]] : ClauseSet Nat)
      [[⟨2, false⟩, ⟨3, true⟩], [⟨3, true⟩, ⟨2, false⟩], [⟨1, true⟩, ⟨2, true⟩, ⟨3, true⟩]] := by
    refine ⟨by decide, by decide, fun n hn => ?_⟩
    match n with
    | 1 | 2 | 3 => decide
    | n + 4 => simp
  exact ((pick?_by_occurrences _).2.2.2 _ hds _).mpr ⟨by decide, by decide, by decide⟩

end Branching

end PropSat
