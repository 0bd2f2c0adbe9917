import PropSat.Resolution.Model

/-!
# Saturation

Resolvents are added round by round until the empty clause appears or nothing new comes up. All
clauses stay within the sets of literals of the first round, which bounds the number of rounds.
-/

namespace PropSat.LiteralSet

variable {α : Type} [Atom α]

/-- The members of a list that have not been seen, each at its first occurrence. -/
def novel (seen : Std.ExtTreeSet (LiteralSet α)) : List (LiteralSet α) → List (LiteralSet α)
  | [] => []
  | c :: cs => if c ∈ seen then novel seen cs else c :: novel (seen.insert c) cs

theorem mem_of_mem_novel {seen : Std.ExtTreeSet (LiteralSet α)} {cs : List (LiteralSet α)}
    {c : LiteralSet α} (h : c ∈ novel seen cs) : c ∈ cs ∧ c ∉ seen := by
  induction cs generalizing seen with
  | nil => contradiction
  | cons d cs ih =>
      unfold novel at h
      split at h
      · exact ⟨.tail _ (ih h).1, (ih h).2⟩
      · rcases List.mem_cons.mp h with rfl | h
        · exact ⟨.head _, by assumption⟩
        · obtain ⟨hc, hs⟩ := ih h
          exact ⟨.tail _ hc, fun hm => hs (by simp [Std.ExtTreeSet.mem_insert, hm])⟩

/-- How many sets of the literals at hand are not yet among the clauses. -/
def remaining (known : List (LiteralSet α)) : Nat :=
  (subsets (literals known).toList).countP (· ∉ known)

theorem countP_notMem_append_lt {all known new : List (LiteralSet α)} {r : LiteralSet α}
    (hu : r ∈ all) (hr : r ∈ new) (hk : r ∉ known) :
    all.countP (· ∉ known ++ new) < all.countP (· ∉ known) := by
  have mono (cs : List (LiteralSet α)) :
      cs.countP (· ∉ known ++ new) ≤ cs.countP (· ∉ known) :=
    List.countP_mono_left (by simp; grind)
  induction all with
  | nil => contradiction
  | cons c cs ih =>
      simp only [List.countP_cons]
      rcases List.mem_cons.mp hu with rfl | hu
      · simpa [hr, hk, Nat.lt_succ_iff] using mono cs
      · have := ih hu
        have := mono [c]
        simp only [List.countP_cons, List.countP_nil] at this
        omega

theorem literals_append_of_resolvents {known new : List (LiteralSet α)}
    (h : ∀ r ∈ new, r ∈ resolvents known) : literals (known ++ new) = literals known := by
  ext l
  simp only [mem_literals, List.mem_append]
  constructor
  · rintro ⟨c, hc | hc, hl⟩
    · exact ⟨c, hc, hl⟩
    · obtain ⟨d, hd, e, he, hr⟩ := exists_of_mem_resolvents (h c hc)
      exact (mem_of_mem_resolve? hr hl).elim (⟨d, hd, ·⟩) (⟨e, he, ·⟩)
  · rintro ⟨c, hc, hl⟩
    exact ⟨c, .inl hc, hl⟩

theorem remaining_append_lt {known new : List (LiteralSet α)} {r : LiteralSet α}
    (h : ∀ r ∈ new, r ∈ resolvents known) (hr : r ∈ new) (hk : r ∉ known) :
    remaining (known ++ new) < remaining known := by
  unfold remaining
  rw [literals_append_of_resolvents h]
  refine countP_notMem_append_lt (mem_subsets fun l hl => ?_) hr hk
  obtain ⟨c, hc, d, hd, he⟩ := exists_of_mem_resolvents (h r hr)
  rw [Std.ExtTreeSet.mem_toList, mem_literals]
  exact (mem_of_mem_resolve? he hl).elim (⟨c, hc, ·⟩) (⟨d, hd, ·⟩)

/-- Adds the resolvents of the clauses until no new one arises. There is no result when the empty
clause is among them. -/
def saturate? (known : List (LiteralSet α)) : Option (List (LiteralSet α)) :=
  let derived := resolvents known
  if ∅ ∈ derived then none
  else
    match _h : novel (.ofList known) derived with
    | [] => some known
    | c :: cs => saturate? (known ++ c :: cs)
termination_by remaining known
decreasing_by
  have hm : ∀ r ∈ c :: cs, r ∈ derived ∧ r ∉ Std.ExtTreeSet.ofList known :=
    fun r hr => mem_of_mem_novel (_h ▸ hr)
  exact remaining_append_lt (fun r hr => (hm r hr).1) (.head _) (by simpa using (hm c (.head _)).2)

end PropSat.LiteralSet

namespace PropSat.Resolution

variable {α : Type} [Atom α]

/-- A model of the clauses that gives every atom a value. -/
def satisfy (cs : ClauseSet α) : Option (Valuation α) :=
  let known := (cs.map Clause.toSet).eraseDups
  if ∅ ∈ known then none
  else (LiteralSet.saturate? known).map LiteralSet.canonicalModel

end PropSat.Resolution
