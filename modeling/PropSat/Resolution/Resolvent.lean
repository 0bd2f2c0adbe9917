import PropSat.Clause

/-!
# Resolvents

Two clauses, viewed as literal sets, are resolved when exactly one literal of the first clashes with
the second. The resolvents of a list of clauses are those of its pairs, in the order of the list.
-/

namespace PropSat

variable {α : Type} [Atom α]

namespace LiteralSet

/-- The resolvent on the only pair of complementary literals. Without a clash there is none, and
with several every resolvent would be a tautology. -/
def resolve? (c d : LiteralSet α) : Option (LiteralSet α) :=
  match c.toList.filter (·.negate ∈ d) with
  | [l] => some (c.erase l ∪ d.erase l.negate)
  | _ => none

theorem mem_of_mem_resolve? {c d r : LiteralSet α} (h : c.resolve? d = some r) {l : Literal α}
    (hl : l ∈ r) : l ∈ c ∨ l ∈ d := by
  unfold resolve? at h
  split at h
  · cases h
    simp only [Std.ExtTreeSet.mem_union_iff, Std.ExtTreeSet.mem_erase] at hl
    exact hl.imp And.right And.right
  · contradiction

/-- The resolvents of each clause with each later one. -/
def resolvents : List (LiteralSet α) → List (LiteralSet α)
  | [] => []
  | c :: cs => cs.filterMap c.resolve? ++ resolvents cs

theorem exists_of_mem_resolvents {cs : List (LiteralSet α)} {r : LiteralSet α}
    (h : r ∈ resolvents cs) : ∃ c ∈ cs, ∃ d ∈ cs, c.resolve? d = some r := by
  induction cs with
  | nil => contradiction
  | cons c cs ih =>
      simp only [resolvents, List.mem_append, List.mem_filterMap] at h
      rcases h with ⟨d, hd, hr⟩ | h
      · exact ⟨c, by simp, d, by simp [hd], hr⟩
      · obtain ⟨c', hc, d, hd, hr⟩ := ih h
        exact ⟨c', by simp [hc], d, by simp [hd], hr⟩

def literals (cs : List (LiteralSet α)) : LiteralSet α := .ofList (cs.flatMap (·.toList))

theorem mem_literals {cs : List (LiteralSet α)} {l : Literal α} :
    l ∈ literals cs ↔ ∃ c ∈ cs, l ∈ c := by
  simp [literals]

def subsets : List (Literal α) → List (LiteralSet α)
  | [] => [∅]
  | l :: ls => subsets ls ++ (subsets ls).map (·.insert l)

theorem mem_subsets {ls : List (Literal α)} {c : LiteralSet α} (h : ∀ l ∈ c, l ∈ ls) :
    c ∈ subsets ls := by
  induction ls generalizing c with
  | nil =>
      have : c = ∅ := by ext l; simpa using h l
      simp [subsets, this]
  | cons l ls ih =>
      simp only [subsets, List.mem_append, List.mem_map]
      by_cases hl : l ∈ c
      · refine .inr ⟨c.erase l, ih fun k hk => ?_, ?_⟩
        · simp only [Std.ExtTreeSet.mem_erase] at hk
          have := h k hk.2
          grind
        · ext k
          simp only [Std.ExtTreeSet.mem_insert, Std.ExtTreeSet.mem_erase]
          grind
      · exact .inl (ih fun k hk => by have := h k hk; grind)

end LiteralSet

end PropSat
