import PropSat.Clause

/-!
# Branching strategies

Which literal a search assumes next. Every strategy picks a literal of the clauses it is given, and
gives up only when they have none.
-/

namespace PropSat

variable {α : Type}

/-- A choice of a literal to assume, taken from the clauses at hand. -/
structure Strategy (α : Type) where
  pick? : ClauseSet α → Option (Literal α)
  mem_of_pick? : ∀ {cs : ClauseSet α} {l : Literal α}, pick? cs = some l → ∃ c ∈ cs, l ∈ c

/-- At most two clauses, the shortest of those that are not empty; equally long ones in the order
given. -/
def ClauseSet.twoShortest (cs : ClauseSet α) : ClauseSet α :=
  ((cs.filter (!·.isEmpty)).mergeSort fun c d => c.length ≤ d.length).take 2

theorem ClauseSet.mem_of_mem_twoShortest {cs : ClauseSet α} {c : Clause α}
    (h : c ∈ cs.twoShortest) : c ∈ cs := by
  have := List.mem_of_mem_take h
  simp only [List.mem_mergeSort, List.mem_filter] at this
  exact this.1

variable [Atom α]

/-- The literal with the most occurrences; of several, the one met first. -/
def mostFrequent? (ls : List (Literal α)) : Option (Literal α) :=
  ls.eraseDups.maxOn? ls.count

theorem mem_of_mostFrequent? {ls : List (Literal α)} {l : Literal α}
    (h : mostFrequent? ls = some l) : l ∈ ls := by
  simpa using List.maxOn?_mem h

inductive Branching where
  | twoSmallest
  | firstLiteral
  | mostOccurrences
deriving DecidableEq, Repr

namespace Branching

/-- The literal to assume: the most frequent one of the two shortest clauses, the first one of the
first clause that has any, or the most frequent one overall. -/
def pick? : Branching → ClauseSet α → Option (Literal α)
  | twoSmallest, cs => mostFrequent? cs.twoShortest.flatten
  | firstLiteral, cs => cs.findSome? List.head?
  | mostOccurrences, cs => mostFrequent? cs.flatten

theorem mem_of_pick? (b : Branching) {cs : ClauseSet α} {l : Literal α}
    (h : b.pick? cs = some l) : ∃ c ∈ cs, l ∈ c := by
  cases b with
  | twoSmallest =>
      obtain ⟨c, hc, hl⟩ := List.mem_flatten.mp (mem_of_mostFrequent? h)
      exact ⟨c, ClauseSet.mem_of_mem_twoShortest hc, hl⟩
  | firstLiteral =>
      obtain ⟨c, hc, hl⟩ := List.exists_of_findSome?_eq_some h
      exact ⟨c, hc, List.mem_of_head? hl⟩
  | mostOccurrences => exact List.mem_flatten.mp (mem_of_mostFrequent? h)

def strategy (b : Branching) : Strategy α := ⟨b.pick?, b.mem_of_pick?⟩

end Branching

end PropSat
