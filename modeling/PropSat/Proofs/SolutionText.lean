import PropSat.Proofs.Solution
import PropSat.Proofs.Solver

/-!
# What a solver reports

The numbers on the value lines of a model are its literals, every variable once. So the text that a
solver gives reports on its clause set, and all solvers report alike on the first line.
-/

namespace PropSat

def valueLine (ns : List Int) : List Char :=
  Text.unwords (['v'] :: ns.map fun n => (toString n).toList)

/-- The status line and the value lines, closed by a line with a zero. -/
def modelText (rows : List (List Int)) : List Char :=
  Text.unlines (['s', ' ', 'S', 'A', 'T', 'I', 'S', 'F', 'I', 'A', 'B', 'L', 'E'] ::
    (rows ++ [[0]]).map valueLine)

namespace Valuation

/-- The signed numbers of the literals that the valuation makes true, in the order of their
variables. -/
def signedNumbers (v : Valuation Nat) : List Int :=
  v.toList.map fun p => (⟨p.1, p.2⟩ : Literal Nat).signed

theorem signedNumbers_eq (v : Valuation Nat) : v.signedNumbers = v.literals.map Literal.signed := by
  rw [signedNumbers, literals, List.map_map]
  rfl

theorem natAbs_signedNumbers (v : Valuation Nat) : v.signedNumbers.map Int.natAbs = v.keys := by
  rw [signedNumbers_eq, List.map_map, ← map_atom_literals]
  exact List.map_congr_left fun l _ => Literal.natAbs_signed l

theorem signed_mem_signedNumbers {v : Valuation Nat} {l : Literal Nat} (h : l.HoldsIn v) :
    l.signed ∈ v.signedNumbers := by
  rw [signedNumbers_eq]
  exact List.mem_map_of_mem (mem_literals.mpr h)

end Valuation

namespace Solution

theorem ofOption_eq_satisfiable_iff {α : Type} [Atom α] {o : Option (Valuation α)}
    {v : Valuation α} : ofOption o = satisfiable v ↔ o = some v := by
  cases o with
  | none =>
      constructor
      · intro h
        contradiction
      · intro h
        contradiction
  | some w => exact ⟨fun h => congrArg some (satisfiable.inj h), fun h => congrArg ofOption h⟩

theorem literalLine_eq_valueLine {row : List (Literal Nat)} (h : ∀ l ∈ row, 1 ≤ l.atom) :
    literalLine row = valueLine (row.map Literal.signed) := by
  rw [literalLine, valueLine, List.map_map]
  exact congrArg (fun ws => Text.unwords (['v'] :: ws))
    (List.map_congr_left fun l hl => Literal.word_eq_toString (h l hl))

theorem toList_toDimacs {v : Valuation Nat} (hpos : ∀ n ∈ v, 1 ≤ n) :
    (satisfiable v).toDimacs.toList = modelText (rows 8 v.signedNumbers) := by
  have hatoms : ∀ row ∈ rows 8 v.literals, ∀ l ∈ row, 1 ≤ l.atom := by
    intro row hrow l hl
    have hmem : l ∈ v.literals := by
      rw [← flatten_rows 8 v.literals]
      exact List.mem_flatten_of_mem hrow hl
    exact hpos l.atom (Valuation.atom_mem_of_mem_literals hmem)
  have hlines : (rows 8 v.literals).map literalLine = (rows 8 v.signedNumbers).map valueLine := by
    rw [Valuation.signedNumbers_eq, rows_map, List.map_map]
    exact List.map_congr_left fun row hrow => literalLine_eq_valueLine (hatoms row hrow)
  rw [toList_toDimacs_eq_unlines, status, valueLines, hlines, modelText, List.map_append]
  rfl

end Solution

/-- The text says whether there is a model. For a model it gives the number of each variable at most
once, and among the numbers that of a literal of every clause. -/
structure Reports (cs : ClauseSet Nat) (solution : String) : Prop where
  unsatisfiable_iff : solution = "s UNSATISFIABLE\n" ↔ ¬ cs.Satisfiable
  exists_rows : cs.Satisfiable → ∃ rows : List (List Int), solution.toList = modelText rows ∧
    0 ∉ rows.flatten ∧ (rows.flatten.map Int.natAbs).Nodup ∧
      ∀ c ∈ cs, ∃ l ∈ c, l.signed ∈ rows.flatten

def statusLine (solution : String) : List Char := solution.toList.takeWhile (· ≠ '\n')

theorem Reports.statusLine_eq {cs : ClauseSet Nat} {solution other : String}
    (h : Reports cs solution) (hother : Reports cs other) :
    statusLine other = statusLine solution := by
  by_cases hsat : cs.Satisfiable
  · obtain ⟨rows, hrows, -⟩ := h.exists_rows hsat
    obtain ⟨rows', hrows', -⟩ := hother.exists_rows hsat
    rw [statusLine, statusLine, hrows, hrows']
    rfl
  · rw [h.unsatisfiable_iff.mpr hsat, hother.unsatisfiable_iff.mpr hsat]

theorem reports_unsatisfiable {cs : ClauseSet Nat} (h : ¬ cs.Satisfiable) :
    Reports cs (Solution.unsatisfiable : Solution Nat).toDimacs :=
  ⟨iff_of_true rfl h, fun hsat => absurd hsat h⟩

theorem reports_satisfiable {cs : ClauseSet Nat} {v : Valuation Nat} (hpos : ∀ n ∈ v, 1 ≤ n)
    (h : cs.HoldsIn v) : Reports cs (Solution.satisfiable v).toDimacs := by
  have htext := Solution.toList_toDimacs hpos
  refine ⟨iff_of_false ?_ (not_not_intro h.satisfiable), fun _ => ⟨_, htext, ?_⟩⟩
  · intro heq
    rw [heq] at htext
    have hthird : some 'U' = some 'S' := congrArg (·[2]?) htext
    contradiction
  · rw [Solution.flatten_rows, Valuation.natAbs_signedNumbers]
    refine ⟨?_, Std.ExtTreeMap.nodup_keys, ?_⟩
    · intro hzero
      have hkey : (0 : Int).natAbs ∈ v.keys :=
        v.natAbs_signedNumbers ▸ List.mem_map_of_mem hzero
      exact absurd (hpos _ (Std.ExtTreeMap.mem_keys.mp hkey)) (by decide)
    · intro c hc
      obtain ⟨l, hl, hv⟩ := h c hc
      exact ⟨l, hl, Valuation.signed_mem_signedNumbers hv⟩

namespace Solver

/-- The name of a number is only looked up from 1, so no model through names has a variable 0. -/
theorem one_le_of_solveByName {s : Solver} {cs : ClauseSet Nat} {v : Valuation Nat}
    (h : s.solveByName cs = .satisfiable v) {n : Nat} (hn : n ∈ v) : 1 ≤ n := by
  obtain ⟨w, -, rfl⟩ := Option.map_eq_some_iff.mp (Solution.ofOption_eq_satisfiable_iff.mp h)
  rw [Std.ExtTreeMap.mem_iff_isSome_getElem?, AtomTable.getElem?_encodeValuation] at hn
  cases n with
  | zero => contradiction
  | succ n => exact Nat.succ_pos n

variable {cs : ClauseSet Nat} (hpos : ∀ c ∈ cs, ∀ l ∈ c, 1 ≤ l.atom)
include hpos

theorem one_le_of_solveNumbered {s : Solver} {v : Valuation Nat}
    (h : s.solveNumbered cs = .satisfiable v) {n : Nat} (hn : n ∈ v) : 1 ≤ n := by
  have hatoms : n ∈ cs.atoms → 1 ≤ n := by
    rw [ClauseSet.mem_atoms]
    rintro ⟨c, hc, l, hl, rfl⟩
    exact hpos c hc l hl
  cases s with
  | exhaustive => exact one_le_of_solveByName (s := exhaustive) h hn
  | dpll b =>
      exact hatoms (Dpll.mem_atoms_of_satisfy (Solution.ofOption_eq_satisfiable_iff.mp h) hn)
  | resolution =>
      exact hatoms
        ((Resolution.mem_iff_of_satisfy (Solution.ofOption_eq_satisfiable_iff.mp h)).mp hn)
  | tableau => exact one_le_of_solveByName (s := tableau) h hn

theorem reports_solveNumbered (s : Solver) : Reports cs (s.solveNumbered cs).toDimacs := by
  have h := s.answers_solveNumbered hpos
  cases hs : s.solveNumbered cs with
  | satisfiable v =>
      have hone : ∀ n ∈ v, 1 ≤ n := fun n hn => one_le_of_solveNumbered hpos hs hn
      exact reports_satisfiable hone (h.holds_of_eq v hs)
  | unsatisfiable =>
      rw [hs] at h
      exact reports_unsatisfiable fun hsat => nomatch h.isSat_iff.mpr hsat

end Solver

end PropSat
