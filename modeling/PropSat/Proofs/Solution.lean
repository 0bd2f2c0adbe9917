import PropSat.Proofs.Dimacs.RoundTrip
import PropSat.Proofs.Text.Lines
import PropSat.Solution

/-!
# The text of a solution

A model is laid out as lines of words: the status, the value lines with one to eight literals each,
and a line with a zero alone. The words of the value lines are those of the literals in ascending
order, each of which shows number and sign. So the text determines the solution, and reading it up
to the first zero gives the literals back if no variable has the number zero itself.
-/

namespace PropSat

namespace Literal

/-- The digits of the number, after a minus if the literal is negative. -/
def word (l : Literal Nat) : List Char :=
  if l.sign then Nat.toDigits 10 l.atom else '-' :: Nat.toDigits 10 l.atom

theorem isWord_word (l : Literal Nat) : Text.IsWord l.word := by
  have hdigits := Text.isWord_toDigits l.atom
  unfold word
  split
  · exact hdigits
  · exact ⟨List.cons_ne_nil _ _, List.forall_mem_cons.mpr ⟨by decide, hdigits.not_isBlank⟩⟩

theorem word_injective : Function.Injective word := by
  have hdigits : ∀ m n : Nat, Nat.toDigits 10 m = Nat.toDigits 10 n → m = n := by
    intro m n h
    have hread := congrArg Text.digits? h
    rwa [Text.digits?_toDigits, Text.digits?_toDigits, Option.some.injEq] at hread
  have hminus : ∀ (m : Nat) (cs : List Char), Nat.toDigits 10 m ≠ '-' :: cs := by
    intro m cs h
    have := Text.isDigit_of_mem_toDigits (h ▸ List.mem_cons_self : '-' ∈ Nat.toDigits 10 m)
    contradiction
  rintro ⟨m, s⟩ ⟨n, t⟩ h
  cases s <;> cases t
  · rw [hdigits m n (List.cons.inj h).2]
  · exact absurd h.symm (hminus n _)
  · exact absurd h (hminus m _)
  · rw [hdigits m n h]

/-- A negative zero has a word of its own, but no other signed number. -/
theorem word_eq_toString {l : Literal Nat} (h : 1 ≤ l.atom) : l.word = (toString l.signed).toList := by
  rw [Text.toList_toString, natAbs_signed, word, signed]
  cases l.sign with
  | true => rw [if_pos rfl, if_pos rfl, if_neg (by omega)]
  | false => rw [if_neg Bool.false_ne_true, if_neg Bool.false_ne_true, if_pos (by omega)]

end Literal

namespace Valuation

variable {α : Type} [Atom α]

def literals (v : Valuation α) : List (Literal α) := v.toList.map fun p => ⟨p.1, p.2⟩

theorem mem_literals {v : Valuation α} {l : Literal α} : l ∈ v.literals ↔ l.HoldsIn v := by
  rw [Literal.HoldsIn, ← Std.ExtTreeMap.mem_toList_iff_getElem?_eq_some, literals, List.mem_map]
  constructor
  · rintro ⟨p, hp, rfl⟩
    exact hp
  · intro hl
    exact ⟨_, hl, rfl⟩

theorem map_atom_literals (v : Valuation α) : v.literals.map Literal.atom = v.keys := by
  rw [literals, List.map_map, ← Std.ExtTreeMap.map_fst_toList_eq_keys]
  rfl

theorem atom_mem_of_mem_literals {v : Valuation α} {l : Literal α} (h : l ∈ v.literals) :
    l.atom ∈ v :=
  Std.ExtTreeMap.mem_keys.mp (v.map_atom_literals ▸ List.mem_map_of_mem h)

theorem literals_injective : Function.Injective (literals : Valuation α → List (Literal α)) := by
  intro v w h
  have hpairs : ∀ u : Valuation α, u.literals.map (fun l => (l.atom, l.sign)) = u.toList := by
    intro u
    rw [literals, List.map_map]
    exact List.map_id _
  rw [← Std.ExtTreeMap.toList_inj, ← hpairs, h, hpairs]

end Valuation

namespace Solution

/-! ## Rows -/

theorem flatten_rows {β : Type} (width : Nat) (xs : List β) : (rows width xs).flatten = xs := by
  fun_induction rows width xs with
  | case1 => rfl
  | case2 x xs ih => rw [List.flatten_cons, ih, List.cons_append, List.take_append_drop]

theorem rows_map {β γ : Type} (f : β → γ) (width : Nat) (xs : List β) :
    rows width (xs.map f) = (rows width xs).map (·.map f) := by
  fun_induction rows width xs with
  | case1 => rw [List.map_nil, rows, List.map_nil]
  | case2 x xs ih =>
      rw [List.map_cons, rows, ← List.map_drop, ih, ← List.map_take]
      rfl

theorem ne_nil_and_length_le_of_mem_rows {β : Type} {width : Nat} (hwidth : 0 < width)
    {row xs : List β} (h : row ∈ rows width xs) : row ≠ [] ∧ row.length ≤ width := by
  fun_induction rows width xs with
  | case1 => contradiction
  | case2 x xs ih =>
      rcases List.mem_cons.mp h with rfl | h
      · refine ⟨List.cons_ne_nil _ _, ?_⟩
        have := List.length_take_le (width - 1) xs
        rw [List.length_cons]
        omega
      · exact ih h

/-! ## Lines -/

def status : Solution Nat → List Char
  | unsatisfiable => ['s', ' ', 'U', 'N', 'S', 'A', 'T', 'I', 'S', 'F', 'I', 'A', 'B', 'L', 'E']
  | satisfiable _ => ['s', ' ', 'S', 'A', 'T', 'I', 'S', 'F', 'I', 'A', 'B', 'L', 'E']

/-- A `v` and the literals. -/
def literalLine (row : List (Literal Nat)) : List Char :=
  Text.unwords (['v'] :: row.map Literal.word)

def valueLines : Solution Nat → List (List Char)
  | unsatisfiable => []
  | satisfiable v => (rows 8 v.literals).map literalLine ++ [['v', ' ', '0']]

theorem toList_literalLine (row : List (Nat × Bool)) :
    ("v" ++ String.join (row.map fun p => (if p.2 then " " else " -") ++ ToString.toString p.1) ++
      "\n").toList = literalLine (row.map fun p => ⟨p.1, p.2⟩) ++ ['\n'] := by
  have hword : ∀ p : Nat × Bool, ((if p.2 then " " else " -") ++ ToString.toString p.1).toList =
      ' ' :: Literal.word ⟨p.1, p.2⟩ := by
    rintro ⟨n, b⟩
    rw [String.toList_append, Nat.toString_eq_repr, Nat.toList_repr]
    cases b with
    | true =>
        rw [if_pos rfl]
        rfl
    | false =>
        rw [if_neg Bool.false_ne_true]
        rfl
  have hwords : (String.join (row.map fun p =>
      (if p.2 then " " else " -") ++ ToString.toString p.1)).toList =
        (row.map fun p => Literal.word ⟨p.1, p.2⟩).flatMap (' ' :: ·) := by
    rw [String.toList_join, List.flatMap_map, List.flatMap_map]
    exact List.flatMap_congr fun p _ => hword p
  rw [String.toList_append, String.toList_append, hwords, literalLine,
    Text.unwords_cons_eq_flatMap, List.map_map]
  rfl

theorem toList_toDimacs_eq_unlines (s : Solution Nat) :
    s.toDimacs.toList = Text.unlines (s.status :: s.valueLines) := by
  cases s with
  | unsatisfiable => rfl
  | satisfiable v =>
      have hlines : (rows 8 v.toList).flatMap (fun row => ("v" ++ String.join (row.map fun p =>
          (if p.2 then " " else " -") ++ ToString.toString p.1) ++ "\n").toList) =
            (rows 8 v.literals).flatMap (literalLine · ++ ['\n']) := by
        rw [Valuation.literals, rows_map, List.flatMap_map]
        exact List.flatMap_congr fun row _ => toList_literalLine row
      rw [toDimacs, String.toList_append, String.toList_append, String.toList_join,
        List.flatMap_map]
      refine (congrArg (fun cs => _ ++ cs ++ _) hlines).trans ?_
      rw [Text.unlines, status, valueLines, List.flatMap_cons, List.flatMap_append,
        List.flatMap_map, ← List.append_assoc]
      rfl

theorem isWord_of_mem_literalLine {row : List (Literal Nat)} :
    ∀ w ∈ ['v'] :: row.map Literal.word, Text.IsWord w :=
  List.forall_mem_cons.mpr ⟨by decide, List.forall_mem_map.mpr fun l _ => l.isWord_word⟩

theorem lines_toDimacs (s : Solution Nat) :
    Text.lines s.toDimacs.toList = s.status :: s.valueLines := by
  rw [toList_toDimacs_eq_unlines]
  refine Text.lines_unlines (List.forall_mem_cons.mpr ⟨?_, fun l hl => ?_⟩)
  · unfold status
    split <;> decide
  · cases s with
    | unsatisfiable => contradiction
    | satisfiable v =>
        rcases List.mem_append.mp hl with hl | hl
        · obtain ⟨row, -, rfl⟩ := List.mem_map.mp hl
          exact Text.newline_not_mem_unwords isWord_of_mem_literalLine
        · rw [List.mem_singleton.mp hl]
          decide

/-! ## Reading back -/

/-- The words that follow the `v` on a value line; any other line has none. -/
def valuesOn (line : List Char) : List (List Char) :=
  match Text.words line with
  | ['v'] :: ws => ws
  | _ => []

/-- The literals up to the first zero; none if a word before it is no number, or if there is no
zero. -/
def readValues? : List (List Char) → Option (List (Literal Nat))
  | [] => none
  | w :: ws =>
      (Text.integer? w).bind fun n =>
        match Literal.ofInt? n with
        | none => some []
        | some l => (readValues? ws).map (l :: ·)

def readSolution? (text : List Char) : Option (List (Literal Nat)) :=
  readValues? ((Text.lines text).flatMap valuesOn)

theorem valuesOn_literalLine (row : List (Literal Nat)) :
    valuesOn (literalLine row) = row.map Literal.word := by
  rw [valuesOn, literalLine, Text.words_unwords isWord_of_mem_literalLine]
  rfl

theorem flatMap_valuesOn_lines (v : Valuation Nat) :
    (Text.lines (satisfiable v).toDimacs.toList).flatMap valuesOn =
      v.literals.map Literal.word ++ [['0']] := by
  have hrows : ((rows 8 v.literals).map literalLine).flatMap valuesOn =
      v.literals.map Literal.word := by
    rw [List.flatMap_map, List.flatMap_congr fun row _ => valuesOn_literalLine row,
      List.flatMap_def, ← List.map_flatten, flatten_rows]
  rw [lines_toDimacs, List.flatMap_cons, valueLines, List.flatMap_append, hrows]
  rfl

theorem readValues?_words {ls : List (Literal Nat)} (h : ∀ l ∈ ls, 1 ≤ l.atom)
    (after : List (List Char)) : readValues? (ls.map Literal.word ++ ['0'] :: after) = some ls := by
  induction ls with
  | nil => rfl
  | cons l ls ih =>
      obtain ⟨hl, hls⟩ := List.forall_mem_cons.mp h
      rw [List.map_cons, List.cons_append, readValues?, Literal.word_eq_toString hl,
        Text.integer?_toString, Option.bind_some, Literal.ofInt?_signed (Nat.ne_of_gt hl), ih hls]
      rfl

theorem readSolution?_toDimacs {v : Valuation Nat} (h : ∀ n ∈ v, 1 ≤ n) :
    readSolution? (satisfiable v).toDimacs.toList = some v.literals := by
  rw [readSolution?, flatMap_valuesOn_lines]
  exact readValues?_words (fun l hl => h l.atom (Valuation.atom_mem_of_mem_literals hl)) []

theorem toDimacs_injective : Function.Injective (toDimacs : Solution Nat → String) := by
  have hnone : (Text.lines (unsatisfiable : Solution Nat).toDimacs.toList).flatMap valuesOn = [] := by
    rw [lines_toDimacs]
    rfl
  have hne : ∀ v : Valuation Nat, unsatisfiable.toDimacs ≠ (satisfiable v).toDimacs := by
    intro v h
    rw [h, flatMap_valuesOn_lines] at hnone
    exact absurd hnone (List.append_ne_nil_of_right_ne_nil _ (List.cons_ne_nil _ _))
  intro s t h
  cases s with
  | unsatisfiable =>
      cases t with
      | unsatisfiable => rfl
      | satisfiable w => exact absurd h (hne w)
  | satisfiable v =>
      cases t with
      | unsatisfiable => exact absurd h.symm (hne v)
      | satisfiable w =>
          have hwords := flatMap_valuesOn_lines v
          rw [h, flatMap_valuesOn_lines] at hwords
          have hliterals := List.map_injective_iff.mpr Literal.word_injective
            (List.append_cancel_right hwords)
          rw [Valuation.literals_injective hliterals]

/-- A model is printed as the status, value lines with one to eight literals each, and a last value
line with a zero. Read up to the first zero, the value lines list the true literals by ascending
variables, if these start at 1. Different solutions have different texts. -/
theorem toDimacs_determines_solution :
    (∀ v : Valuation Nat, ∃ rows : List (List (Literal Nat)),
      (satisfiable v).toDimacs.toList =
        Text.unlines ("s SATISFIABLE".toList :: (rows.map literalLine ++ ["v 0".toList])) ∧
      (∀ row ∈ rows, row ≠ [] ∧ row.length ≤ 8) ∧ rows.flatten = v.literals) ∧
      (∀ v : Valuation Nat, (∀ n ∈ v, 1 ≤ n) →
        ∃ ls, readSolution? (satisfiable v).toDimacs.toList = some ls ∧
          (ls.map Literal.atom).Pairwise (· < ·) ∧ ∀ l, l ∈ ls ↔ l.HoldsIn v) ∧
      Function.Injective (toDimacs : Solution Nat → String) := by
  refine ⟨fun v => ⟨rows 8 v.literals, toList_toDimacs_eq_unlines _, fun row hrow => ?_,
    flatten_rows 8 v.literals⟩, fun v hv => ⟨v.literals, readSolution?_toDimacs hv, ?_,
    fun l => Valuation.mem_literals⟩, toDimacs_injective⟩
  · exact ne_nil_and_length_le_of_mem_rows (by decide) hrow
  · rw [Valuation.map_atom_literals]
    exact Std.ExtTreeMap.ordered_keys.imp Nat.compare_eq_lt.mp

/-- A variable that no 32 bits hold is read back. -/
theorem toDimacs_determines_solution_beyond_32_bits :
    (∀ n ∈ Valuation.ofPairs [(1, true), (1099511627776, false)], 1 ≤ n) ∧
      ∃ ls, readSolution? (satisfiable (.ofPairs [(1, true), (1099511627776, false)])).toDimacs.toList =
          some ls ∧ ⟨1099511627776, false⟩ ∈ ls := by
  have hpos : ∀ n ∈ Valuation.ofPairs [(1, true), (1099511627776, false)], 1 ≤ n := by
    intro n hn
    simp [Valuation.ofPairs] at hn
    omega
  obtain ⟨ls, hread, -, hmem⟩ := toDimacs_determines_solution.2.1 _ hpos
  refine ⟨hpos, ls, hread, (hmem _).mpr ?_⟩
  simp [Literal.HoldsIn, Valuation.ofPairs, Std.ExtTreeMap.ofList_cons]

end Solution

end PropSat
