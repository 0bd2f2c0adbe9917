import PropSat.Proofs.Dimacs.Grammar
import PropSat.Proofs.Text.Lines
import Mathlib.Data.List.Induction

/-!
# Layout of DIMACS text

Of a text only the trimmed lines that count are read, each with its number. Lines that are passed
over change nothing but the numbers of the lines after them, and those stand in the faults only.
Blanks around a line do not get past the trimming, and what follows the declared clauses is not
looked at.
-/

namespace PropSat.Dimacs

/-! ## Numbered lines -/

def Line.renumber (f : Nat → Nat) (l : Line) : Line := ⟨f l.number, l.text⟩

/-- The fault with its line, if it blames one, numbered anew. -/
def Error.renumber (f : Nat → Nat) : Error → Error
  | missingHeader => missingHeader
  | clauseBeforeHeader line => clauseBeforeHeader (f line)
  | malformedHeader line => malformedHeader (f line)
  | invalidLiteral line token => invalidLiteral (f line) token
  | variableOutOfRange line number max => variableOutOfRange (f line) number max
  | missingClauses expected found => missingClauses expected found

def readContent : List Line → Except Error (ClauseSet Nat)
  | [] => .error .missingHeader
  | header :: lines => do
      let (max, count) ← readHeader header
      let clauses ← (lines.take count).mapM (readClause max)
      if clauses.length < count then .error (.missingClauses count clauses.length)
      else .ok clauses

theorem read_eq_readContent (text : String) :
    read text = readContent (contentLines text.toList) := by
  unfold read readContent
  rfl

section

variable (f : Nat → Nat)

theorem readHeader_renumber (l : Line) :
    readHeader (l.renumber f) = (readHeader l).mapError (Error.renumber f) := by
  have htext : (l.renumber f).text = l.text := rfl
  unfold readHeader
  rw [htext]
  split
  · rfl
  · split
    · split <;> rfl
    · rfl

theorem readWord_renumber (line max : Nat) (w : List Char) :
    readWord (f line) max w = (readWord line max w).mapError (Error.renumber f) := by
  unfold readWord
  split
  · rfl
  · split <;> rfl

theorem readClause_renumber (max : Nat) (l : Line) :
    readClause max (l.renumber f) = (readClause max l).mapError (Error.renumber f) := by
  have hwords : (l.renumber f).literalWords = l.literalWords := rfl
  have hnumber : (l.renumber f).number = f l.number := rfl
  rw [readClause_eq_mapM, readClause_eq_mapM, ← mapM_mapError, hwords, hnumber]
  exact congrArg (List.mapM · l.literalWords) (funext (readWord_renumber f l.number max))

/-- The numbers of the lines come back in the fault, and nowhere else. -/
theorem readContent_renumber (ls : List Line) :
    readContent (ls.map (Line.renumber f)) = (readContent ls).mapError (Error.renumber f) := by
  cases ls with
  | nil => rfl
  | cons header lines =>
      have hclauses : ∀ max count : Nat,
          ((lines.map (Line.renumber f)).take count).mapM (readClause max) =
            ((lines.take count).mapM (readClause max)).mapError (Error.renumber f) := by
        intro max count
        rw [← List.map_take, List.mapM_map, ← mapM_mapError]
        exact congrArg (List.mapM · (lines.take count)) (funext (readClause_renumber f max))
      simp only [List.map_cons, readContent, readHeader_renumber, hclauses, mapError_bind]
      refine congrArg _ (funext fun p => congrArg _ (funext fun cs => ?_))
      split <;> rfl

end

/-! ## The lines that count -/

/-- The lines that count among raw lines of which the first has the given number. -/
def contentFrom (start : Nat) (raws : List (List Char)) : List Line :=
  ((raws.zipIdx start).map fun p => ⟨p.2, Text.trim p.1⟩).filter Line.hasContent

theorem contentFrom_append (start : Nat) (xs ys : List (List Char)) :
    contentFrom start (xs ++ ys) = contentFrom start xs ++ contentFrom (start + xs.length) ys := by
  unfold contentFrom
  rw [List.zipIdx_append, List.map_append, List.filter_append]

theorem contentFrom_singleton (f : Nat → Nat) (n : Nat) (raw : List Char) :
    contentFrom (f n) [raw] = (contentFrom n [raw]).map (Line.renumber f) := by
  have hcontent : Line.hasContent ⟨f n, Text.trim raw⟩ = Line.hasContent ⟨n, Text.trim raw⟩ := rfl
  simp only [contentFrom, List.zipIdx_singleton, List.map_singleton, List.filter_singleton,
    hcontent]
  cases Line.hasContent ⟨n, Text.trim raw⟩ <;> rfl

theorem contentFrom_congr {xs ys : List (List Char)} (h : xs.map Text.trim = ys.map Text.trim)
    (start : Nat) : contentFrom start xs = contentFrom start ys := by
  have htrim : ∀ zs : List (List Char), contentFrom start zs =
      (((zs.map Text.trim).zipIdx start).map fun p => ⟨p.2, p.1⟩).filter Line.hasContent := by
    intro zs
    rw [contentFrom, List.zipIdx_map, List.map_map]
    rfl
  rw [htrim, htrim, h]

theorem number_lt_of_mem_contentFrom {start : Nat} {raws : List (List Char)} {l : Line}
    (h : l ∈ contentFrom start raws) : l.number < start + raws.length := by
  obtain ⟨p, hp, rfl⟩ := List.mem_map.mp (List.mem_filter.mp h).1
  exact (List.mem_zipIdx hp).2.1

/-- A line that reading passes over: a blank one, or one whose first character that is no blank
is a `c`. -/
def Ignored (raw : List Char) : Prop :=
  raw.all Text.isBlank ∨ raw.find? (fun c => !Text.isBlank c) = some 'c'

instance (raw : List Char) : Decidable (Ignored raw) := inferInstanceAs (Decidable (_ ∨ _))

theorem Ignored.hasContent_eq_false {raw : List Char} (h : Ignored raw) (n : Nat) :
    Line.hasContent ⟨n, Text.trim raw⟩ = false := by
  have hhead := Text.head?_trim raw
  rw [Bool.eq_false_iff, Ne, Line.hasContent_iff]
  rintro ⟨hne, hc⟩
  rcases h with hblank | hcomment
  · have hnone : raw.find? (fun c => !Text.isBlank c) = none :=
      List.find?_eq_none.mpr fun c hmem => by simp [List.all_eq_true.mp hblank c hmem]
    rw [hnone, List.head?_eq_none_iff] at hhead
    exact hne hhead
  · exact hc (hhead.trans hcomment)

theorem contentFrom_of_ignored {raws : List (List Char)} (h : ∀ raw ∈ raws, Ignored raw)
    (start : Nat) : contentFrom start raws = [] := by
  refine List.filter_eq_nil_iff.mpr fun l hl => ?_
  obtain ⟨p, hp, rfl⟩ := List.mem_map.mp hl
  simpa using (h p.1 (List.fst_mem_of_mem_zipIdx hp)).hasContent_eq_false p.2

theorem contentFrom_empty (start : Nat) : contentFrom start [[]] = [] := rfl

theorem contentLines_eq_contentFrom (text : List Char) :
    contentLines text = contentFrom 1 (Text.lines text) := by
  have hpieces : contentLines text = contentFrom 1 (text.splitOn '\n') := rfl
  rw [hpieces]
  rcases Text.splitOn_eq_lines_or text with h | h
  · rw [h]
  · rw [h, contentFrom_append, contentFrom_empty, List.append_nil]

/-! ## Inserted lines -/

/-- Lines to be passed over that are put into a text: each line of it with those that are put
before it, and those that are put at the end. -/
structure Insertion where
  lines : List (List (List Char) × List Char)
  last : List (List Char)
  ignored : ∀ p ∈ lines, ∀ raw ∈ p.1, Ignored raw
  ignored_last : ∀ raw ∈ last, Ignored raw

namespace Insertion

def before (ins : Insertion) : List (List Char) := ins.lines.map Prod.snd

def after (ins : Insertion) : List (List Char) :=
  ins.lines.flatMap (fun p => p.1 ++ [p.2]) ++ ins.last

/-- How many lines are put in before the line of the given number. -/
def countBefore (ins : Insertion) (n : Nat) : Nat := ((ins.lines.take n).flatMap Prod.fst).length

theorem length_flatMap_append (ps : List (List (List Char) × List Char)) :
    (ps.flatMap fun p => p.1 ++ [p.2]).length = ps.length + (ps.flatMap Prod.fst).length := by
  induction ps with
  | nil => rfl
  | cons p ps ih =>
      simp only [List.flatMap_cons, List.length_append, List.length_cons, List.length_nil, ih]
      omega

/-- The lines are put in from the first to the last, so the number of a line is settled when it is
reached. -/
theorem contentFrom_flatMap {ps : List (List (List Char) × List Char)}
    (h : ∀ p ∈ ps, ∀ raw ∈ p.1, Ignored raw) :
    contentFrom 1 (ps.flatMap fun p => p.1 ++ [p.2]) = (contentFrom 1 (ps.map Prod.snd)).map
      (Line.renumber fun n => n + ((ps.take n).flatMap Prod.fst).length) := by
  induction ps using List.reverseRec with
  | nil => rfl
  | append_singleton ps p ih =>
      obtain ⟨hps, hp⟩ := List.forall_mem_append.mp h
      have hp : ∀ raw ∈ p.1, Ignored raw := hp p List.mem_cons_self
      let f : Nat → Nat := fun n => n + (((ps ++ [p]).take n).flatMap Prod.fst).length
      have hold : ∀ l ∈ contentFrom 1 (ps.map Prod.snd),
          l.renumber (fun n => n + ((ps.take n).flatMap Prod.fst).length) = l.renumber f := by
        intro l hl
        have hlt := number_lt_of_mem_contentFrom hl
        rw [List.length_map] at hlt
        have htake : (ps ++ [p]).take l.number = ps.take l.number :=
          List.take_append_of_le_length (by omega)
        simp only [Line.renumber, f, htake]
      have hnew : 1 + (ps.flatMap fun p => p.1 ++ [p.2]).length + p.1.length =
          f (1 + (ps.map Prod.snd).length) := by
        have hlength : (ps ++ [p]).length = 1 + ps.length :=
          List.length_append.trans (Nat.add_comm ps.length 1)
        have hall : (ps ++ [p]).take (1 + ps.length) = ps ++ [p] :=
          List.take_of_length_le (Nat.le_of_eq hlength)
        simp only [f, List.length_map, hall, length_flatMap_append, List.flatMap_append,
          List.flatMap_singleton, List.length_append]
        omega
      rw [List.flatMap_append, List.flatMap_singleton, contentFrom_append, contentFrom_append _ p.1,
        contentFrom_of_ignored hp, List.nil_append, ih hps, List.map_congr_left hold, hnew,
        contentFrom_singleton, List.map_append, contentFrom_append, List.map_append]
      rfl

theorem contentFrom_after (ins : Insertion) :
    contentFrom 1 ins.after = (contentFrom 1 ins.before).map
      (Line.renumber fun n => n + ins.countBefore n) := by
  rw [after, contentFrom_append, contentFrom_of_ignored ins.ignored_last, List.append_nil]
  exact contentFrom_flatMap ins.ignored

end Insertion

/-! ## Edited texts -/

section

variable {text edited : String}

theorem read_of_insertion (ins : Insertion) (hbefore : Text.lines text.toList = ins.before)
    (hafter : Text.lines edited.toList = ins.after) :
    read edited = (read text).mapError (Error.renumber fun n => n + ins.countBefore n) := by
  rw [read_eq_readContent, read_eq_readContent, contentLines_eq_contentFrom,
    contentLines_eq_contentFrom, hbefore, hafter, ins.contentFrom_after, readContent_renumber]

theorem read_of_padded
    (h : List.Forall₂ Text.Padded (Text.lines text.toList) (Text.lines edited.toList)) :
    read edited = read text := by
  have htrim : (Text.lines edited.toList).map Text.trim =
      (Text.lines text.toList).map Text.trim := by
    rw [← List.forall₂_eq_eq_eq, List.forall₂_map_left_iff, List.forall₂_map_right_iff]
    exact h.flip.imp fun _ _ => Text.Padded.trim_eq
  rw [read_eq_readContent, read_eq_readContent, contentLines_eq_contentFrom,
    contentLines_eq_contentFrom, contentFrom_congr htrim]

theorem read_withReturns (text : String) :
    read (String.ofList (Text.withReturns text.toList)) = read text := by
  rw [read_eq_readContent, read_eq_readContent, String.toList_ofList]
  exact congrArg readContent (contentFrom_congr (Text.map_trim_splitOn_withReturns text.toList) 1)

theorem read_append_newline (text : String) : read (text ++ "\n") = read text := by
  have hpieces : (text ++ "\n").toList.splitOn '\n' = text.toList.splitOn '\n' ++ [[]] := by
    rw [String.toList_append]
    exact List.splitOnP_append_cons text.toList [] (by decide)
  have hcontent : contentLines (text ++ "\n").toList = contentLines text.toList := by
    show contentFrom 1 _ = contentFrom 1 _
    rw [hpieces, contentFrom_append, contentFrom_empty, List.append_nil]
  rw [read_eq_readContent, read_eq_readContent, hcontent]

/-- Once all declared clauses are read, the lines that follow are not. -/
theorem read_of_append {more : List (List Char)} {cs : ClauseSet Nat}
    (hlines : Text.lines edited.toList = Text.lines text.toList ++ more) (h : read text = .ok cs) :
    read edited = .ok cs := by
  obtain ⟨header, lines, max, hcontent, hheader, hmap⟩ := read_eq_ok_iff.mp h
  have henough : cs.length ≤ lines.length := by
    have hlength := congrArg List.length hmap
    simp only [List.length_map, List.length_take] at hlength
    omega
  refine read_eq_ok_iff.mpr
    ⟨header, lines ++ contentFrom (1 + (Text.lines text.toList).length) more, max, ?_, hheader, ?_⟩
  · rw [contentLines_eq_contentFrom, hlines, contentFrom_append, ← contentLines_eq_contentFrom,
      hcontent, List.cons_append]
  · rw [List.take_append_of_le_length henough, hmap]

end

/-- Blank lines and comments put anywhere into a text leave the clause set read as it is, and a
fault too but for the line it blames, which moves by the number of lines put in before it. Carriage
returns before the newlines, blanks around lines and a newline at the end change nothing. Neither do
further lines after a text that describes a clause set. -/
theorem read_ignores_layout (text : String) :
    (∀ (ins : Insertion) (edited : String), Text.lines text.toList = ins.before →
      Text.lines edited.toList = ins.after →
        read edited = (read text).mapError (Error.renumber fun n => n + ins.countBefore n)) ∧
    read (String.ofList (Text.withReturns text.toList)) = read text ∧
    (∀ edited : String,
      List.Forall₂ Text.Padded (Text.lines text.toList) (Text.lines edited.toList) →
        read edited = read text) ∧
    read (text ++ "\n") = read text ∧
    ∀ (edited : String) (more : List (List Char)) (cs : ClauseSet Nat),
      Text.lines edited.toList = Text.lines text.toList ++ more →
        read text = .ok cs → read edited = .ok cs :=
  ⟨fun ins _ => read_of_insertion ins, read_withReturns text, fun _ => read_of_padded,
    read_append_newline text, fun _ _ _ => read_of_append⟩

theorem read_ignores_layout_of_edits :
    read "p cnf 1 1\nx\n" = .error (.invalidLiteral 2 "x") ∧
      read "c 1\np cnf 1 1\n\n\tc\nx\nc" = .error (.invalidLiteral 5 "x") ∧
      read "\tp cnf 1 1\nx \r" = .error (.invalidLiteral 2 "x") ∧
      read "p cnf 1 1\n-1 0 x\nx" = .ok [[⟨1, false⟩]] := by
  have hfault : read "p cnf 1 1\nx\n" = .error (.invalidLiteral 2 "x") := by rfl
  refine ⟨hfault, ?_, ?_, ?_⟩
  · exact (read_ignores_layout "p cnf 1 1\nx\n").1
      ⟨[(["c 1".toList], "p cnf 1 1".toList), ([[], "\tc".toList], "x".toList)], ["c".toList],
        by decide, by decide⟩ _ (by rfl) (by rfl)
  · have hpadded : List.Forall₂ Text.Padded ["p cnf 1 1".toList, "x".toList]
        ["\tp cnf 1 1".toList, "x \r".toList] :=
      .cons ⟨['\t'], [], by decide, by decide, rfl⟩
        (.cons ⟨[], [' ', '\r'], by decide, by decide, rfl⟩ .nil)
    exact ((read_ignores_layout "p cnf 1 1\nx\n").2.2.1 "\tp cnf 1 1\nx \r" hpadded).trans hfault
  · exact (read_ignores_layout "p cnf 1 1\n-1 0 x").2.2.2.2 _ ["x".toList] _ (by rfl) (by rfl)

end PropSat.Dimacs
