import PropSat.Proofs.Dimacs.RoundTrip

/-!
# The grammar of DIMACS text

Which texts describe a clause set, and what is wrong with the others. Both are said of the lines
that count and of their words, without running the reader. The reader goes through the words of a
line, and through the lines, as a traversal that ends at the first refusal, so it accepts the texts
of the grammar and blames the first fault of every other.
-/

namespace PropSat.Dimacs

/-! ## Content of a text -/

/-- The lines that are neither blank nor comments, without the blanks around them. Each keeps the
number it has among all lines of the text. -/
structure ContentOf (text : String) (ls : List Line) : Prop where
  ascending : ls.Pairwise (·.number < ·.number)
  mem_iff : ∀ l, l ∈ ls ↔ 1 ≤ l.number ∧
    (∃ raw, (text.toList.splitOn '\n')[l.number - 1]? = some raw ∧ l.text = Text.trim raw) ∧
      l.text ≠ [] ∧ l.text.head? ≠ some 'c'

theorem Line.hasContent_iff {l : Line} :
    l.hasContent = true ↔ l.text ≠ [] ∧ l.text.head? ≠ some 'c' := by
  unfold hasContent
  split
  · next h => simp [h]
  · next h => simp [h]

theorem contentOf_contentLines (text : String) : ContentOf text (contentLines text.toList) := by
  refine ⟨List.Pairwise.filter _ (List.pairwise_map.mpr ?_), fun l => ?_⟩
  · have hnumbers : (((text.toList.splitOn '\n').zipIdx 1).map Prod.snd).Pairwise (· < ·) := by
      rw [List.zipIdx_map_snd]
      exact List.pairwise_lt_range'
    exact List.pairwise_map.mp hnumbers
  · simp only [contentLines, List.mem_filter, List.mem_map, Prod.exists, Line.hasContent_iff,
      List.mk_mem_zipIdx_iff_le_and_getElem?_sub]
    constructor
    · rintro ⟨⟨raw, n, ⟨hn, hraw⟩, rfl⟩, hcontent⟩
      exact ⟨hn, ⟨raw, hraw, rfl⟩, hcontent⟩
    · rintro ⟨hn, ⟨raw, hraw, htext⟩, hcontent⟩
      exact ⟨⟨raw, l.number, ⟨hn, hraw⟩, by rw [← htext]⟩, hcontent⟩

/-- A text has one content: ascending lists with the same lines are equal. -/
theorem contentOf_iff {text : String} {ls : List Line} :
    ContentOf text ls ↔ contentLines text.toList = ls := by
  constructor
  · intro h
    have hlines := contentOf_contentLines text
    have hperm : (contentLines text.toList).Perm ls :=
      (List.perm_ext_iff_of_nodup (hlines.ascending.imp fun hlt heq => by simp [heq] at hlt)
        (h.ascending.imp fun hlt heq => by simp [heq] at hlt)).mpr
        fun l => (hlines.mem_iff l).trans (h.mem_iff l).symm
    exact hperm.eq_of_pairwise (fun a b _ _ hab hba => absurd hab (Nat.lt_asymm hba))
      hlines.ascending h.ascending
  · rintro rfl
    exact contentOf_contentLines text

/-! ## Meaning of the lines -/

/-- The line reads `p cnf` and the two numbers. -/
def Line.Declares (l : Line) (max count : Nat) : Prop :=
  ∃ atoms clauses, Text.words l.text = [['p'], ['c', 'n', 'f'], atoms, clauses] ∧
    Text.natural64? atoms = some max ∧ Text.natural64? clauses = some count

/-- The words of a clause line that stand for literals: those before the first of value zero. -/
def Line.literalWords (l : Line) : List (List Char) :=
  (Text.words l.text).takeWhile fun w => Text.integer32? w ≠ some 0

/-- The word is a 32-bit integer of absolute value at most `max`. -/
def Fits (max : Nat) (w : List Char) : Prop := ∃ n, Text.integer32? w = some n ∧ n.natAbs ≤ max

/-- The word is the signed number of a literal over a variable from 1 to `max`. -/
def Denotes (max : Nat) (w : List Char) (l : Literal Nat) : Prop :=
  Text.integer32? w = some l.signed ∧ 1 ≤ l.atom ∧ l.atom ≤ max

/-- The words of the line stand for the literals of the clause, in order. -/
def Line.Holds (max : Nat) (l : Line) (c : Clause Nat) : Prop :=
  List.Forall₂ (Denotes max) l.literalWords c

/-- The problem line declares the number of clauses, and as many lines after it hold them. -/
def Describes (text : String) (cs : ClauseSet Nat) : Prop :=
  ∃ header lines max, ContentOf text (header :: lines) ∧ header.Declares max cs.length ∧
    List.Forall₂ (Line.Holds max) (lines.take cs.length) cs

/-! ## Faults -/

/-- The first element that is not good has the fault. -/
def FirstOf {β : Type} (good : β → Prop) (fault : β → Error → Prop) (xs : List β) (e : Error) :
    Prop :=
  ∃ before x after, xs = before ++ x :: after ∧ (∀ y ∈ before, good y) ∧ fault x e

/-- Why a word of a line stands for no literal. -/
inductive WordFault (line max : Nat) (w : List Char) : Error → Prop
  | notInteger (h : Text.integer32? w = none) :
      WordFault line max w (.invalidLiteral line (String.ofList w))
  | outOfRange {n : Int} (h : Text.integer32? w = some n) (hmax : max < n.natAbs) :
      WordFault line max w (.variableOutOfRange line n.natAbs max)

def LineFault (max : Nat) (l : Line) : Error → Prop :=
  FirstOf (Fits max) (WordFault l.number max) l.literalWords

/-- The first fault of a text, from its first line to its last and from left to right. -/
inductive FirstFault (text : String) : Error → Prop
  | missingHeader (h : ContentOf text []) : FirstFault text .missingHeader
  | clauseBeforeHeader {header : Line} {lines : List Line} (h : ContentOf text (header :: lines))
      (hp : header.text.head? ≠ some 'p') : FirstFault text (.clauseBeforeHeader header.number)
  | malformedHeader {header : Line} {lines : List Line} (h : ContentOf text (header :: lines))
      (hp : header.text.head? = some 'p') (hd : ∀ max count, ¬ header.Declares max count) :
      FirstFault text (.malformedHeader header.number)
  | badLine {header : Line} {lines : List Line} {max count : Nat} {e : Error}
      (h : ContentOf text (header :: lines)) (hd : header.Declares max count)
      (hl : FirstOf (fun l => ∀ w ∈ l.literalWords, Fits max w) (LineFault max)
        (lines.take count) e) : FirstFault text e
  | missingClauses {header : Line} {lines : List Line} {max count : Nat}
      (h : ContentOf text (header :: lines)) (hd : header.Declares max count)
      (hl : ∀ l ∈ lines, ∀ w ∈ l.literalWords, Fits max w) (hcount : lines.length < count) :
      FirstFault text (.missingClauses count lines.length)

/-! ## The problem line -/

theorem declares_of_readHeader {l : Line} {max count : Nat} (h : readHeader l = .ok (max, count)) :
    l.Declares max count := by
  unfold readHeader at h
  split at h
  · contradiction
  · split at h
    · next atoms clauses hwords =>
        split at h
        · next hatoms hclauses =>
            cases h
            exact ⟨atoms, clauses, hwords, hatoms, hclauses⟩
        · contradiction
    · contradiction

theorem readHeader_of_declares {l : Line} {max count : Nat}
    (hblank : ∀ c ∈ l.text.head?, Text.isBlank c = false) (h : l.Declares max count) :
    readHeader l = .ok (max, count) := by
  obtain ⟨atoms, clauses, hwords, hatoms, hclauses⟩ := h
  have hp : l.text.head? = some 'p' := Text.head?_of_words hwords hblank
  rw [readHeader, if_neg (by simpa using hp), hwords]
  simp only [hatoms, hclauses]

theorem readHeader_eq_error_iff {l : Line} {e : Error}
    (hblank : ∀ c ∈ l.text.head?, Text.isBlank c = false) :
    readHeader l = .error e ↔
      (l.text.head? ≠ some 'p' ∧ e = .clauseBeforeHeader l.number) ∨
        (l.text.head? = some 'p' ∧ (∀ max count, ¬ l.Declares max count) ∧
          e = .malformedHeader l.number) := by
  by_cases hp : l.text.head? = some 'p'
  · have hcases : readHeader l = .error (.malformedHeader l.number) ∨
        ∃ max count, readHeader l = .ok (max, count) := by
      unfold readHeader
      rw [if_neg (by simpa using hp)]
      split
      · split
        · exact .inr ⟨_, _, rfl⟩
        · exact .inl rfl
      · exact .inl rfl
    rcases hcases with hmalformed | ⟨max, count, hok⟩
    · have hnone : ∀ max count, ¬ l.Declares max count := fun max count hd => by
        rw [readHeader_of_declares hblank hd] at hmalformed
        contradiction
      simp [hmalformed, hp, hnone, eq_comm]
    · have hd : l.Declares max count := declares_of_readHeader hok
      constructor
      · intro h
        rw [hok] at h
        contradiction
      · rintro (⟨hnp, -⟩ | ⟨-, hnone, -⟩)
        · contradiction
        · exact absurd hd (hnone max count)
  · have hread : readHeader l = .error (.clauseBeforeHeader l.number) := if_pos hp
    simp [hread, hp, eq_comm]

/-! ## Clause lines -/

def readWord (line max : Nat) (w : List Char) : Except Error (Literal Nat) :=
  match Text.integer32? w with
  | none => .error (.invalidLiteral line (String.ofList w))
  | some n =>
      if max < n.natAbs then .error (.variableOutOfRange line n.natAbs max)
      else .ok ⟨n.natAbs, 0 < n⟩

theorem readLiterals_eq_mapM (line max : Nat) (ws : List (List Char)) :
    readLiterals line max ws =
      (ws.takeWhile fun w => Text.integer32? w ≠ some 0).mapM (readWord line max) := by
  induction ws with
  | nil => rfl
  | cons w ws ih =>
      unfold readLiterals
      cases hw : Text.integer32? w with
      | none =>
          have hread : readWord line max w = .error (.invalidLiteral line (String.ofList w)) := by
            rw [readWord, hw]
          rw [List.takeWhile_cons_of_pos (by simp [hw]), List.mapM_cons, hread]
          rfl
      | some n =>
          by_cases hn : n = 0
          · have hzero : Literal.ofInt? n = none := Literal.ofInt?_eq_none_iff.mpr hn
            rw [List.takeWhile_cons_of_neg (by simp [hw, hn])]
            simp only [hzero]
            rfl
          · have hlit : Literal.ofInt? n = some ⟨n.natAbs, 0 < n⟩ := if_neg hn
            rw [List.takeWhile_cons_of_pos (by simp [hw, hn]), List.mapM_cons, ← ih]
            simp only [hlit, readWord, hw]
            split
            · rfl
            · cases readLiterals line max ws <;> rfl

theorem readWord_eq_error_iff {line max : Nat} {w : List Char} {e : Error} :
    readWord line max w = .error e ↔ WordFault line max w e := by
  constructor
  · intro h
    unfold readWord at h
    split at h
    · next hw =>
        cases h
        exact .notInteger hw
    · next n hw =>
        split at h
        · next hmax =>
            cases h
            exact .outOfRange hw hmax
        · contradiction
  · intro h
    cases h with
    | notInteger hw => rw [readWord, hw]
    | outOfRange hw hmax =>
        rw [readWord, hw]
        exact if_pos hmax

theorem exists_readWord_eq_ok_iff {line max : Nat} {w : List Char} :
    (∃ l, readWord line max w = .ok l) ↔ Fits max w := by
  unfold readWord Fits
  cases Text.integer32? w with
  | none => simp
  | some n =>
      by_cases hmax : max < n.natAbs
      · simp [hmax]
      · simpa [hmax] using Nat.le_of_not_lt hmax

theorem readWord_eq_ok_iff {line max : Nat} {w : List Char} {l : Literal Nat}
    (hne : Text.integer32? w ≠ some 0) : readWord line max w = .ok l ↔ Denotes max w l := by
  constructor
  · intro h
    unfold readWord at h
    split at h
    · contradiction
    · next n hw =>
        split at h
        · contradiction
        · next hmax =>
            cases h
            have hn : n ≠ 0 := fun heq => hne (heq ▸ hw)
            have hlit : Literal.ofInt? n = some ⟨n.natAbs, 0 < n⟩ := if_neg hn
            rw [← Literal.signed_of_ofInt? hlit] at hw
            exact ⟨hw, Int.natAbs_pos.mpr hn, Nat.le_of_not_lt hmax⟩
  · rintro ⟨hw, hpos, hmax⟩
    have hsigned : l.signed ≠ 0 := fun heq => hne (heq ▸ hw)
    have hlit : Literal.ofInt? l.signed = some l := Literal.ofInt?_signed (Nat.ne_of_gt hpos)
    rw [Literal.ofInt?, if_neg hsigned, Option.some.injEq] at hlit
    rw [readWord, hw]
    simp only [l.natAbs_signed, Nat.not_lt.mpr hmax, if_false]
    rw [← l.natAbs_signed, hlit]

theorem readClause_eq_mapM (max : Nat) (l : Line) :
    readClause max l = l.literalWords.mapM (readWord l.number max) :=
  readLiterals_eq_mapM l.number max (Text.words l.text)

theorem readClause_eq_ok_iff {max : Nat} {l : Line} {c : Clause Nat} :
    readClause max l = .ok c ↔ l.Holds max c := by
  have hword : ∀ w k, (w, k) ∈ l.literalWords.zip c →
      (readWord l.number max w = .ok k ↔ Denotes max w k) := by
    intro w k hmem
    have hw : w ∈ l.literalWords := (List.of_mem_zip hmem).1
    exact readWord_eq_ok_iff (by simpa using List.all_eq_true.mp List.all_takeWhile w hw)
  rw [readClause_eq_mapM, mapM_eq_ok_iff_forall₂, Line.Holds, List.forall₂_iff_zip,
    List.forall₂_iff_zip]
  refine and_congr_right fun _ => ⟨fun h w k hmem => ?_, fun h w k hmem => ?_⟩
  · exact (hword w k hmem).mp (h hmem)
  · exact (hword w k hmem).mpr (h hmem)

theorem exists_readClause_eq_ok_iff {max : Nat} {l : Line} :
    (∃ c, readClause max l = .ok c) ↔ ∀ w ∈ l.literalWords, Fits max w := by
  rw [readClause_eq_mapM, exists_mapM_eq_ok_iff]
  simp only [exists_readWord_eq_ok_iff]

theorem readClause_eq_error_iff {max : Nat} {l : Line} {e : Error} :
    readClause max l = .error e ↔ LineFault max l e := by
  rw [readClause_eq_mapM, mapM_eq_error_iff]
  simp only [exists_readWord_eq_ok_iff, readWord_eq_error_iff]
  rfl

/-! ## Accepted texts -/

theorem ContentOf.not_isBlank {text : String} {ls : List Line} (h : ContentOf text ls) {l : Line}
    (hl : l ∈ ls) : ∀ c ∈ l.text.head?, Text.isBlank c = false := by
  obtain ⟨-, ⟨raw, -, htext⟩, -⟩ := (h.mem_iff l).mp hl
  rw [htext]
  exact fun c hc => Text.not_isBlank_of_mem_head?_trim hc

theorem read_of_contentOf {text : String} {header : Line} {lines : List Line}
    (h : ContentOf text (header :: lines)) :
    read text = (do
      let (max, count) ← readHeader header
      let cs ← (lines.take count).mapM (readClause max)
      if cs.length < count then .error (.missingClauses count cs.length) else .ok cs) := by
  rw [read, contentOf_iff.mp h]

theorem read_of_declares {text : String} {header : Line} {lines : List Line} {max count : Nat}
    (h : ContentOf text (header :: lines)) (hd : header.Declares max count) :
    read text = (do
      let cs ← (lines.take count).mapM (readClause max)
      if cs.length < count then .error (.missingClauses count cs.length) else .ok cs) := by
  rw [read_of_contentOf h, readHeader_of_declares (h.not_isBlank List.mem_cons_self) hd]
  rfl

theorem read_eq_ok_iff_describes {text : String} {cs : ClauseSet Nat} :
    read text = .ok cs ↔ Describes text cs := by
  have hlines : ∀ max (ls : List Line), ls.map (readClause max) = cs.map .ok ↔
      List.Forall₂ (Line.Holds max) ls cs := by
    intro max ls
    rw [← mapM_eq_ok_iff, mapM_eq_ok_iff_forall₂]
    simp only [readClause_eq_ok_iff]
  rw [read_eq_ok_iff]
  constructor
  · rintro ⟨header, lines, max, hcontent, hheader, hmap⟩
    exact ⟨header, lines, max, contentOf_iff.mpr hcontent, declares_of_readHeader hheader,
      (hlines max _).mp hmap⟩
  · rintro ⟨header, lines, max, hcontent, hdeclares, hholds⟩
    have hblank := hcontent.not_isBlank List.mem_cons_self
    exact ⟨header, lines, max, contentOf_iff.mp hcontent, readHeader_of_declares hblank hdeclares,
      (hlines max _).mpr hholds⟩

theorem forall_mem_of_forall₂ {β γ : Type} {r : β → γ → Prop} {p : γ → Prop} {xs : List β}
    {ys : List γ} (h : List.Forall₂ r xs ys) (hp : ∀ x y, r x y → p y) : ∀ y ∈ ys, p y := by
  have hboth : List.Forall₂ (fun y x => p y ∧ r x y) ys xs :=
    List.Forall₂.flip (h.imp fun x y hr => ⟨hp x y hr, hr⟩)
  exact ((List.forall₂_and_left _ _).mp hboth).1

theorem one_le_of_read {text : String} {cs : ClauseSet Nat} (h : read text = .ok cs) :
    ∀ c ∈ cs, ∀ l ∈ c, 1 ≤ l.atom := by
  obtain ⟨_, _, _, -, -, hlines⟩ := read_eq_ok_iff_describes.mp h
  exact forall_mem_of_forall₂ hlines fun _ _ hholds =>
    forall_mem_of_forall₂ hholds fun _ _ hdenotes => hdenotes.2.1

/-! ## Refused texts -/

theorem mapM_readClause_eq_error_iff {max : Nat} {ls : List Line} {e : Error} :
    ls.mapM (readClause max) = .error e ↔
      FirstOf (fun l => ∀ w ∈ l.literalWords, Fits max w) (LineFault max) ls e := by
  rw [mapM_eq_error_iff]
  simp only [exists_readClause_eq_ok_iff, readClause_eq_error_iff]
  rfl

theorem exists_mapM_readClause_eq_ok_iff {max : Nat} {ls : List Line} :
    (∃ cs, ls.mapM (readClause max) = .ok cs) ↔ ∀ l ∈ ls, ∀ w ∈ l.literalWords, Fits max w := by
  rw [exists_mapM_eq_ok_iff]
  simp only [exists_readClause_eq_ok_iff]

/-- After a good problem line, the clause lines are to blame or there are too few of them. -/
theorem read_eq_error_iff_of_declares {text : String} {header : Line} {lines : List Line}
    {max count : Nat} {e : Error} (h : ContentOf text (header :: lines))
    (hd : header.Declares max count) :
    read text = .error e ↔
      FirstOf (fun l => ∀ w ∈ l.literalWords, Fits max w) (LineFault max) (lines.take count) e ∨
        ((∀ l ∈ lines, ∀ w ∈ l.literalWords, Fits max w) ∧ lines.length < count ∧
          e = .missingClauses count lines.length) := by
  rw [read_of_declares h hd, ← mapM_readClause_eq_error_iff, ← exists_mapM_readClause_eq_ok_iff]
  cases hread : (lines.take count).mapM (readClause max) with
  | error d =>
      refine ⟨.inl, ?_⟩
      rintro (herror | ⟨⟨cs, hall⟩, hfew, -⟩)
      · exact herror
      · rw [List.take_of_length_le (Nat.le_of_lt hfew), hall] at hread
        contradiction
  | ok cs =>
      have hlength := congrArg List.length (mapM_eq_ok_iff.mp hread)
      simp only [List.length_map, List.length_take] at hlength
      by_cases hfew : lines.length < count
      · rw [List.take_of_length_le (Nat.le_of_lt hfew)] at hread
        have hcs : cs.length = lines.length := by omega
        simp [bind, Except.bind, hcs, hfew, hread, eq_comm]
      · have hcs : ¬ cs.length < count := by omega
        simp [bind, Except.bind, hcs, hfew]

theorem read_eq_error_iff_firstFault {text : String} {e : Error} :
    read text = .error e ↔ FirstFault text e := by
  constructor
  · intro h
    have hcontent := contentOf_contentLines text
    cases hls : contentLines text.toList with
    | nil =>
        rw [hls] at hcontent
        rw [read, hls] at h
        cases h
        exact .missingHeader hcontent
    | cons header lines =>
        rw [hls] at hcontent
        cases hheader : readHeader header with
        | error d =>
            rw [read_of_contentOf hcontent, hheader] at h
            cases h
            have hblank := hcontent.not_isBlank List.mem_cons_self
            rcases (readHeader_eq_error_iff hblank).mp hheader with ⟨hp, rfl⟩ | ⟨hp, hnone, rfl⟩
            · exact .clauseBeforeHeader hcontent hp
            · exact .malformedHeader hcontent hp hnone
        | ok declared =>
            have hd : header.Declares declared.1 declared.2 := declares_of_readHeader hheader
            rcases (read_eq_error_iff_of_declares hcontent hd).mp h with hl | ⟨hl, hfew, rfl⟩
            · exact .badLine hcontent hd hl
            · exact .missingClauses hcontent hd hl hfew
  · intro h
    cases h with
    | missingHeader hcontent => rw [read, contentOf_iff.mp hcontent]
    | clauseBeforeHeader hcontent hp =>
        have hblank := hcontent.not_isBlank List.mem_cons_self
        rw [read_of_contentOf hcontent, (readHeader_eq_error_iff hblank).mpr (.inl ⟨hp, rfl⟩)]
        rfl
    | malformedHeader hcontent hp hnone =>
        have hblank := hcontent.not_isBlank List.mem_cons_self
        rw [read_of_contentOf hcontent,
          (readHeader_eq_error_iff hblank).mpr (.inr ⟨hp, hnone, rfl⟩)]
        rfl
    | badLine hcontent hd hl => exact (read_eq_error_iff_of_declares hcontent hd).mpr (.inl hl)
    | missingClauses hcontent hd hl hfew =>
        exact (read_eq_error_iff_of_declares hcontent hd).mpr (.inr ⟨hl, hfew, rfl⟩)

theorem exists_read_eq_ok_iff {text : String} :
    (∃ cs, read text = .ok cs) ↔ ∃ header lines max count, ContentOf text (header :: lines) ∧
      header.Declares max count ∧ count ≤ lines.length ∧
        ∀ l ∈ lines.take count, ∀ w ∈ l.literalWords, Fits max w := by
  constructor
  · rintro ⟨cs, h⟩
    obtain ⟨header, lines, max, hcontent, hd, hholds⟩ := read_eq_ok_iff_describes.mp h
    have hlength := hholds.length_eq
    rw [List.length_take] at hlength
    refine ⟨header, lines, max, cs.length, hcontent, hd, by omega, ?_⟩
    refine exists_mapM_readClause_eq_ok_iff.mp ⟨cs, mapM_eq_ok_iff_forall₂.mpr ?_⟩
    simpa only [readClause_eq_ok_iff] using hholds
  · rintro ⟨header, lines, max, count, hcontent, hd, hcount, hfits⟩
    obtain ⟨cs, hread⟩ := exists_mapM_readClause_eq_ok_iff.mpr hfits
    have hlength := congrArg List.length (mapM_eq_ok_iff.mp hread)
    simp only [List.length_map, List.length_take] at hlength
    have hcs : ¬ cs.length < count := by omega
    refine ⟨cs, ?_⟩
    rw [read_of_declares hcontent hd, hread]
    exact if_neg hcs

/-- A text is accepted exactly when its problem line declares two numbers, as many lines follow as
it declares clauses, and on these every word before a zero is a 32-bit integer in the declared
range. The clauses are then these words, line by line. Any other text is refused for its first
fault. -/
theorem read_accepts_grammar_and_blames_first_fault (text : String) :
    ((∃ cs, read text = .ok cs) ↔ ∃ header lines max count, ContentOf text (header :: lines) ∧
      header.Declares max count ∧ count ≤ lines.length ∧
        ∀ l ∈ lines.take count, ∀ w ∈ l.literalWords, Fits max w) ∧
    (∀ cs, read text = .ok cs ↔ ∃ header lines max, ContentOf text (header :: lines) ∧
      header.Declares max cs.length ∧ List.Forall₂ (Line.Holds max) (lines.take cs.length) cs) ∧
    ∀ e, read text = .error e ↔ FirstFault text e :=
  ⟨exists_read_eq_ok_iff, fun _ => read_eq_ok_iff_describes, fun _ => read_eq_error_iff_firstFault⟩

example : read "c\n p cnf 2 2\n\n1 2 0\n1 b 9\n" = .error (.invalidLiteral 5 "b") := by rfl

end PropSat.Dimacs
