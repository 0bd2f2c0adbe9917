import PropSat.Dimacs.Reader
import PropSat.Dimacs.Writer
import PropSat.Proofs.Except
import PropSat.Proofs.Text.Numeral

/-!
# Reading back what is written

A written text is laid out in words: the problem line, then a line for each clause with the signed
numbers of its literals and a zero. Reading it cuts it into these words again, and each word gives
the number that it was written for.
-/

namespace PropSat

/-! ## Literals as 32-bit numbers -/

namespace Literal

theorem natAbs_signed (l : Literal Nat) : l.signed.natAbs = l.atom := by
  unfold signed
  split
  · exact Int.natAbs_natCast l.atom
  · rw [Int.natAbs_neg, Int.natAbs_natCast]

/-- The variable is a positive number of at most 31 bits. -/
def Writable (l : Literal Nat) : Prop := 1 ≤ l.atom ∧ l.atom ≤ 2147483647

theorem Writable.bounds_signed {l : Literal Nat} (h : l.Writable) :
    -2147483648 ≤ l.signed ∧ l.signed ≤ 2147483647 := by
  obtain ⟨-, hmax⟩ := h
  have := l.natAbs_signed
  omega

theorem Writable.toInt32_eq {l : Literal Nat} (h : l.Writable) : l.toInt32 = l.signed := by
  have hb := h.bounds_signed
  exact Int.bmod_eq_of_le (by simp [UInt32.size]; omega) (by simp [UInt32.size]; omega)

theorem Writable.integer32?_toString {l : Literal Nat} (h : l.Writable) :
    Text.integer32? (toString l).toList = some l.signed := by
  have htext : toString l = toString l.signed := congrArg toString h.toInt32_eq
  rw [htext]
  exact Text.integer32?_toString h.bounds_signed.1 h.bounds_signed.2

theorem ofInt?_eq_none_iff {n : Int} : ofInt? n = none ↔ n = 0 := by
  simp [ofInt?]

end Literal

theorem ClauseSet.maxVariable_le {cs : ClauseSet Nat} {n : Nat}
    (h : ∀ c ∈ cs, ∀ l ∈ c, l.atom ≤ n) : cs.maxVariable ≤ n := by
  have bound : ∀ (ns : List Nat) (m : Nat), m ≤ n → (∀ k ∈ ns, k ≤ n) → ns.foldl max m ≤ n := by
    intro ns
    induction ns with
    | nil => exact fun m hm _ => hm
    | cons k ns ih =>
        intro m hm hns
        obtain ⟨hk, hns⟩ := List.forall_mem_cons.mp hns
        exact ih (max m k) (Nat.max_le.mpr ⟨hm, hk⟩) hns
  refine bound _ 0 (Nat.zero_le n) (List.forall_mem_map.mpr fun l hl => ?_)
  obtain ⟨c, hc, hlc⟩ := List.mem_flatten.mp hl
  exact h c hc l hlc

namespace Dimacs

/-! ## Words of a written text -/

def headerWords (cs : ClauseSet Nat) : List (List Char) :=
  [['p'], ['c', 'n', 'f'], Nat.toDigits 10 cs.maxVariable, Nat.toDigits 10 cs.length]

def clauseWords (c : Clause Nat) : List (List Char) :=
  c.map (fun l => (toString l).toList) ++ [['0']]

def clauseLines (cs : ClauseSet Nat) : List Line :=
  (cs.zipIdx 2).map fun p => ⟨p.2, Text.unwords (clauseWords p.1)⟩

def lineWords (cs : ClauseSet Nat) : List (List (List Char)) := headerWords cs :: cs.map clauseWords

theorem toList_writeClause (c : Clause Nat) :
    (writeClause c).toList = Text.unwords (clauseWords c) ++ ['\n'] := by
  rw [clauseWords, Text.unwords_append_singleton, writeClause, String.toList_append,
    String.toList_join, List.flatMap_map, List.flatMap_map, List.append_assoc]
  simp only [String.toList_append]
  rfl

theorem toList_header (cs : ClauseSet Nat) :
    (s!"p cnf {cs.maxVariable} {cs.length}\n").toList =
      Text.unwords (headerWords cs) ++ ['\n'] := by
  rw [headerWords]
  simp only [Text.unwords_cons_cons, Text.unwords_singleton, String.toList_append, toString,
    Nat.toList_repr]
  simp

theorem toList_write (cs : ClauseSet Nat) :
    (write cs).toList = Text.unlines ((lineWords cs).map Text.unwords) := by
  rw [write, String.toList_append, toList_header, String.toList_join, Text.unlines, lineWords,
    List.map_cons, List.flatMap_cons, List.map_map, List.flatMap_map, List.flatMap_map]
  simp only [toList_writeClause, Function.comp_apply]

theorem isWord_of_mem_lineWords {cs : ClauseSet Nat} {ws : List (List Char)}
    (h : ws ∈ lineWords cs) : ∀ w ∈ ws, Text.IsWord w := by
  rcases List.mem_cons.mp h with rfl | hclause
  · intro w hw
    simp only [headerWords, List.mem_cons, List.not_mem_nil, or_false] at hw
    rcases hw with rfl | rfl | rfl | rfl
    · decide
    · decide
    · exact Text.isWord_toDigits _
    · exact Text.isWord_toDigits _
  · obtain ⟨c, -, rfl⟩ := List.mem_map.mp hclause
    intro w hw
    rcases List.mem_append.mp hw with hlit | hzero
    · obtain ⟨l, -, rfl⟩ := List.mem_map.mp hlit
      exact Text.isWord_toString _
    · rw [List.mem_singleton.mp hzero]
      decide

/-! ## Lines of a written text -/

theorem contentLines_unlines {ls : List (List (List Char))}
    (hword : ∀ ws ∈ ls, ∀ w ∈ ws, Text.IsWord w)
    (hcontent : ∀ ws ∈ ls, ∀ n, Line.hasContent ⟨n, Text.unwords ws⟩ = true) :
    contentLines (Text.unlines (ls.map Text.unwords)) =
      (ls.zipIdx 1).map fun p => ⟨p.2, Text.unwords p.1⟩ := by
  have hnewline : ∀ l ∈ ls.map Text.unwords, '\n' ∉ l :=
    List.forall_mem_map.mpr fun ws hws => Text.newline_not_mem_unwords (hword ws hws)
  have htrim : ((ls.map Text.unwords).zipIdx 1).map (fun p => (⟨p.2, Text.trim p.1⟩ : Line)) =
      (ls.zipIdx 1).map fun p => ⟨p.2, Text.unwords p.1⟩ := by
    rw [List.zipIdx_map, List.map_map]
    refine List.map_congr_left fun p hp => ?_
    have hmem : p.1 ∈ ls := List.fst_mem_of_mem_zipIdx hp
    exact congrArg (Line.mk p.2) (Text.trim_unwords (hword p.1 hmem))
  rw [contentLines, Text.splitOn_unlines hnewline, List.zipIdx_append, List.map_append, htrim,
    List.filter_append, List.filter_eq_self.mpr]
  · -- what follows the last newline is blank
    exact List.append_nil _
  · intro l hl
    obtain ⟨p, hp, rfl⟩ := List.mem_map.mp hl
    exact hcontent p.1 (List.fst_mem_of_mem_zipIdx hp) p.2

theorem hasContent_unwords {w : List Char} {ws : List (List Char)} (hne : w ≠ [])
    (hc : 'c' ∉ w) (n : Nat) : Line.hasContent ⟨n, Text.unwords (w :: ws)⟩ = true := by
  have hhead : (Text.unwords (w :: ws)).head? = w.head? := Text.head?_unwords hne
  cases w with
  | nil => contradiction
  | cons d ds =>
      obtain ⟨rest, hrest⟩ := List.head?_eq_some_iff.mp hhead
      rw [hrest]
      have hd : d ≠ 'c' := fun h => hc (h ▸ List.mem_cons_self)
      exact decide_eq_true hd

theorem hasContent_of_mem_lineWords {cs : ClauseSet Nat} {ws : List (List Char)}
    (h : ws ∈ lineWords cs) (n : Nat) : Line.hasContent ⟨n, Text.unwords ws⟩ = true := by
  rcases List.mem_cons.mp h with rfl | hclause
  · exact hasContent_unwords (by decide) (by decide) n
  · obtain ⟨c, -, rfl⟩ := List.mem_map.mp hclause
    cases c with
    | nil => exact hasContent_unwords (by decide) (by decide) n
    | cons l c =>
        exact hasContent_unwords (Text.isWord_toString _).ne_nil (Text.c_not_mem_toString _) n

theorem contentLines_write (cs : ClauseSet Nat) :
    contentLines (write cs).toList = ⟨1, Text.unwords (headerWords cs)⟩ :: clauseLines cs := by
  rw [toList_write, contentLines_unlines (fun ws => isWord_of_mem_lineWords)
    fun ws => hasContent_of_mem_lineWords, lineWords, List.zipIdx_cons, List.map_cons,
    List.zipIdx_map, List.map_map]
  rfl

/-! ## Reading back -/

theorem readHeader_written {cs : ClauseSet Nat} (hmax : cs.maxVariable < UInt64.size)
    (hlen : cs.length < UInt64.size) (n : Nat) :
    readHeader ⟨n, Text.unwords (headerWords cs)⟩ = .ok (cs.maxVariable, cs.length) := by
  have hline : headerWords cs ∈ lineWords cs := List.mem_cons_self
  have hwords : Text.words (Text.unwords (headerWords cs)) = headerWords cs :=
    Text.words_unwords (isWord_of_mem_lineWords hline)
  have hp : (Text.unwords (headerWords cs)).head? = some 'p' := Text.head?_unwords (by decide)
  rw [readHeader, if_neg (by simpa using hp), hwords, headerWords]
  simp only [Text.natural64?_toDigits hmax, Text.natural64?_toDigits hlen]

theorem readLiterals_written {c : Clause Nat} {max : Nat} (hw : ∀ l ∈ c, l.Writable)
    (hmax : ∀ l ∈ c, l.atom ≤ max) (n : Nat) : readLiterals n max (clauseWords c) = .ok c := by
  induction c with
  | nil => rfl
  | cons l c ih =>
      obtain ⟨hl, hc⟩ := List.forall_mem_cons.mp hw
      obtain ⟨hlmax, hcmax⟩ := List.forall_mem_cons.mp hmax
      have hwords : clauseWords (l :: c) = (toString l).toList :: clauseWords c := rfl
      have hlit : Literal.ofInt? l.signed = some l := Literal.ofInt?_signed (by have := hl.1; omega)
      rw [hwords, readLiterals, hl.integer32?_toString]
      simp only [hlit]
      rw [if_neg (by omega), ih hc hcmax]
      rfl

theorem map_readClause_clauseLines {cs : ClauseSet Nat} (hw : ∀ c ∈ cs, ∀ l ∈ c, l.Writable) :
    (clauseLines cs).map (readClause cs.maxVariable) = cs.map .ok := by
  have hline : ∀ p ∈ cs.zipIdx 2,
      readClause cs.maxVariable ⟨p.2, Text.unwords (clauseWords p.1)⟩ = .ok p.1 := by
    intro p hp
    have hc : p.1 ∈ cs := List.fst_mem_of_mem_zipIdx hp
    have hline : clauseWords p.1 ∈ lineWords cs :=
      List.mem_cons_of_mem _ (List.mem_map_of_mem hc)
    have hwords : Text.words (Text.unwords (clauseWords p.1)) = clauseWords p.1 :=
      Text.words_unwords (isWord_of_mem_lineWords hline)
    rw [readClause, hwords]
    exact readLiterals_written (hw p.1 hc) (fun l hl => ClauseSet.atom_le_maxVariable hc hl) p.2
  calc (clauseLines cs).map (readClause cs.maxVariable)
      = (cs.zipIdx 2).map (Except.ok ∘ Prod.fst) :=
        List.map_map.trans (List.map_congr_left hline)
    _ = ((cs.zipIdx 2).map Prod.fst).map .ok := List.map_map.symm
    _ = cs.map .ok := by rw [List.zipIdx_map_fst]

theorem read_eq_ok_iff {text : String} {cs : ClauseSet Nat} :
    read text = .ok cs ↔ ∃ header lines max, contentLines text.toList = header :: lines ∧
      readHeader header = .ok (max, cs.length) ∧
      (lines.take cs.length).map (readClause max) = cs.map .ok := by
  constructor
  · intro h
    unfold read at h
    split at h
    · contradiction
    · next header lines hlines =>
        obtain ⟨⟨max, count⟩, hheader, hrest⟩ := exists_of_bind_eq_ok h
        obtain ⟨ds, hds, hcount⟩ := exists_of_bind_eq_ok hrest
        split at hcount
        · contradiction
        · cases hcount
          have hmap := mapM_eq_ok_iff.mp hds
          have hlength := congrArg List.length hmap
          simp only [List.length_map, List.length_take] at hlength
          have hall : count = cs.length := by omega
          subst hall
          exact ⟨header, lines, max, hlines, hheader, hmap⟩
  · rintro ⟨header, lines, max, hlines, hheader, hmap⟩
    have hread := mapM_eq_ok_iff.mpr hmap
    rw [read, hlines]
    simp only [hheader, bind, Except.bind, hread]
    exact if_neg (Nat.lt_irrefl _)

theorem read_write {cs : ClauseSet Nat} (hw : ∀ c ∈ cs, ∀ l ∈ c, l.Writable)
    (hlen : cs.length < UInt64.size) : read (write cs) = .ok cs := by
  have hmax : cs.maxVariable < UInt64.size :=
    Nat.lt_of_le_of_lt (ClauseSet.maxVariable_le fun c hc l hl => (hw c hc l hl).2) (by decide)
  have htake : (clauseLines cs).take cs.length = clauseLines cs :=
    List.take_of_length_le (by simp [clauseLines])
  refine read_eq_ok_iff.mpr ⟨_, _, _, contentLines_write cs, readHeader_written hmax hlen 1, ?_⟩
  rw [htake, map_readClause_clauseLines hw]

/-! ## Writing what was read -/

/-- The integers of a clause line before the first zero. -/
def Line.integers (l : Line) : List Int :=
  ((Text.words l.text).filterMap Text.integer32?).takeWhile (· ≠ 0)

theorem map_signed_of_readLiterals {n max : Nat} {ws : List (List Char)} {c : Clause Nat}
    (h : readLiterals n max ws = .ok c) :
    c.map Literal.signed = (ws.filterMap Text.integer32?).takeWhile (· ≠ 0) := by
  induction ws generalizing c with
  | nil =>
      cases h
      rfl
  | cons w ws ih =>
      unfold readLiterals at h
      split at h
      · contradiction
      · next k hk =>
          rw [List.filterMap_cons_some hk]
          split at h
          · next hzero =>
              cases h
              have hk0 : k = 0 := Literal.ofInt?_eq_none_iff.mp hzero
              rw [List.takeWhile_cons_of_neg (by simp [hk0]), List.map_nil]
          · next l hl =>
              have hsigned : l.signed = k := Literal.signed_of_ofInt? hl
              have hk0 : k ≠ 0 := fun heq => by
                rw [Literal.ofInt?_eq_none_iff.mpr heq] at hl
                contradiction
              split at h
              · contradiction
              · obtain ⟨d, hd, rfl⟩ := exists_of_map_eq_ok h
                rw [List.takeWhile_cons_of_pos (by simpa using hk0), List.map_cons, hsigned, ih hd]

theorem map_signed_of_readClause {max : Nat} {line : Line} {c : Clause Nat}
    (h : readClause max line = .ok c) : c.map Literal.signed = line.integers :=
  map_signed_of_readLiterals h

theorem writable_of_readClause {max : Nat} {line : Line} {c : Clause Nat}
    (h : readClause max line = .ok c) (hmin : -2147483648 ∉ line.integers) :
    ∀ l ∈ c, l.Writable := by
  intro l hl
  have hmem : l.signed ∈ line.integers := by
    rw [← map_signed_of_readClause h]
    exact List.mem_map_of_mem hl
  have hzero : l.signed ≠ 0 := by
    simpa using List.all_eq_true.mp List.all_takeWhile l.signed hmem
  obtain ⟨w, -, hw⟩ := List.mem_filterMap.mp ((List.takeWhile_sublist _).mem hmem)
  have hbounds := Text.bounds_of_integer32? hw
  have hne : l.signed ≠ -2147483648 := fun heq => hmin (heq ▸ hmem)
  have := l.natAbs_signed
  exact ⟨by omega, by omega⟩

theorem length_lt_of_readHeader {line : Line} {max count : Nat}
    (h : readHeader line = .ok (max, count)) : count < UInt64.size := by
  unfold readHeader at h
  split at h
  · contradiction
  · split at h
    · split at h
      · next hcount =>
          cases h
          simpa using (Option.filter_eq_some_iff.mp hcount).2
      · contradiction
    · contradiction

/-- A clause set is read back from its text as it was if its variables lie between 1 and
`2 ^ 31 - 1`; its length fits in 64 bits, as that of any list in memory does. So every clause set
that was read itself is read back too, unless the least 32-bit number stood for a literal. -/
theorem write_read_round_trip :
    (∀ cs : ClauseSet Nat, (∀ c ∈ cs, ∀ l ∈ c, 1 ≤ l.atom ∧ l.atom ≤ 2147483647) →
      cs.length < UInt64.size → read (write cs) = .ok cs) ∧
    ∀ text cs, read text = .ok cs →
      (∀ line ∈ (contentLines text.toList).tail.take cs.length, -2147483648 ∉ line.integers) →
      read (write cs) = .ok cs := by
  refine ⟨fun cs hw hlen => read_write hw hlen, fun text cs hread hmin => ?_⟩
  obtain ⟨header, lines, max, hlines, hheader, hmap⟩ := read_eq_ok_iff.mp hread
  rw [hlines, List.tail_cons] at hmin
  refine read_write (fun c hc => ?_) (length_lt_of_readHeader hheader)
  obtain ⟨line, hline, hclause⟩ := List.mem_map.mp (hmap ▸ List.mem_map_of_mem hc)
  exact writable_of_readClause hclause (hmin line hline)

theorem write_read_round_trip_at_limits :
    read (write [[], [⟨1, true⟩, ⟨1, true⟩], [⟨2147483647, false⟩]]) =
        .ok [[], [⟨1, true⟩, ⟨1, true⟩], [⟨2147483647, false⟩]] ∧
      read "c\np cnf 3 2\n 1 -3 0 2\n\n0\n-2147483648" = .ok [[⟨1, true⟩, ⟨3, false⟩], []] ∧
      read (write [[⟨1, true⟩, ⟨3, false⟩], []]) = .ok [[⟨1, true⟩, ⟨3, false⟩], []] := by
  have hread : read "c\np cnf 3 2\n 1 -3 0 2\n\n0\n-2147483648" =
      .ok [[⟨1, true⟩, ⟨3, false⟩], []] := by rfl
  exact ⟨write_read_round_trip.1 _ (by decide) (by decide), hread,
    write_read_round_trip.2 _ _ hread (by decide)⟩

end Dimacs

end PropSat
