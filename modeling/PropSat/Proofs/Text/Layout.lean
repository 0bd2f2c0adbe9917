import PropSat.Text.Blank
import Mathlib.Data.List.TakeWhile

/-!
# Lines of words

A line is laid out with one space between each two words, a text with a newline after each line.
Cutting the text at newlines and the lines at blanks gives the words back.
-/

namespace PropSat.Text

structure IsWord (w : List Char) : Prop where
  ne_nil : w ≠ []
  not_isBlank : ∀ c ∈ w, isBlank c = false

instance (w : List Char) : Decidable (IsWord w) :=
  decidable_of_iff (w ≠ [] ∧ w.all fun c => !isBlank c)
    ⟨fun h => ⟨h.1, by simpa using h.2⟩, fun h => ⟨h.ne_nil, by simpa using h.not_isBlank⟩⟩

/-- The words with a space between each two. -/
def unwords (ws : List (List Char)) : List Char := [' '].intercalate ws

/-- The lines with a newline after each. -/
def unlines (ls : List (List Char)) : List Char := ls.flatMap (· ++ ['\n'])

@[simp] theorem unwords_nil : unwords [] = [] := List.intercalate_nil

@[simp] theorem unwords_singleton (w : List Char) : unwords [w] = w := List.intercalate_singleton

theorem unwords_cons_cons (w v : List Char) (ws : List (List Char)) :
    unwords (w :: v :: ws) = w ++ ' ' :: unwords (v :: ws) := by
  rw [unwords, List.intercalate_cons_cons, List.append_assoc]
  rfl

theorem unwords_append_singleton (ws : List (List Char)) (v : List Char) :
    unwords (ws ++ [v]) = ws.flatMap (· ++ [' ']) ++ v := by
  induction ws with
  | nil => exact unwords_singleton v
  | cons w ws ih =>
      have hne : ws ++ [v] ≠ [] := by simp
      rw [unwords] at ih
      rw [List.cons_append, unwords, List.intercalate_cons_of_ne_nil hne, ih, List.flatMap_cons,
        List.append_assoc (w ++ [' '])]

theorem unwords_cons_eq_flatMap (w : List Char) (ws : List (List Char)) :
    unwords (w :: ws) = w ++ ws.flatMap (' ' :: ·) := by
  induction ws generalizing w with
  | nil => simp
  | cons v ws ih => rw [unwords_cons_cons, ih, List.flatMap_cons, List.cons_append]

variable {ws : List (List Char)}

/-! ## Words of a line -/

theorem words_append_blank {c : Char} (hc : isBlank c) (x y : List Char) :
    words (x ++ c :: y) = words x ++ words y := by
  rw [words, List.splitOnP_append_cons x y hc, List.filter_append]
  rfl

theorem IsWord.words_eq {w : List Char} (h : IsWord w) : words w = [w] := by
  rw [words, List.splitOnP_eq_singleton h.not_isBlank]
  exact List.filter_cons_of_pos (by simpa using h.ne_nil)

theorem words_unwords (h : ∀ w ∈ ws, IsWord w) : words (unwords ws) = ws := by
  induction ws with
  | nil => rfl
  | cons w ws ih =>
      obtain ⟨hw, hws⟩ := List.forall_mem_cons.mp h
      cases ws with
      | nil => rw [unwords_singleton, hw.words_eq]
      | cons v ws =>
          rw [unwords_cons_cons, words_append_blank (by decide), hw.words_eq, ih hws]
          rfl

theorem trim_eq_self {cs : List Char} (hfirst : ∀ c ∈ cs.head?, isBlank c = false)
    (hlast : ∀ c ∈ cs.getLast?, isBlank c = false) : trim cs = cs := by
  have hdrop : ∀ ds : List Char, (∀ c ∈ ds.head?, isBlank c = false) →
      ds.dropWhile isBlank = ds := by
    intro ds hd
    cases ds with
    | nil => rfl
    | cons d ds => exact List.dropWhile_cons_of_neg (by simp [hd d rfl])
  rw [trim, hdrop cs hfirst, hdrop cs.reverse (by rwa [List.head?_reverse]), List.reverse_reverse]

theorem head?_unwords {w : List Char} (hw : w ≠ []) : (unwords (w :: ws)).head? = w.head? := by
  cases ws with
  | nil => rw [unwords_singleton]
  | cons v ws => rw [unwords_cons_cons, List.head?_append, List.head?_eq_some_head hw, Option.some_or]

theorem not_isBlank_of_mem_getLast? (h : ∀ w ∈ ws, IsWord w) :
    ∀ c ∈ (unwords ws).getLast?, isBlank c = false := by
  induction ws with
  | nil => simp
  | cons w ws ih =>
      obtain ⟨hw, hws⟩ := List.forall_mem_cons.mp h
      intro c hc
      cases ws with
      | nil =>
          rw [unwords_singleton] at hc
          exact hw.not_isBlank c (List.mem_of_getLast? hc)
      | cons v ws =>
          have hv : v ≠ [] := (hws v List.mem_cons_self).ne_nil
          have hne : unwords (v :: ws) ≠ [] := by
            intro hnil
            have hhead : (unwords (v :: ws)).head? = v.head? := head?_unwords hv
            rw [hnil, List.head?_eq_some_head hv] at hhead
            contradiction
          rw [unwords_cons_cons, List.getLast?_append, List.getLast?_cons,
            List.getLast?_eq_some_getLast hne] at hc
          exact ih hws c (by rw [List.getLast?_eq_some_getLast hne]; simpa using hc)

theorem trim_unwords (h : ∀ w ∈ ws, IsWord w) : trim (unwords ws) = unwords ws := by
  refine trim_eq_self (fun c hc => ?_) (not_isBlank_of_mem_getLast? h)
  cases ws with
  | nil => contradiction
  | cons w ws =>
      have hw := h w List.mem_cons_self
      rw [head?_unwords hw.ne_nil] at hc
      exact hw.not_isBlank c (List.mem_of_mem_head? hc)

theorem head?_trim (l : List Char) : (trim l).head? = l.find? fun c => !isBlank c := by
  rw [List.find?_not_eq_head?_dropWhile]
  cases hl : l.dropWhile isBlank with
  | nil =>
      rw [trim, hl]
      rfl
  | cons c cs =>
      have hc : isBlank c = false := by simpa [hl] using List.head?_dropWhile_not isBlank l
      have hkeep : (cs.reverse ++ [c]).dropWhile isBlank = cs.reverse.dropWhile isBlank ++ [c] := by
        rw [List.dropWhile_append]
        split
        · next hcs =>
            rw [List.isEmpty_iff.mp hcs, List.dropWhile_cons_of_neg (by simp [hc]), List.nil_append]
        · rfl
      rw [trim, hl, List.reverse_cons, hkeep, List.reverse_append]
      rfl

theorem not_isBlank_of_mem_head?_trim {cs : List Char} {c : Char} (h : c ∈ (trim cs).head?) :
    isBlank c = false := by
  rw [head?_trim] at h
  simpa using List.find?_some h

theorem head?_of_words {cs w : List Char} {ws : List (List Char)} (h : words cs = w :: ws)
    (hblank : ∀ c ∈ cs.head?, isBlank c = false) : cs.head? = w.head? := by
  cases cs with
  | nil => simp [words, List.splitOnP_eq_singleton] at h
  | cons c cs =>
      have hc : isBlank c = false := hblank c rfl
      obtain ⟨v, vs, hv⟩ := List.exists_cons_of_ne_nil (List.splitOnP_ne_nil isBlank cs)
      have hwords : words (c :: cs) = (c :: v) :: vs.filter (!·.isEmpty) := by
        rw [words, List.splitOnP_cons_eq_if_modifyHead, hc, hv]
        rfl
      rw [hwords] at h
      cases h
      rfl

/-! ## Lines of a text -/

theorem newline_not_mem_unwords (h : ∀ w ∈ ws, IsWord w) : '\n' ∉ unwords ws := by
  have hword : ∀ w, IsWord w → '\n' ∉ w := fun w hw hmem => by
    have := hw.not_isBlank _ hmem
    contradiction
  induction ws with
  | nil => simp
  | cons w ws ih =>
      obtain ⟨hw, hws⟩ := List.forall_mem_cons.mp h
      cases ws with
      | nil => rw [unwords_singleton]; exact hword w hw
      | cons v ws =>
          rw [unwords_cons_cons, List.mem_append, List.mem_cons]
          rintro (hmem | hmem | hmem)
          · exact hword w hw hmem
          · contradiction
          · exact ih hws hmem

/-- Nothing stands after the last newline. -/
theorem splitOn_unlines {ls : List (List Char)} (h : ∀ l ∈ ls, '\n' ∉ l) :
    (unlines ls).splitOn '\n' = ls ++ [[]] := by
  induction ls with
  | nil => rfl
  | cons l ls ih =>
      obtain ⟨hl, hls⟩ := List.forall_mem_cons.mp h
      have hpass : ∀ c ∈ l, (c == '\n') = false := fun c hc =>
        beq_eq_false_iff_ne.mpr fun heq => hl (heq ▸ hc)
      have hcons : unlines (l :: ls) = l ++ '\n' :: unlines ls := by simp [unlines]
      rw [hcons, List.splitOn, List.splitOnP_append_cons_of_forall_mem hpass '\n' (by decide)]
      exact congrArg (l :: ·) (ih hls)

end PropSat.Text
