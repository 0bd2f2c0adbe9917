import PropSat.Proofs.Text.Layout
import Mathlib.Data.List.Forall2

/-!
# Lines and the blanks around them

A text is cut into lines at its newlines, and nothing stands after the last newline. A trimmed line
does not show the blanks that were around it, carriage returns at its end included.
-/

namespace PropSat.Text

/-- What stands before, between and after the newlines; an end without a character is no line. -/
def lines (text : List Char) : List (List Char) :=
  if (text.splitOn '\n').getLast? = some [] then (text.splitOn '\n').dropLast else text.splitOn '\n'

theorem splitOn_eq_lines_or (text : List Char) :
    text.splitOn '\n' = lines text ∨ text.splitOn '\n' = lines text ++ [[]] := by
  unfold lines
  split
  · next hlast => exact .inr (List.dropLast_append_getLast? [] hlast).symm
  · exact .inl rfl

theorem lines_unlines {ls : List (List Char)} (h : ∀ l ∈ ls, '\n' ∉ l) :
    lines (unlines ls) = ls := by
  rw [lines, splitOn_unlines h, List.getLast?_concat, if_pos rfl, List.dropLast_concat]

theorem trim_append_blank {l after : List Char} (h : after.all isBlank) :
    trim (l ++ after) = trim l := by
  have hafter := List.all_eq_true.mp h
  unfold trim
  rw [List.dropWhile_append]
  split
  · next hl => rw [List.isEmpty_iff.mp hl, List.dropWhile_eq_nil_iff.mpr hafter]
  · have hreverse : ∀ c ∈ after.reverse, isBlank c :=
      fun c hc => hafter c (List.mem_reverse.mp hc)
    rw [List.reverse_append, List.dropWhile_append_of_pos hreverse]

/-- The second line is the first with blanks before and after it. -/
def Padded (l m : List Char) : Prop :=
  ∃ before after, before.all isBlank ∧ after.all isBlank ∧ m = before ++ l ++ after

theorem Padded.trim_eq {l m : List Char} (h : Padded l m) : trim m = trim l := by
  obtain ⟨before, after, hbefore, hafter, rfl⟩ := h
  rw [trim_append_blank hafter, trim, List.dropWhile_append_of_pos (List.all_eq_true.mp hbefore),
    trim]

/-- The text with a carriage return before each newline. -/
def withReturns (text : List Char) : List Char :=
  text.flatMap fun c => if c = '\n' then ['\r', '\n'] else [c]

theorem splitOn_newline_cons (cs : List Char) : ('\n' :: cs).splitOn '\n' = [] :: cs.splitOn '\n' :=
  List.splitOnP_append_cons [] cs (by decide)

theorem splitOn_cons {c : Char} (hc : c ≠ '\n') (cs : List Char) :
    (c :: cs).splitOn '\n' = (cs.splitOn '\n').modifyHead (c :: ·) := by
  rw [List.splitOn, List.splitOnP_cons_eq_if_modifyHead, if_neg (by simpa using hc)]
  rfl

/-- A carriage return is one more blank at the end of its line. -/
theorem forall₂_splitOn_withReturns (text : List Char) :
    List.Forall₂ (fun l m => m = l ∨ m = l ++ ['\r'])
      (text.splitOn '\n') ((withReturns text).splitOn '\n') := by
  induction text with
  | nil => exact .cons (.inl rfl) .nil
  | cons c cs ih =>
      by_cases hc : c = '\n'
      · subst hc
        have hreturn : withReturns ('\n' :: cs) = '\r' :: '\n' :: withReturns cs := rfl
        rw [hreturn, splitOn_newline_cons, splitOn_cons (by decide), splitOn_newline_cons]
        exact .cons (.inr rfl) ih
      · have hkeep : withReturns (c :: cs) = c :: withReturns cs := by
          rw [withReturns, List.flatMap_cons, if_neg hc]
          rfl
        rw [hkeep, splitOn_cons hc, splitOn_cons hc]
        generalize cs.splitOn '\n' = ls at ih ⊢
        generalize (withReturns cs).splitOn '\n' = ms at ih ⊢
        cases ih with
        | nil => exact .nil
        | cons hlm hrest =>
            refine .cons ?_ hrest
            rcases hlm with rfl | rfl
            · exact .inl rfl
            · exact .inr rfl

theorem map_trim_splitOn_withReturns (text : List Char) :
    ((withReturns text).splitOn '\n').map trim = (text.splitOn '\n').map trim := by
  rw [eq_comm, ← List.forall₂_eq_eq_eq, List.forall₂_map_left_iff, List.forall₂_map_right_iff]
  refine (forall₂_splitOn_withReturns text).imp fun l m h => ?_
  rcases h with rfl | rfl
  · rfl
  · exact (trim_append_blank (by decide)).symm

end PropSat.Text
