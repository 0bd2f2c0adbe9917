import PropSat.Proofs.Text.Layout
import PropSat.Text.Number

/-!
# Numerals

The decimal text of a number is one word, and it is read as the number.
-/

namespace PropSat.Text

theorem not_isBlank_of_isDigit {c : Char} (h : c.isDigit) : isBlank c = false := by
  have hr : 48 ≤ c.toNat ∧ c.toNat ≤ 57 := by
    simp only [Char.isDigit, Bool.and_eq_true, decide_eq_true_eq, ge_iff_le,
      UInt32.le_iff_toNat_le] at h
    exact h
  simp only [isBlank, blankRanges, List.any_cons, List.any_nil, Bool.or_eq_false_iff,
    Bool.and_eq_false_iff, decide_eq_false_iff_not, and_true]
  omega

theorem isDigit_of_mem_toDigits {n : Nat} {c : Char} (h : c ∈ Nat.toDigits 10 n) : c.isDigit :=
  Nat.isDigit_of_mem_toDigits (by decide) (by decide) h

theorem isWord_toDigits (n : Nat) : IsWord (Nat.toDigits 10 n) :=
  ⟨Nat.toDigits_ne_nil, fun _ hc => not_isBlank_of_isDigit (isDigit_of_mem_toDigits hc)⟩

theorem natural?_toDigits (n : Nat) : natural? (Nat.toDigits 10 n) = some n := by
  unfold natural?
  split
  · next ds hds =>
      have := isDigit_of_mem_toDigits (n := n) (hds ▸ List.mem_cons_self)
      contradiction
  · exact digits?_toDigits n

theorem natural64?_toDigits {n : Nat} (h : n < UInt64.size) :
    natural64? (Nat.toDigits 10 n) = some n := by
  rw [natural64?, natural?_toDigits, Option.filter_some, if_pos (decide_eq_true h)]

/-- A minus sign for the negative, then the digits of the absolute value. -/
theorem toList_toString (n : Int) :
    (toString n).toList =
      if n < 0 then '-' :: Nat.toDigits 10 n.natAbs else Nat.toDigits 10 n.natAbs := by
  cases n with
  | ofNat m =>
      rw [if_neg (by simp)]
      exact Nat.toList_repr
  | negSucc m =>
      rw [if_pos (Int.negSucc_lt_zero m)]
      exact (String.toList_append).trans (congrArg ('-' :: ·) Nat.toList_repr)

theorem isWord_toString (n : Int) : IsWord (toString n).toList := by
  have hdigits := isWord_toDigits n.natAbs
  rw [toList_toString]
  split
  · exact ⟨List.cons_ne_nil _ _, List.forall_mem_cons.mpr ⟨by decide, hdigits.not_isBlank⟩⟩
  · exact hdigits

/-- So the text of a number is no comment. -/
theorem c_not_mem_toString (n : Int) : 'c' ∉ (toString n).toList := by
  have hdigits : 'c' ∉ Nat.toDigits 10 n.natAbs := fun h => by
    have := isDigit_of_mem_toDigits h
    contradiction
  rw [toList_toString]
  split
  · simpa using hdigits
  · exact hdigits

theorem integer?_toString (n : Int) : integer? (toString n).toList = some n := by
  rw [toList_toString]
  by_cases hn : n < 0
  · have hneg : (-(n.natAbs : Int)) = n := by omega
    rw [if_pos hn, integer?, digits?_toDigits]
    exact congrArg some hneg
  · rw [if_neg hn]
    unfold integer?
    split
    · next ds hds =>
        have := isDigit_of_mem_toDigits (n := n.natAbs) (hds ▸ List.mem_cons_self)
        contradiction
    · have hpos : (n.natAbs : Int) = n := by omega
      rw [natural?_toDigits]
      exact congrArg some hpos

theorem integer32?_toString {n : Int} (hmin : -2147483648 ≤ n) (hmax : n ≤ 2147483647) :
    integer32? (toString n).toList = some n := by
  rw [integer32?, integer?_toString, Option.filter_some]
  exact if_pos (by simp [hmin, hmax])

theorem bounds_of_integer32? {w : List Char} {n : Int} (h : integer32? w = some n) :
    -2147483648 ≤ n ∧ n ≤ 2147483647 := by
  simpa using (Option.filter_eq_some_iff.mp h).2

end PropSat.Text
