/-!
# Decimal numbers

Numbers are read from ASCII digits with an optional sign, and refused outside a given range. Leading
zeros count for nothing.
-/

namespace PropSat.Text

def digits? (cs : List Char) : Option Nat :=
  if !cs.isEmpty && cs.all Char.isDigit then some (Nat.ofDigitChars 10 cs 0) else none

/-- Digits, after an optional plus. -/
def natural? (cs : List Char) : Option Nat :=
  match cs with
  | '+' :: ds => digits? ds
  | ds => digits? ds

def integer? (cs : List Char) : Option Int :=
  match cs with
  | '-' :: ds => (digits? ds).map fun n => -(n : Int)
  | ds => (natural? ds).map fun n => (n : Int)

def natural64? (cs : List Char) : Option Nat := (natural? cs).filter (· < UInt64.size)

def integer32? (cs : List Char) : Option Int :=
  (integer? cs).filter fun n => -2147483648 ≤ n && n ≤ 2147483647

theorem digits?_toDigits (n : Nat) : digits? (Nat.toDigits 10 n) = some n := by
  have hd : (Nat.toDigits 10 n).all Char.isDigit := by
    simp only [List.all_eq_true]
    exact fun c hc => Nat.isDigit_of_mem_toDigits (by decide) (by decide) hc
  simp [digits?, hd, Nat.toDigits_ne_nil]

theorem repr_injective {m n : Nat} (h : m.repr = n.repr) : m = n := by
  have := congrArg (fun s => Nat.ofDigitChars 10 s.toList 0) h
  simpa using this

end PropSat.Text
