import BlockHeap.PowerOfTwo

/-!
# Decimal words

A word is read from an optional plus sign and at least one decimal digit; a number that is not a
word is refused. Every word is read back from its decimal digits.
-/

namespace BlockHeap.Text

def digits? (cs : List Char) : Option Nat :=
  if cs.isEmpty || !cs.all Char.isDigit then none
  else
    let n := Nat.ofDigitChars 10 cs 0
    if n < wordLimit then some n else none

def word? : List Char → Option Nat
  | '+' :: cs => digits? cs
  | cs => digits? cs

theorem digits?_toDigits {n : Nat} (h : n < wordLimit) : digits? (Nat.toDigits 10 n) = some n := by
  have hall : (Nat.toDigits 10 n).all Char.isDigit = true :=
    List.all_eq_true.mpr fun c hc => Nat.isDigit_of_mem_toDigits (by decide) (by decide) hc
  have hne : (Nat.toDigits 10 n).isEmpty = false := by simp
  simp only [digits?, hall, hne, Nat.ofDigitChars_toDigits (show 1 < 10 by decide)
    (show 10 ≤ 10 by decide)]
  simp [h]

theorem word?_toDigits {n : Nat} (h : n < wordLimit) : word? (Nat.toDigits 10 n) = some n := by
  unfold word?
  split
  · next cs hcs =>
    have : ('+' : Char).isDigit = true :=
      Nat.isDigit_of_mem_toDigits (b := 10) (n := n) (by decide) (by decide)
        (by rw [hcs]; exact List.mem_cons_self)
    exact absurd this (by decide)
  · exact digits?_toDigits h

end BlockHeap.Text
