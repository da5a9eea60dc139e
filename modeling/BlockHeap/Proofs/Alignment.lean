import BlockHeap.Proofs.PowerOfTwo

/-!
# Rounding to the alignment

For the alignment, the laws of powers of two turn rounding and padding into arithmetic that `omega`
decides.
-/

namespace BlockHeap.PowerOfTwo

theorem alignment_roundUp? (n : Nat) :
    alignment.roundUp? n = if n + 15 < wordLimit then some ((n + 15) / 16 * 16) else none := by
  rw [roundUp?_eq, alignment_mask, alignment_value]

theorem alignment_padding {n : Nat} (hn : n < wordLimit) :
    alignment.padding n = (16 - n % 16) % 16 := by
  have hLt := alignment.padding_lt n
  have hDvd := alignment.dvd_add_padding hn
  rw [alignment_value] at hLt hDvd
  omega

end BlockHeap.PowerOfTwo
