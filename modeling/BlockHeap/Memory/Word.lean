import BlockHeap.PowerOfTwo

/-!
# Words as bytes

A word is kept as eight bytes, the least significant one first. Encoding and decoding are inverse on
words.
-/

namespace BlockHeap

/-- The `count` low bytes of a number, the least significant one first. -/
def littleEndian : (count : Nat) → Nat → List UInt8
  | 0, _ => []
  | count + 1, n => n.toUInt8 :: littleEndian count (n / 256)

def ofLittleEndian : List UInt8 → Nat
  | [] => 0
  | b :: rest => b.toNat + 256 * ofLittleEndian rest

def byteRange : (count : Nat) → Nat
  | 0 => 1
  | count + 1 => 256 * byteRange count

@[simp] theorem length_littleEndian (count n : Nat) : (littleEndian count n).length = count := by
  induction count generalizing n with
  | zero => rfl
  | succ count ih => simp [littleEndian, ih]

theorem ofLittleEndian_lt (bs : List UInt8) : ofLittleEndian bs < byteRange bs.length := by
  induction bs with
  | nil => decide
  | cons b rest ih =>
    have := b.toNat_lt
    simp only [ofLittleEndian, List.length_cons, byteRange]
    omega

theorem ofLittleEndian_littleEndian (count n : Nat) :
    ofLittleEndian (littleEndian count n) = n % byteRange count := by
  induction count generalizing n with
  | zero => simp [littleEndian, ofLittleEndian, byteRange, Nat.mod_one]
  | succ count ih =>
    have hb : n.toUInt8.toNat = n % 256 := rfl
    rw [littleEndian, ofLittleEndian, ih, hb, byteRange, Nat.mod_mul]

end BlockHeap
