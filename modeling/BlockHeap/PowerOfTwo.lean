/-!
# Powers of two and machine words

Sizes, offsets and addresses are natural numbers below `wordLimit`; each operation that could leave
that range says so in its answer. A power of two is a word with exactly one bit set, and rounding to
its multiples is done on the bits, with a mask of the bits below it. The lemmas state what these bit
operations are in arithmetic.
-/

namespace BlockHeap

/-- Number of values of a machine word, which has 64 bits. -/
def wordLimit : Nat := 18446744073709551616

def wordSize : Nat := 8

def oneBits (n : Nat) : Nat := (List.range 64).countP n.testBit

structure PowerOfTwo where
  value : Nat
  value_lt : value < wordLimit
  oneBits_value : oneBits value = 1
deriving DecidableEq

namespace PowerOfTwo

def ofNat? (n : Nat) : Option PowerOfTwo :=
  if h : n < wordLimit ∧ oneBits n = 1 then some ⟨n, h.1, h.2⟩ else none

theorem ofNat?_eq_some_iff (n : Nat) (p : PowerOfTwo) : ofNat? n = some p ↔ p.value = n := by
  unfold ofNat?
  constructor
  · intro h
    split at h
    · cases h
      rfl
    · cases h
  · intro h
    subst h
    rw [dif_pos ⟨p.value_lt, p.oneBits_value⟩]

def mask (p : PowerOfTwo) : Nat := p.value - 1

def highBits (p : PowerOfTwo) : Nat := wordLimit - 1 - p.mask

def roundUp? (p : PowerOfTwo) (n : Nat) : Option Nat :=
  if n + p.mask < wordLimit then some ((n + p.mask) &&& p.highBits) else none

def roundDown (p : PowerOfTwo) (n : Nat) : Nat := n &&& p.highBits

/-- The bytes missing from `n` to the next multiple: the low bits of its two's complement. -/
def padding (p : PowerOfTwo) (n : Nat) : Nat := ((wordLimit - n) % wordLimit) &&& p.mask

def rem (p : PowerOfTwo) (n : Nat) : Nat := n &&& p.mask

end PowerOfTwo

/-- The alignment of every payload, and the granularity of every block size: two words. -/
def alignment : PowerOfTwo := ⟨2 * wordSize, by decide, by decide⟩

theorem alignment_value : alignment.value = 16 := rfl

theorem alignment_mask : alignment.mask = 15 := rfl

theorem alignment_rem (n : Nat) : alignment.rem n = n % 16 :=
  Nat.and_two_pow_sub_one_eq_mod n 4

end BlockHeap
