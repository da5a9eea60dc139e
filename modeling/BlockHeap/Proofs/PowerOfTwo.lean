import BlockHeap.PowerOfTwo
import Mathlib.Algebra.Ring.Nat
import Mathlib.Data.List.Nodup
import Mathlib.Order.Bounds.Defs

/-!
# Bit operations of powers of two

Masks of high and of low bits are quotients and remainders. Rounding and padding are therefore what
they are in arithmetic: nearest multiples and the distance to the next one, for every power of two
that a word can hold and for every word, up to the last ones below the limit.
-/

namespace BlockHeap

/-- A word has exactly one bit set if and only if it is two to the power of that bit's place. -/
theorem oneBits_eq_one_iff {n : Nat} (hn : n < wordLimit) :
    oneBits n = 1 ↔ ∃ k < 64, n = 2 ^ k := by
  constructor
  · intro hOne
    rw [oneBits, List.countP_eq_length_filter, List.length_eq_one_iff] at hOne
    obtain ⟨k, hOnly⟩ := hOne
    have hSet : ∀ i, i < 64 ∧ n.testBit i = true ↔ i = k := fun i => by
      rw [← List.mem_range, ← List.mem_filter, hOnly, List.mem_singleton]
    refine ⟨k, ((hSet k).mpr rfl).1, Nat.eq_of_testBit_eq fun i => ?_⟩
    rw [Nat.testBit_two_pow, Bool.eq_iff_iff, decide_eq_true_iff]
    constructor
    · intro hBit
      have hi : i < 64 := by
        by_contra hHigh
        have hLe : 2 ^ 64 ≤ 2 ^ i := Nat.pow_le_pow_right (by decide) (Nat.le_of_not_lt hHigh)
        rw [Nat.testBit_lt_two_pow (Nat.lt_of_lt_of_le hn hLe)] at hBit
        cases hBit
      exact ((hSet i).mp ⟨hi, hBit⟩).symm
    · rintro rfl
      exact ((hSet k).mpr rfl).2
  · rintro ⟨k, hk, rfl⟩
    have hBits : (2 ^ k).testBit = (· == k) := funext fun i => by
      rw [Nat.testBit_two_pow, beq_eq_decide]
      exact decide_eq_decide.mpr eq_comm
    rw [oneBits, hBits]
    exact List.count_eq_one_of_mem List.nodup_range (List.mem_range.mpr hk)

namespace PowerOfTwo

theorem exists_exponent (p : PowerOfTwo) : ∃ k < 64, p.value = 2 ^ k :=
  (oneBits_eq_one_iff p.value_lt).mp p.oneBits_value

theorem value_pos (p : PowerOfTwo) : 0 < p.value := by
  obtain ⟨k, _, hValue⟩ := p.exists_exponent
  rw [hValue]
  exact Nat.two_pow_pos k

theorem value_dvd_wordLimit (p : PowerOfTwo) : p.value ∣ wordLimit := by
  obtain ⟨k, hk, hValue⟩ := p.exists_exponent
  rw [hValue]
  exact Nat.pow_dvd_pow 2 (Nat.le_of_lt hk)

theorem and_high_eq {n k : Nat} (hn : n < 2 ^ 64) (hk : k ≤ 64) :
    n &&& (2 ^ 64 - 2 ^ k) = n / 2 ^ k * 2 ^ k := by
  have hMask : 2 ^ 64 - 2 ^ k = (2 ^ (64 - k) - 1) <<< k := by
    rw [Nat.shiftLeft_eq, Nat.sub_mul, Nat.one_mul, ← Nat.pow_add, Nat.sub_add_cancel hk]
  rw [hMask, ← Nat.shiftLeft_eq, ← Nat.shiftRight_eq_div_pow]
  apply Nat.eq_of_testBit_eq
  intro i
  simp only [Nat.testBit_and, Nat.testBit_shiftLeft, Nat.testBit_shiftRight,
    Nat.testBit_two_pow_sub_one]
  by_cases hi : k ≤ i
  · rw [show k + (i - k) = i by omega]
    by_cases h64 : i < 64
    · simp [hi, show i - k < 64 - k by omega]
    · have hBit : n.testBit i = false :=
        Nat.testBit_lt_two_pow (Nat.lt_of_lt_of_le hn (Nat.pow_le_pow_right (by decide) (by omega)))
      simp [hBit]
  · simp [hi]

variable (p : PowerOfTwo) {n m : Nat}

theorem rem_eq (n : Nat) : p.rem n = n % p.value := by
  obtain ⟨k, _, hValue⟩ := p.exists_exponent
  rw [rem, mask, hValue, Nat.and_two_pow_sub_one_eq_mod]

theorem and_highBits (hn : n < wordLimit) : n &&& p.highBits = n / p.value * p.value := by
  obtain ⟨k, hk, hValue⟩ := p.exists_exponent
  have hPos := Nat.two_pow_pos k
  have hHigh : p.highBits = 2 ^ 64 - 2 ^ k := by
    rw [highBits, mask, hValue, show wordLimit = 2 ^ 64 from rfl]
    omega
  rw [hHigh, hValue, and_high_eq hn (Nat.le_of_lt hk)]

theorem roundDown_eq (hn : n < wordLimit) : p.roundDown n = n / p.value * p.value :=
  p.and_highBits hn

theorem roundUp?_eq (n : Nat) : p.roundUp? n = if n + p.mask < wordLimit then
    some ((n + p.mask) / p.value * p.value) else none := by
  unfold roundUp?
  split
  · next h => rw [p.and_highBits h]
  · rfl

theorem padding_eq (n : Nat) : p.padding n = (wordLimit - n) % p.value := by
  have hMod := Nat.mod_mod_of_dvd (wordLimit - n) p.value_dvd_wordLimit
  obtain ⟨k, _, hValue⟩ := p.exists_exponent
  rw [hValue] at hMod ⊢
  rw [padding, mask, hValue, Nat.and_two_pow_sub_one_eq_mod, hMod]

theorem padding_lt (n : Nat) : p.padding n < p.value := by
  rw [padding_eq]
  exact Nat.mod_lt _ p.value_pos

theorem dvd_add_padding (hn : n < wordLimit) : p.value ∣ n + p.padding n := by
  rw [padding_eq, Nat.dvd_iff_mod_eq_zero, Nat.add_mod_mod, Nat.add_sub_cancel' (Nat.le_of_lt hn)]
  exact Nat.mod_eq_zero_of_dvd p.value_dvd_wordLimit

theorem padding_le (hn : n < wordLimit) (hDvd : p.value ∣ n + m) : p.padding n ≤ m := by
  by_contra hLess
  have hDvd' : p.value ∣ p.padding n - m := by
    have hSub := Nat.dvd_sub (p.dvd_add_padding hn) hDvd
    rwa [Nat.add_sub_add_left] at hSub
  have hLe := Nat.le_of_dvd (by omega) hDvd'
  have hLt := p.padding_lt n
  omega

/-- Rounding up adds the padding, and is refused exactly if the sum is not a word: the sum is a
multiple, so if it is below the limit, it is below by a whole unit. -/
theorem roundUp?_eq_add_padding (hn : n < wordLimit) : p.roundUp? n =
    if n + p.padding n < wordLimit then some (n + p.padding n) else none := by
  have hPos := p.value_pos
  have hLt := p.padding_lt n
  obtain ⟨c, hMultiple⟩ := p.dvd_add_padding hn
  have hRounded : (n + p.mask) / p.value * p.value = n + p.padding n := by
    have hSum : n + p.mask = p.value * c + (p.mask - p.padding n) := by
      rw [mask]
      omega
    have hRest : (p.mask - p.padding n) / p.value = 0 := by
      rw [mask]
      exact Nat.div_eq_of_lt (by omega)
    rw [hSum, Nat.mul_add_div hPos, hRest, Nat.add_zero, Nat.mul_comm, hMultiple]
  have hWord : n + p.mask < wordLimit ↔ n + p.padding n < wordLimit := by
    rw [mask]
    constructor
    · omega
    · intro hBelow
      have hGap : p.value ∣ wordLimit - (n + p.padding n) :=
        Nat.dvd_sub p.value_dvd_wordLimit (p.dvd_add_padding hn)
      have hUnit := Nat.le_of_dvd (by omega) hGap
      omega
  rw [roundUp?_eq, hRounded]
  exact if_congr hWord rfl rfl

theorem isLeast_add_padding (hn : n < wordLimit) :
    IsLeast {m | n ≤ m ∧ p.value ∣ m} (n + p.padding n) := by
  refine ⟨⟨Nat.le_add_right _ _, p.dvd_add_padding hn⟩, fun m ⟨hLe, hDvd⟩ => ?_⟩
  have hRest : p.padding n ≤ m - n := p.padding_le hn (by rwa [Nat.add_sub_cancel' hLe])
  omega

theorem isGreatest_roundDown (hn : n < wordLimit) :
    IsGreatest {m | m ≤ n ∧ p.value ∣ m} (p.roundDown n) := by
  rw [roundDown_eq p hn]
  refine ⟨⟨Nat.div_mul_le_self _ _, Nat.dvd_mul_left _ _⟩, fun m ⟨hLe, c, hMultiple⟩ => ?_⟩
  subst hMultiple
  rw [Nat.mul_comm]
  exact Nat.mul_le_mul_right _ ((Nat.le_div_iff_mul_le p.value_pos).mpr (by rwa [Nat.mul_comm]))

/-- Rounding to a power of two answers the least multiple that is no smaller, if that is a word, or
the greatest that is no larger; the padding is the distance to the former. -/
theorem rounding_exact (v : Nat) :
    ((∃ p, ofNat? v = some p) ↔ ∃ k < 64, v = 2 ^ k) ∧
    ∀ p, ofNat? v = some p → p.value = v ∧ ∀ n < wordLimit,
      (∃ m, IsLeast {m | n ≤ m ∧ v ∣ m} m ∧
        p.roundUp? n = if m < wordLimit then some m else none) ∧
      IsGreatest {m | m ≤ n ∧ v ∣ m} (p.roundDown n) ∧
      p.rem n = n % v ∧
      IsLeast {k | v ∣ n + k} (p.padding n) ∧
      ∀ m, p.roundUp? n = some m → m = n + p.padding n := by
  refine ⟨⟨?_, ?_⟩, fun p hp => ?_⟩
  · rintro ⟨p, hp⟩
    obtain rfl := (ofNat?_eq_some_iff v p).mp hp
    exact p.exists_exponent
  · rintro ⟨k, hk, rfl⟩
    have hLt : 2 ^ k < wordLimit := Nat.pow_lt_pow_right (by decide) hk
    exact ⟨⟨2 ^ k, hLt, (oneBits_eq_one_iff hLt).mpr ⟨k, hk, rfl⟩⟩,
      (ofNat?_eq_some_iff _ _).mpr rfl⟩
  · obtain rfl := (ofNat?_eq_some_iff v p).mp hp
    refine ⟨rfl, fun n hn => ⟨⟨n + p.padding n, p.isLeast_add_padding hn,
      p.roundUp?_eq_add_padding hn⟩, p.isGreatest_roundDown hn, p.rem_eq n,
      ⟨p.dvd_add_padding hn, fun m => p.padding_le hn⟩, fun m hm => ?_⟩⟩
    rw [p.roundUp?_eq_add_padding hn, Option.ite_none_right_eq_some] at hm
    exact (Option.some.inj hm.2).symm

/-- The greatest power, and a word so close to the limit that nothing is left to round up to. -/
theorem rounding_exact_of_top : ∃ p, ofNat? (2 ^ 63) = some p ∧ p.roundUp? (2 ^ 63 + 1) = none ∧
    p.roundDown (2 ^ 63 + 1) = 2 ^ 63 ∧ p.rem (2 ^ 63 + 1) = 1 ∧
    2 ^ 63 + 1 + p.padding (2 ^ 63 + 1) = wordLimit := by
  obtain ⟨hExists, hAll⟩ := rounding_exact (2 ^ 63)
  obtain ⟨p, hp⟩ := hExists.mpr ⟨63, by decide, rfl⟩
  obtain ⟨hValue, hExact⟩ := hAll p hp
  obtain ⟨⟨m, ⟨⟨hGe, c, hUp⟩, _⟩, hRounded⟩, ⟨⟨hLe, d, hDown⟩, hLargest⟩, hRem,
    ⟨⟨e, hPadded⟩, hSmallest⟩, _⟩ := hExact (2 ^ 63 + 1) (by decide)
  have hUpper : wordLimit ≤ m := by
    unfold wordLimit
    omega
  have hLower : 2 ^ 63 ≤ p.roundDown (2 ^ 63 + 1) := hLargest ⟨by decide, Nat.dvd_refl _⟩
  have hShort : p.padding (2 ^ 63 + 1) ≤ 2 ^ 63 - 1 := hSmallest ⟨2, by decide⟩
  refine ⟨p, hp, hRounded.trans (if_neg hUpper.not_gt), by omega, hRem, ?_⟩
  unfold wordLimit
  omega

end PowerOfTwo

end BlockHeap
