import BlockHeap.Text.Decimal
import Mathlib.Data.Nat.Digits.Defs

/-!
# Numerals

`Numeral cs n` says that a text is a numeral for the word `n`: decimal digits of this value, after a
plus sign or not. It is what is read as this word.
-/

namespace BlockHeap.Text

def digitValue (c : Char) : Nat := c.toNat - '0'.toNat

/-- The text is at least one digit of the decimal system, and may have a plus sign before them; the
value of the digits is this word. -/
def Numeral (cs : List Char) (n : Nat) : Prop :=
  ∃ ds, (cs = ds ∨ cs = '+' :: ds) ∧ ds ≠ [] ∧ (∀ d ∈ ds, '0' ≤ d ∧ d ≤ '9') ∧
    n = Nat.ofDigits 10 (ds.reverse.map digitValue) ∧ n < wordLimit

variable {cs ds : List Char} {n : Nat}

theorem Numeral.lt (h : Numeral cs n) : n < wordLimit := by
  obtain ⟨_, _, _, _, _, hLt⟩ := h
  exact hLt

theorem ofDigitChars_eq (ds : List Char) (k : Nat) : Nat.ofDigitChars 10 ds k =
    10 ^ ds.length * k + Nat.ofDigits 10 (ds.reverse.map digitValue) := by
  induction ds generalizing k with
  | nil => simp [Nat.ofDigitChars]
  | cons d ds ih =>
    have hStep : Nat.ofDigitChars 10 (d :: ds) k = Nat.ofDigitChars 10 ds (10 * k + digitValue d) :=
      rfl
    rw [hStep, ih, List.reverse_cons, List.map_append, Nat.ofDigits_append, List.length_map,
      List.length_reverse, List.map_singleton, Nat.ofDigits_singleton, List.length_cons]
    ring

theorem isDigit_iff {c : Char} : c.isDigit = true ↔ '0' ≤ c ∧ c ≤ '9' := by
  rw [Char.isDigit, Bool.and_eq_true, decide_eq_true_iff, decide_eq_true_iff]
  rfl

theorem digits?_eq_some_iff : digits? ds = some n ↔ ds ≠ [] ∧ (∀ d ∈ ds, '0' ≤ d ∧ d ≤ '9') ∧
    n = Nat.ofDigits 10 (ds.reverse.map digitValue) ∧ n < wordLimit := by
  have hRefused : (ds.isEmpty || !ds.all Char.isDigit) = true ↔
      ¬ (ds ≠ [] ∧ ∀ d ∈ ds, '0' ≤ d ∧ d ≤ '9') := by
    rw [Bool.or_eq_true, Bool.not_eq_true', ← Bool.not_eq_true, List.all_eq_true,
      List.isEmpty_iff, not_and_or, not_not]
    simp only [isDigit_iff]
  have hValue : Nat.ofDigitChars 10 ds 0 = Nat.ofDigits 10 (ds.reverse.map digitValue) := by
    rw [ofDigitChars_eq, Nat.mul_zero, Nat.zero_add]
  rw [digits?, hValue, ← and_assoc]
  by_cases h : ds ≠ [] ∧ ∀ d ∈ ds, '0' ≤ d ∧ d ≤ '9'
  · rw [if_neg (by rwa [hRefused, not_not]), Option.ite_none_right_eq_some, Option.some.injEq]
    constructor
    · rintro ⟨hLt, rfl⟩
      exact ⟨h, rfl, hLt⟩
    · rintro ⟨_, rfl, hLt⟩
      exact ⟨hLt, rfl⟩
  · rw [if_pos (hRefused.mpr h)]
    exact iff_of_false (Option.some_ne_none n).symm fun hAll => h hAll.1

theorem word?_eq_some_iff : word? cs = some n ↔ Numeral cs n := by
  unfold word?
  split
  · next ds =>
    rw [digits?_eq_some_iff]
    constructor
    · exact fun h => ⟨ds, .inr rfl, h⟩
    · rintro ⟨es, rfl | hEq, h⟩
      · exact absurd (h.2.1 '+' List.mem_cons_self) (by decide)
      · obtain rfl := List.tail_eq_of_cons_eq hEq
        exact h
  · next hPlus =>
    rw [digits?_eq_some_iff]
    constructor
    · exact fun h => ⟨cs, .inl rfl, h⟩
    · rintro ⟨es, rfl | rfl, h⟩
      · exact h
      · exact absurd rfl (hPlus es)

theorem numeral_toDigits (h : n < wordLimit) : Numeral (Nat.toDigits 10 n) n :=
  word?_eq_some_iff.mp (word?_toDigits h)

end BlockHeap.Text
