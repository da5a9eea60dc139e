import BlockHeap.PowerOfTwo

/-!
# Tags

A tag is the word that describes a block: its size, and whether it is allocated. Sizes are multiples
of the alignment, so the lowest bit of the word is free to hold the second. Two words are equal if
and only if the tags they hold are.
-/

namespace BlockHeap

structure Tag where
  size : Nat
  allocated : Bool
deriving DecidableEq

namespace Tag

def ofWord (w : Nat) : Tag := ⟨w - w % 2, w % 2 == 1⟩

def word (t : Tag) : Nat := t.size + t.allocated.toNat

def sentinel : Tag := ⟨0, true⟩

def WellSized (t : Tag) : Prop := t.size ≠ 0 ∧ alignment.rem t.size = 0

instance (t : Tag) : Decidable t.WellSized := inferInstanceAs (Decidable (_ ∧ _))

theorem ofWord_word (t : Tag) (h : t.size % 2 = 0) : ofWord t.word = t := by
  obtain ⟨size, allocated⟩ := t
  simp only at h
  cases allocated
  · simp [ofWord, word, h]
  · simp only [ofWord, word, Bool.toNat_true, mk.injEq]
    refine ⟨by omega, ?_⟩
    simp only [beq_iff_eq]
    omega

theorem word_ofWord (w : Nat) : (ofWord w).word = w := by
  have : w % 2 = 0 ∨ w % 2 = 1 := by omega
  rcases this with h | h
  · simp [ofWord, word, h]
  · simp only [ofWord, word, h]
    simp
    omega

theorem ofWord_inj {v w : Nat} : ofWord v = ofWord w ↔ v = w := by
  refine ⟨fun h => ?_, fun h => by rw [h]⟩
  rw [← word_ofWord v, h, word_ofWord]

theorem wellSized_iff (t : Tag) : t.WellSized ↔ 0 < t.size ∧ t.size % 16 = 0 := by
  rw [WellSized, alignment_rem]
  omega

end Tag

end BlockHeap
