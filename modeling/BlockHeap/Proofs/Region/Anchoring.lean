import BlockHeap.Proofs.Alignment
import BlockHeap.Proofs.Region.Keeps

/-!
# Anchoring

A region is laid out at the first aligned address from the mark of its arena on. Whether there is
room for it depends on the mark and the end of the arena alone.
-/

namespace BlockHeap

namespace Arena

def limit (a : Arena) : Nat := a.base + a.capacity

def aligned (a : Arena) : Nat := (a.mark + 15) / 16 * 16

theorem mark_le (a : Arena) : a.mark ≤ a.limit := Nat.add_le_add_left a.size_le a.base

theorem mark_lt (a : Arena) : a.mark < wordLimit :=
  Nat.lt_of_le_of_lt a.mark_le a.end_lt

theorem mark_le_aligned (a : Arena) : a.mark ≤ a.aligned := by
  unfold aligned
  omega

theorem aligned_eq (a : Arena) : a.aligned = a.mark + alignment.padding a.mark := by
  rw [PowerOfTwo.alignment_padding a.mark_lt, aligned]
  omega

theorem grow_of_le {a : Arena} {n : Nat} (h : a.mark + n ≤ a.limit) :
    ∃ b, a.grow n = (some a.mark, b) ∧ b.mark = a.mark + n ∧ b.base = a.base ∧
      b.limit = a.limit ∧ b.memory = a.memory := by
  have hRoom : n ≤ a.capacity - a.size := by
    unfold mark limit at h
    omega
  exact ⟨_, dif_pos hRoom, (Nat.add_assoc _ _ _).symm, rfl, rfl, rfl⟩

theorem grow_of_lt {a : Arena} {n : Nat} (h : a.limit < a.mark + n) :
    ∃ b, a.grow n = (none, b) ∧ b.mark = a.mark ∧ b.limit = a.limit ∧ b.memory = a.memory := by
  have hRoom : ¬ n ≤ a.capacity - a.size := by
    have hSize := a.size_le
    unfold mark limit at h
    omega
  exact ⟨_, dif_neg hRoom, rfl, rfl, rfl⟩

end Arena

namespace Region

/-- What laying out a region of `bytes` bytes does. The bytes up to the aligned address are taken
even if the arena has no room behind them. -/
inductive LaidOut (bytes : Nat) (r : Region) : Bool → Region → Prop where
  | cramped {s : Region} : r.arena.limit < r.arena.aligned → s.size = r.size →
      s.arena.mark = r.arena.mark → s.arena.limit = r.arena.limit → LaidOut bytes r false s
  | short {s : Region} : r.arena.aligned ≤ r.arena.limit →
      r.arena.limit < r.arena.aligned + bytes → s.size = 0 → s.arena.mark = r.arena.aligned →
      s.arena.limit = r.arena.limit → LaidOut bytes r false s
  | done {s : Region} : r.arena.aligned + bytes ≤ r.arena.limit → s.anchor = r.arena.aligned →
      s.arena.mark = r.arena.aligned + bytes → s.arena.limit = r.arena.limit →
      LaidOut bytes r true s

/-- What comes of laying out two regions over one arena: the same, unless there was no room to
anchor them, and each is left as it was. -/
def SameOrLeft (r s : Region) (x y : Bool × Region) : Prop :=
  x = y ∨ ∃ arena, x = (false, { r with arena }) ∧ y = (false, { s with arena })

variable {K : Nat → Prop} {r s t : Region} {n bytes : Nat} {done : Bool}

theorem Grown.limit_eq (h : r.Grown n s) : s.arena.limit = r.arena.limit := by
  rw [Arena.limit, h.base_eq, h.capacity_eq, Arena.limit]

theorem Keeps.limit_eq (h : r.Keeps K s) : s.arena.limit = r.arena.limit := by
  rw [h.shape]
  rfl

theorem LaidOut.of_keeps (h : LaidOut bytes r done s) (ht : s.Keeps K t) :
    LaidOut bytes r done t := by
  cases h with
  | cramped hOver hSize hMark hLimit =>
    exact .cramped hOver (ht.size_eq.trans hSize) (ht.mark_eq.trans hMark)
      (ht.limit_eq.trans hLimit)
  | short hRoom hOver hSize hMark hLimit =>
    exact .short hRoom hOver (ht.size_eq.trans hSize) (ht.mark_eq.trans hMark)
      (ht.limit_eq.trans hLimit)
  | done hRoom hAnchor hMark hLimit =>
    exact .done hRoom (ht.anchor_eq.trans hAnchor) (ht.mark_eq.trans hMark)
      (ht.limit_eq.trans hLimit)

theorem LaidOut.refused (h : LaidOut bytes r false s) :
    r.arena.mark ≤ s.arena.mark ∧ s.arena.mark ≤ r.arena.aligned ∧
      s.size = if r.arena.limit < r.arena.aligned then r.size else 0 := by
  have hAligned := r.arena.mark_le_aligned
  cases h with
  | cramped hOver hSize hMark _ =>
    rw [if_pos hOver, hMark]
    exact ⟨le_rfl, hAligned, hSize⟩
  | short hRoom _ hSize hMark _ =>
    rw [if_neg hRoom.not_gt, hMark]
    exact ⟨hAligned, le_rfl, hSize⟩

/-- A region is anchored at the first aligned address from the mark on, which then is the mark; or
the arena ends before it, and the mark stays, as does the size. -/
theorem reanchor_cases (r : Region) :
    (r.arena.aligned ≤ r.arena.limit ∧ ∃ s, r.reanchor.value = (true, s) ∧
      s.anchor = r.arena.aligned ∧ s.size = 0 ∧ s.arena.mark = r.arena.aligned ∧
      s.arena.base = r.arena.base ∧ s.arena.limit = r.arena.limit ∧
      s.arena.memory = r.arena.memory) ∨
    (r.arena.limit < r.arena.aligned ∧ ∃ s, r.reanchor.value = (false, s) ∧ s.size = r.size ∧
      s.arena.mark = r.arena.mark ∧ s.arena.limit = r.arena.limit ∧
      s.arena.memory = r.arena.memory) := by
  obtain ⟨a, hProbe, hMark, hBase, hLimit, hMemory⟩ :=
    Arena.grow_of_le (a := r.arena) (n := 0) r.arena.mark_le
  have hAligned := r.arena.aligned_eq
  rw [Nat.add_zero] at hMark
  unfold reanchor
  simp only [hProbe]
  rw [hAligned]
  by_cases hZero : alignment.padding r.arena.mark = 0
  · simp only [hZero, if_true]
    exact .inl ⟨r.arena.mark_le, _, rfl, rfl, rfl, hMark, hBase, hLimit, hMemory⟩
  · rw [if_neg hZero, ← hMark, ← hLimit]
    rcases Nat.lt_or_ge a.limit (a.mark + alignment.padding a.mark) with hOver | hRoom
    · obtain ⟨b, hGrow, hMark', hLimit', hMemory'⟩ := Arena.grow_of_lt hOver
      rw [hGrow]
      exact .inr ⟨hOver, _, rfl, rfl, hMark', hLimit', hMemory'.trans hMemory⟩
    · obtain ⟨b, hGrow, hMark', hBase', hLimit', hMemory'⟩ := Arena.grow_of_le hRoom
      rw [hGrow]
      exact .inl ⟨hRoom, _, rfl, rfl, rfl, hMark', hBase'.trans hBase, hLimit',
        hMemory'.trans hMemory⟩

theorem memory_reanchor (r : Region) : r.reanchor.value.2.arena.memory = r.arena.memory := by
  rcases r.reanchor_cases with ⟨_, s, hValue, _, _, _, _, _, hMemory⟩ |
    ⟨_, s, hValue, _, _, _, hMemory⟩
  · rw [hValue]
    exact hMemory
  · rw [hValue]
    exact hMemory

theorem reanchor_congr (h : r.arena = s.arena) :
    SameOrLeft r s r.reanchor.value s.reanchor.value := by
  unfold reanchor
  rw [h]
  rcases s.arena.grow 0 with ⟨_ | mark, a⟩
  · exact .inr ⟨a, rfl, rfl⟩
  · simp only
    split
    · exact .inr ⟨_, rfl, rfl⟩
    · exact .inl rfl

theorem reanchor_value {r s : Region} (h : r.reanchor.value = (true, s)) :
    s.Anchored ∧ s.size = 0 ∧ s.arena.memory = r.arena.memory := by
  rcases r.reanchor_cases with ⟨_, t, hValue, hAnchor, hSize, hMark, hBase, _, hMemory⟩ |
    ⟨_, t, hValue, _⟩
  · obtain rfl := (Prod.mk.inj (hValue.symm.trans h)).2
    refine ⟨⟨?_, ?_, ?_⟩, hSize, hMemory⟩
    · rw [hAnchor, Arena.aligned]
      omega
    · rw [hBase, hAnchor, Arena.aligned, Arena.mark]
      omega
    · rw [hMark, hAnchor, hSize]
      rfl
  · exact Bool.noConfusion (Prod.mk.inj (hValue.symm.trans h)).1

theorem laidOut_cases (r : Region) (bytes : Nat) :
    (∃ s, r.reanchor.value = (false, s) ∧ LaidOut bytes r false s) ∨
    ∃ s, r.reanchor.value = (true, s) ∧
      ((∃ t, (s.grow bytes).value = (none, t) ∧ LaidOut bytes r false t) ∨
        ∃ t, (s.grow bytes).value = (some s.size, t) ∧ LaidOut bytes r true t) := by
  rcases r.reanchor_cases with ⟨hRoom, s, hValue, hAnchor, hEmpty, hMark, _, hLimit, _⟩ |
    ⟨hOver, s, hValue, hSame, hMark, hLimit, _⟩
  · refine .inr ⟨s, hValue, ?_⟩
    have hSize := s.arena.size_le
    rcases s.grow_cases bytes with ⟨hLe, t, hGrow, hGrown⟩ | ⟨hLt, t, hGrow, hGrown⟩
    · refine .inr ⟨t, hGrow, .done ?_ (hGrown.anchor_eq.trans hAnchor) ?_
        (hGrown.limit_eq.trans hLimit)⟩
      · rw [← hMark, ← hLimit, Arena.mark, Arena.limit]
        omega
      · rw [hGrown.mark_eq, hMark]
    · refine .inl ⟨t, hGrow, .short hRoom ?_ (hGrown.size_eq.trans hEmpty) ?_
        (hGrown.limit_eq.trans hLimit)⟩
      · rw [← hMark, ← hLimit, Arena.mark, Arena.limit]
        omega
      · rw [hGrown.mark_eq, hMark, Nat.add_zero]
  · exact .inl ⟨s, hValue, .cramped hOver hSame hMark hLimit⟩

end Region

end BlockHeap
