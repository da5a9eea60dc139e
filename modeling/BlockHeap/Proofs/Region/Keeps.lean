import BlockHeap.Region

/-!
# What operations on a region keep

Writing to a region changes its memory and nothing else. `Keeps K` says this, and that the bytes at
the addresses in `K` stay as they are; since sequences of writes compose, the frame of an operation
is the frame of each of its writes. Growing a region leaves the memory alone.
-/

namespace BlockHeap

def Memory.Agree (K : Nat → Prop) (m n : Memory) : Prop := ∀ x, K x → n.byte x = m.byte x

theorem Memory.Agree.refl (K : Nat → Prop) (m : Memory) : m.Agree K m := fun _ _ => rfl

theorem Memory.Agree.trans {K : Nat → Prop} {m n o : Memory} (h : m.Agree K n) (h' : n.Agree K o) :
    m.Agree K o := fun x hx => (h' x hx).trans (h x hx)

theorem Memory.Agree.mono {K L : Nat → Prop} {m n : Memory} (h : m.Agree K n)
    (hL : ∀ x, L x → K x) :
    m.Agree L n := fun x hx => h x (hL x hx)

theorem Memory.agree_fill (m : Memory) (a count : Nat) (b : UInt8) :
    m.Agree (fun x => ¬ (a ≤ x ∧ x < a + count)) (m.fill a count b) := fun x hx =>
  (Memory.byte_fill m a count x b).trans (if_neg hx)

theorem Memory.agree_copy (m : Memory) (source target count : Nat) :
    m.Agree (fun x => ¬ (target ≤ x ∧ x < target + count)) (m.copy source target count) :=
  fun x hx => (Memory.byte_copy m source target count x).trans (if_neg hx)

namespace Region

def WordAt (r : Region) (o x : Nat) : Prop := r.address o ≤ x ∧ x < r.address o + wordSize

theorem WordAt.disjoint {r : Region} {o p x : Nat} (h : o + wordSize ≤ p ∨ p + wordSize ≤ o)
    (hp : r.WordAt p x) : ¬ r.WordAt o x := by
  unfold WordAt address at *
  omega

structure Keeps (K : Nat → Prop) (r s : Region) : Prop where
  shape : s = r.mapMemory fun _ => s.arena.memory
  agree : r.arena.memory.Agree K s.arena.memory

variable {K L : Nat → Prop} {r s t : Region} {o p v : Nat}

theorem Keeps.refl (K : Nat → Prop) (r : Region) : r.Keeps K r := ⟨rfl, fun _ _ => rfl⟩

theorem Keeps.trans (h : r.Keeps K s) (h' : s.Keeps K t) : r.Keeps K t := by
  refine ⟨?_, h.agree.trans h'.agree⟩
  rw [h'.shape, h.shape]
  rfl

theorem Keeps.mono (h : r.Keeps K s) (hL : ∀ x, L x → K x) : r.Keeps L s :=
  ⟨h.shape, h.agree.mono hL⟩

theorem Keeps.anchor_eq (h : r.Keeps K s) : s.anchor = r.anchor := by
  rw [h.shape]
  rfl

theorem Keeps.size_eq (h : r.Keeps K s) : s.size = r.size := by
  rw [h.shape]
  rfl

theorem Keeps.mark_eq (h : r.Keeps K s) : s.arena.mark = r.arena.mark := by
  rw [h.shape]
  rfl

theorem Keeps.base_eq (h : r.Keeps K s) : s.arena.base = r.arena.base := by
  rw [h.shape]
  rfl

theorem Keeps.word_eq (h : r.Keeps K s) (hK : ∀ x, r.WordAt o x → K x) : s.word o = r.word o := by
  have hAnchor : s.address o = r.address o := by rw [address, address, h.anchor_eq]
  rw [word, word, hAnchor]
  exact Memory.word_congr fun x hl hu => h.agree x (hK x ⟨hl, hu⟩)

theorem Keeps.tag_eq (h : r.Keeps K s) (hK : ∀ x, r.WordAt o x → K x) : s.tag o = r.tag o := by
  rw [tag, tag, h.word_eq hK]

theorem keeps_mapMemory {f : Memory → Memory} (h : r.arena.memory.Agree K (f r.arena.memory)) :
    r.Keeps K (r.mapMemory f) := ⟨rfl, h⟩

theorem keeps_setWord (h : ∀ x, r.WordAt o x → ¬ K x) : r.Keeps K (r.setWord o v) := by
  refine keeps_mapMemory fun x hx => Memory.byte_setWord_of_disjoint _ _ ?_
  have hNot : ¬ r.WordAt o x := fun hIn => h x hIn hx
  unfold WordAt at hNot
  omega

theorem keeps_setTag {T : Tag} (h : ∀ x, r.WordAt o x → ¬ K x) : r.Keeps K (r.setTag o T) :=
  keeps_setWord h

/-- The region lies in its arena, from an aligned address up to the mark. -/
structure Anchored (r : Region) : Prop where
  aligned : r.anchor % 16 = 0
  base_le : r.arena.base ≤ r.anchor
  mark_eq : r.arena.mark = r.anchor + r.size

theorem Keeps.anchored (h : r.Keeps K s) (hr : r.Anchored) : s.Anchored := by
  rw [h.shape]
  exact ⟨hr.aligned, hr.base_le, hr.mark_eq⟩

theorem Anchored.end_lt (h : r.Anchored) : r.anchor + r.size < wordLimit := by
  have hMark := h.mark_eq
  have hSize := r.arena.size_le
  have hEnd := r.arena.end_lt
  unfold Arena.mark at hMark
  omega

theorem Anchored.mapMemory (h : r.Anchored) (f : Memory → Memory) : (r.mapMemory f).Anchored :=
  ⟨h.aligned, h.base_le, h.mark_eq⟩

theorem Anchored.size_lt (h : r.Anchored) : r.size + 16 < wordLimit := by
  have hAligned := h.aligned
  have hBase := h.base_le
  have hPos := r.arena.base_pos
  have hEnd := h.end_lt
  omega

def blank : Region where
  arena := {
    base := 4096
    capacity := 4096
    size := 96
    base_pos := by decide
    base_aligned := by decide
    end_lt := by decide }
  anchor := 4096
  size := 96

theorem Anchored.size_eq_iff (hr : r.Anchored) (hs : s.Anchored) (hAnchor : s.anchor = r.anchor) :
    s.size = r.size ↔ s.arena.mark = r.arena.mark := by
  rw [hr.mark_eq, hs.mark_eq, hAnchor]
  exact Nat.add_left_cancel_iff.symm

/-- The region has grown by `n` bytes, and the memory is as before. -/
structure Grown (n : Nat) (r s : Region) : Prop where
  anchor_eq : s.anchor = r.anchor
  size_eq : s.size = r.size + n
  memory_eq : s.arena.memory = r.arena.memory
  base_eq : s.arena.base = r.arena.base
  capacity_eq : s.arena.capacity = r.arena.capacity
  taken_eq : s.arena.size = r.arena.size + n

theorem Grown.refl (r : Region) : r.Grown 0 r := ⟨rfl, rfl, rfl, rfl, rfl, rfl⟩

theorem Grown.mark_eq {n : Nat} (h : r.Grown n s) : s.arena.mark = r.arena.mark + n := by
  rw [Arena.mark, h.base_eq, h.taken_eq, Arena.mark, Nat.add_assoc]

theorem Grown.anchored {n : Nat} (h : r.Grown n s) (hr : r.Anchored) : s.Anchored where
  aligned := h.anchor_eq ▸ hr.aligned
  base_le := by
    rw [h.base_eq, h.anchor_eq]
    exact hr.base_le
  mark_eq := by
    rw [h.mark_eq, hr.mark_eq, h.anchor_eq, h.size_eq, Nat.add_assoc]

theorem Grown.word_eq {n : Nat} (h : r.Grown n s) (o : Nat) : s.word o = r.word o := by
  rw [word, word, address, address, h.memory_eq, h.anchor_eq]

theorem Grown.tag_eq {n : Nat} (h : r.Grown n s) (o : Nat) : s.tag o = r.tag o := by
  rw [tag, tag, h.word_eq]

theorem grow_cases (r : Region) (n : Nat) :
    (n ≤ r.arena.capacity - r.arena.size ∧ ∃ s, (r.grow n).value = (some r.size, s) ∧ r.Grown n s) ∨
    (r.arena.capacity - r.arena.size < n ∧ ∃ s, (r.grow n).value = (none, s) ∧ r.Grown 0 s) := by
  unfold grow Arena.grow
  by_cases h : n ≤ r.arena.capacity - r.arena.size
  · rw [dif_pos h]
    exact .inl ⟨h, _, rfl, ⟨rfl, rfl, rfl, rfl, rfl, rfl⟩⟩
  · rw [dif_neg h]
    exact .inr ⟨by omega, _, rfl, ⟨rfl, rfl, rfl, rfl, rfl, rfl⟩⟩

end Region

end BlockHeap
