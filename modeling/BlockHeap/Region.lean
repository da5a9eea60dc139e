import BlockHeap.Arena
import BlockHeap.Journal
import BlockHeap.Tag

/-!
# Regions

A region is the part of an arena that belongs to the current heap. It starts at its anchor, the
first aligned address at or above the mark of the arena when the heap was laid out, and grows with
the arena. Blocks and links are offsets from the anchor; only the region turns them into addresses.
-/

namespace BlockHeap

structure Region where
  arena : Arena
  anchor : Nat := 0
  size : Nat := 0

namespace Region

def address (r : Region) (offset : Nat) : Nat := r.anchor + offset

def offset (r : Region) (address : Nat) : Nat := address - r.anchor

def word (r : Region) (offset : Nat) : Nat := r.arena.memory.word (r.address offset)

def tag (r : Region) (offset : Nat) : Tag := Tag.ofWord (r.word offset)

def mapMemory (r : Region) (f : Memory → Memory) : Region :=
  { r with arena := { r.arena with memory := f r.arena.memory } }

def setWord (r : Region) (offset value : Nat) : Region :=
  r.mapMemory (·.setWord (r.address offset) value)

def setTag (r : Region) (offset : Nat) (t : Tag) : Region := r.setWord offset t.word

/-- Starts an empty region at the mark of the arena, skipping bytes up to an aligned address. When
the arena refuses those, the region stays as it was. -/
def reanchor (r : Region) : Journaled (Bool × Region) :=
  match r.arena.grow 0 with
  | (none, arena) => pure (false, { r with arena })
  | (some mark, arena) =>
    let padding := alignment.padding mark
    match if padding = 0 then (some mark, arena) else arena.grow padding with
    | (none, arena) => pure (false, { r with arena })
    | (some _, arena) => do
      Journaled.note (.anchored (mark + padding))
      pure (true, ⟨arena, mark + padding, 0⟩)

/-- Appends `bytes` bytes to the region, answering the offset of the first, or leaves it as it
was. -/
def grow (r : Region) (bytes : Nat) : Journaled (Option Nat × Region) :=
  match r.arena.grow bytes with
  | (none, arena) => pure (none, { r with arena })
  | (some _, arena) => do
    Journaled.note (.grown bytes r.size (r.size + bytes))
    pure (some r.size, { r with arena, size := r.size + bytes })

@[simp] theorem anchor_mapMemory (r : Region) (f : Memory → Memory) :
    (r.mapMemory f).anchor = r.anchor := rfl

@[simp] theorem size_mapMemory (r : Region) (f : Memory → Memory) : (r.mapMemory f).size = r.size :=
  rfl

@[simp] theorem memory_mapMemory (r : Region) (f : Memory → Memory) :
    (r.mapMemory f).arena.memory = f r.arena.memory := rfl

@[simp] theorem anchor_setWord (r : Region) (o v : Nat) : (r.setWord o v).anchor = r.anchor := rfl

@[simp] theorem size_setWord (r : Region) (o v : Nat) : (r.setWord o v).size = r.size := rfl

@[simp] theorem anchor_setTag (r : Region) (o : Nat) (t : Tag) : (r.setTag o t).anchor = r.anchor :=
  rfl

@[simp] theorem size_setTag (r : Region) (o : Nat) (t : Tag) : (r.setTag o t).size = r.size := rfl

theorem word_lt (r : Region) (o : Nat) : r.word o < wordLimit := Memory.word_lt _ _

theorem word_setWord (r : Region) {v : Nat} (o : Nat) (h : v < wordLimit) :
    (r.setWord o v).word o = v :=
  (Memory.word_setWord _ _ _).trans (Nat.mod_eq_of_lt h)

theorem word_setWord_of_disjoint (r : Region) (v : Nat) {o p : Nat}
    (h : p + wordSize ≤ o ∨ o + wordSize ≤ p) : (r.setWord o v).word p = r.word p := by
  apply Memory.word_setWord_of_disjoint
  simp only [address, anchor_setWord]
  omega

theorem tag_setTag (r : Region) {t : Tag} (o : Nat) (h : t.size % 2 = 0)
    (hlt : t.word < wordLimit) :
    (r.setTag o t).tag o = t := by
  rw [tag, setTag, word_setWord r o hlt, Tag.ofWord_word t h]

theorem tag_setTag_of_disjoint (r : Region) (t : Tag) {o p : Nat}
    (h : p + wordSize ≤ o ∨ o + wordSize ≤ p) : (r.setTag o t).tag p = r.tag p := by
  rw [tag, setTag, word_setWord_of_disjoint r _ h, tag]

end Region

end BlockHeap
