import BlockHeap.Memory.Basic

/-!
# Arenas

An arena is a stretch of the address space that is handed out from its start upwards and never taken
back. Asking for no bytes answers the mark, where the next bytes will come from. An arena also
counts how often it was asked, and how often it gave at least one byte.
-/

namespace BlockHeap

structure Arena where
  base : Nat
  capacity : Nat
  size : Nat := 0
  /-- Contents of the whole address space; an arena owns the part from its base on. -/
  memory : Memory := {}
  calls : Nat := 0
  grows : Nat := 0
  base_pos : 0 < base
  base_aligned : base % 16 = 0
  end_lt : base + capacity < wordLimit
  size_le : size ≤ capacity := by omega

namespace Arena

/-- Where arenas are placed by default: a page of memory, away from the null address. -/
def defaultBase : Nat := 65536

/-- Addresses that can be reserved lie below this limit. -/
def reservable : Nat := 1 <<< 47

/-- An arena of `capacity` bytes at `base`, if that is an aligned address and the end is one too. -/
def place? (base capacity : Nat) : Option Arena :=
  if h : 0 < base ∧ base % 16 = 0 ∧ base + capacity < wordLimit then
    some { base, capacity, base_pos := h.1, base_aligned := h.2.1, end_lt := h.2.2 }
  else none

/-- An arena over a buffer of `capacity` bytes, rounded up to a multiple of 16. -/
def buffer? (capacity : Nat) : Option Arena := place? defaultBase ((capacity + 15) / 16 * 16)

/-- An arena over a reserved part of the address space, which must neither be empty nor too
large. -/
def reserve? (capacity : Nat) : Option Arena :=
  if capacity = 0 ∨ reservable < defaultBase + capacity then none else place? defaultBase capacity

def mark (a : Arena) : Nat := a.base + a.size

def grow (a : Arena) (bytes : Nat) : Option Nat × Arena :=
  if h : bytes ≤ a.capacity - a.size then
    (some a.mark,
      { a with
        size := a.size + bytes
        calls := a.calls + 1
        grows := if bytes = 0 then a.grows else a.grows + 1
        size_le := by have := a.size_le; omega })
  else (none, { a with calls := a.calls + 1 })

def contains (a : Arena) (address : Nat) : Bool := a.base ≤ address && address < a.mark

end Arena

end BlockHeap
