import BlockHeap.Text.Hex

/-!
# Errors of a heap

What can be wrong with a heap: the arena has no room for it, or a consistency check found a
violation. Offsets are relative to the anchor of the heap, and a block is named by the offset at
which it starts.
-/

namespace BlockHeap

inductive HeapError where
  | exhausted
  | misaligned (offset : Nat)
  | invalidSize (offset size : Nat)
  | outOfBounds (offset size heapSize : Nat)
  | truncatedHeap (offset heapSize : Nat)
  | badSentinel (offset : Nat)
  | tagMismatch (offset : Nat)
  | adjacentFree (offset : Nat)
  | brokenLink (node : Nat)
  | unlistedFree (freeBlocks listed : Nat)
  /-- The end of a block could not be computed: the sum does not fit in a word, and the check was
  given up. -/
  | overflow
deriving DecidableEq

def HeapError.message : HeapError → String
  | .exhausted => "arena exhausted"
  | .misaligned offset => s!"block at {hex offset} has a misaligned payload"
  | .invalidSize offset size => s!"block at {hex offset} has invalid size {size}"
  | .outOfBounds offset size heapSize =>
    s!"block at {hex offset} of size {size} overruns heap of {heapSize} bytes"
  | .truncatedHeap offset heapSize =>
      s!"block walk stopped at {hex offset} in heap of {heapSize} bytes"
  | .badSentinel offset => s!"sentinel at {hex offset} is not a zero-sized allocated tag"
  | .tagMismatch offset => s!"block at {hex offset} has mismatched header and footer"
  | .adjacentFree offset => s!"block at {hex offset} and its successor are both free"
  | .brokenLink node => s!"free list node at {hex node} is corrupted"
  | .unlistedFree freeBlocks listed =>
      s!"{freeBlocks} free blocks in heap, but {listed} in free list"
  | .overflow => "attempt to add with overflow"

theorem HeapError.guard_eq_ok_iff {α : Type} {p : Prop} [Decidable p] {e : HeapError}
    {verdict : Except HeapError α} {a : α} :
    (if p then .error e else verdict) = .ok a ↔ ¬ p ∧ verdict = .ok a := by
  split
  · next h => exact ⟨nofun, fun hOk => (hOk.1 h).elim⟩
  · next h => exact (and_iff_right h).symm

end BlockHeap
