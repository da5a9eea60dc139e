import BlockHeap.Implicit.Basic

/-!
# Consistency of an implicit heap

The check follows the headers from the first block. It accepts if every block has a possible size,
an aligned payload and its end inside the heap, and if the walk meets the last block, which ends
where the heap does.
-/

namespace BlockHeap.Implicit

/-- Checks the chain from `block` on; a chain of more than `fuel` blocks cannot fit into the
heap. -/
def checkFrom (r : Region) (last : Nat) : (fuel : Nat) → (block : Nat) → Except HeapError Unit
  | 0, block => .error (.truncatedHeap block r.size)
  | fuel + 1, block =>
    if r.size < block + wordSize then .error (.outOfBounds block wordSize r.size)
    else
      let tag := r.tag block
      let next := block + tag.size
      if ¬ tag.WellSized then .error (.invalidSize block tag.size)
      else if alignment.rem (r.address (block + wordSize)) ≠ 0 then .error (.misaligned block)
      else if r.size < next then .error (.outOfBounds block tag.size r.size)
      else if block = last then
        if next = r.size then .ok () else .error (.truncatedHeap next r.size)
      else if last < next then .error (.truncatedHeap block r.size)
      else checkFrom r last fuel next

def check (r : Region) : Option Span → Except HeapError Unit
  | none => .ok ()
  | some span => checkFrom r span.last r.size span.first

end BlockHeap.Implicit
