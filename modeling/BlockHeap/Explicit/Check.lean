import BlockHeap.Explicit.Basic

/-!
# Consistency of an explicit heap

The check walks the blocks from the prologue to the epilogue, comparing headers with footers and
refusing free neighbours, and counts the free blocks. Then it walks the free list, which must hold
that many nodes, each the payload of a free block.
-/

namespace BlockHeap.Explicit

/-- Checks the chain from `block` on, after `freeBlocks` free blocks, of which `previousFree` is the
block just before, if it is free. Answers the number of free blocks; a chain of more than `fuel`
blocks cannot fit. -/
def checkChain (r : Region) :
    (fuel : Nat) → (block freeBlocks : Nat) → (previousFree : Option Nat) → Except HeapError Nat
  | 0, block, _, _ => .error (.truncatedHeap (header block) r.size)
  | fuel + 1, block, freeBlocks, previousFree =>
    if r.size < header block + wordSize then .error (.truncatedHeap (header block) r.size)
    else
      let tag := r.tag (header block)
      let footer := payload block + tag.size
      if tag.size = 0 then
        if !tag.allocated then .error (.badSentinel (header block))
        else if header block + wordSize ≠ r.size then
          .error (.truncatedHeap (header block + wordSize) r.size)
        else .ok freeBlocks
      else if ¬ tag.WellSized then .error (.invalidSize block tag.size)
      else if alignment.rem (r.address (payload block)) ≠ 0 then .error (.misaligned block)
      else if wordLimit ≤ footer then .error (.outOfBounds block tag.size r.size)
      else if wordLimit ≤ footer + 2 * wordSize then .error .overflow
      else if r.size < footer + 2 * wordSize then .error (.outOfBounds block tag.size r.size)
      else if r.tag footer ≠ tag then .error (.tagMismatch block)
      else if tag.allocated then checkChain r fuel footer freeBlocks none
      else
        match previousFree with
        | some previous => .error (.adjacentFree previous)
        | none => checkChain r fuel footer (freeBlocks + 1) (some block)

def isFreeNode (r : Region) (node : Nat) : Bool :=
  let tag := r.tag (node - wordSize)
  !tag.allocated && decide tag.WellSized

def check (r : Region) : Except HeapError Unit :=
  if r.size = 0 then .ok ()
  else if r.tag prologue ≠ Tag.sentinel then .error (.badSentinel prologue)
  else
    match checkChain r r.size prologue 0 none with
    | .error e => .error e
    | .ok freeBlocks => freeList.check r (payload prologue) freeBlocks (isFreeNode r)

end BlockHeap.Explicit
