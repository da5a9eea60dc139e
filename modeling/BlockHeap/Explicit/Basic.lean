import BlockHeap.Chunk
import BlockHeap.FreeList

/-!
# The explicit strategy

The heap starts with the two sentinels of the free list and the prologue, and ends with the
epilogue. A block starts with the footer of its predecessor, or the prologue; then follow its own
header, its payload and its footer. Sizes are sizes of payloads, and header and footer are equal, so
both neighbours of a block can be found. Freeing merges a block with its free neighbours at once;
allocation takes the newest free block that is large enough.
-/

namespace BlockHeap.Explicit

def freeList : FreeList := ⟨0, FreeList.nodeSize⟩

/-- The offset of the prologue, which is also where the first block starts. -/
def prologue : Nat := 2 * FreeList.nodeSize

def minimumSize : Nat := FreeList.nodeSize

/-- The bytes of a block besides its payload: a header and a footer. -/
def overhead : Nat := alignment.value

/-- The payload of a block for `n` bytes, if it is a word. -/
def required? (n : Nat) : Option Nat := (alignment.roundUp? n).map (max minimumSize)

def header (block : Nat) : Nat := block + wordSize

def payload (block : Nat) : Nat := block + alignment.value

def blockOf (payload : Nat) : Nat := payload - alignment.value

def size (r : Region) (block : Nat) : Nat := (r.tag (header block)).size

def nextOf (r : Region) (block : Nat) : Nat := payload block + size r block

def previousOf (r : Region) (block : Nat) : Nat := block - (r.tag block).size - alignment.value

def isPreviousFree (r : Region) (block : Nat) : Bool := !(r.tag block).allocated

/-- Whether the block after is free; the epilogue, having no size, never is. -/
def isNextFree (r : Region) (block : Nat) : Bool :=
  let tag := r.tag (header (nextOf r block))
  tag.size != 0 && !tag.allocated

def setTags (r : Region) (block : Nat) (tag : Tag) : Region :=
  (r.setTag (header block) tag).setTag (payload block + tag.size) tag

/-- The chunks from `block` up to the epilogue; no more than `fuel` of them. -/
def chunksFrom (r : Region) : (fuel : Nat) → (block : Nat) → List Chunk
  | 0, _ => []
  | fuel + 1, block =>
    let tag := r.tag (header block)
    if tag.size = 0 then [] else ⟨block, tag⟩ :: chunksFrom r fuel (payload block + tag.size)

def chunks (r : Region) : List Chunk := chunksFrom r r.size prologue

def block (c : Chunk) : Block := ⟨payload c.offset, c.size, c.allocated⟩

def blocks (r : Region) : List Block := (chunks r).map block

def chunkAt (r : Region) (node : Nat) : Chunk := ⟨blockOf node, r.tag (header (blockOf node))⟩

/-- The most recently freed chunk of at least `need` bytes. The search ends there, whatever the
links beyond. -/
def findFit? (r : Region) (need : Nat) : Option Chunk :=
  (freeList.findNewest? r fun node => need ≤ (chunkAt r node).size).map (chunkAt r)

/-- Allocates `need` bytes at the start of a listed free chunk. What is left becomes a free block,
if it has room for its tags and a node. -/
def place (r : Region) (c : Chunk) (need : Nat) : Journaled Region := do
  let r := FreeList.remove r (payload c.offset)
  if c.size - need < overhead + minimumSize then
    return setTags r c.offset ⟨c.size, true⟩
  let remainder := payload c.offset + need
  let leftover := c.size - need - overhead
  Journaled.note (.split c.offset c.size remainder leftover)
  let r := setTags (setTags r c.offset ⟨need, true⟩) remainder ⟨leftover, false⟩
  return freeList.push r (payload remainder)

/-- Makes a block swallow what follows it, so that its payload has `merged` bytes. -/
def absorb (r : Region) (survivor merged : Nat) : Journaled Region := do
  Journaled.note (.merged survivor merged)
  return setTags r survivor ⟨merged, false⟩

/-- Merges a block, free and listed, with its free neighbours. The block with the lowest offset
survives: it keeps its place in the free list, and the others leave the list. -/
def coalesce (r : Region) (block : Nat) : Journaled Region :=
  let previous := previousOf r block
  let next := nextOf r block
  let own := size r block
  match isPreviousFree r block, isNextFree r block with
  | false, false => pure r
  | true, false =>
    let r := FreeList.remove r (payload block)
    absorb r previous (size r previous + overhead + own)
  | false, true =>
    let r := FreeList.remove r (payload next)
    absorb r block (own + overhead + size r next)
  | true, true =>
    let r := FreeList.remove (FreeList.remove r (payload block)) (payload next)
    absorb r previous (size r previous + own + size r next + 2 * overhead)

def layOut (r : Region) : Journaled (Bool × Region) := do
  let (anchored, r) ← r.reanchor
  if !anchored then
    return (false, r)
  let (fresh, r) ← r.grow (2 * FreeList.nodeSize + 2 * wordSize)
  if fresh.isNone then
    return (false, r)
  let r := (r.setTag prologue Tag.sentinel).setTag (header prologue) Tag.sentinel
  return (true, freeList.layOut r)

/-- Appends an allocated block of `need` bytes: the epilogue becomes its header, and a new one
follows. -/
def append (r : Region) (need : Nat) : Journaled (Option Nat × Region) := do
  if wordLimit ≤ need + overhead then
    return (none, r)
  let (fresh, r) ← r.grow (need + overhead)
  let some fresh := fresh | return (none, r)
  let block := fresh - overhead
  let r := setTags r block ⟨need, true⟩
  return (some (payload block), r.setTag (header (nextOf r block)) Tag.sentinel)

def allocate (r : Region) (n : Nat) : Journaled (Option Nat × Region) := do
  let some need := required? n | return (none, r)
  match findFit? r need with
  | some c =>
    let r ← place r c need
    return (some (payload c.offset), r)
  | none => append r need

def free (r : Region) (payload : Nat) : Journaled Region :=
  let block := blockOf payload
  let r := setTags r block ⟨size r block, false⟩
  coalesce (freeList.push r payload) block

def capacity (r : Region) (payload : Nat) : Nat := size r (blockOf payload)

end BlockHeap.Explicit
