import BlockHeap.Chunk
import BlockHeap.Region

/-!
# The implicit strategy

A block is a header followed by its payload, and its size counts the header: it is the stride to the
next block. The heap itself is the list of blocks, from the first to the last. Freeing clears a
flag; before each allocation a sweep merges every run of free neighbours, and the lowest block that
is large enough is taken.
-/

namespace BlockHeap.Implicit

structure Span where
  first : Nat
  last : Nat
deriving DecidableEq

/-- The size of a block for a payload of `n` bytes, if it is a word. -/
def required? (n : Nat) : Option Nat :=
  if n + wordSize < wordLimit then alignment.roundUp? (n + wordSize) else none

/-- The chunks from `block` up to the one at `last`; no more than `fuel` of them. -/
def chunksFrom (r : Region) (last : Nat) : (fuel : Nat) → (block : Nat) → List Chunk
  | 0, _ => []
  | fuel + 1, block =>
    let tag := r.tag block
    let next := block + tag.size
    ⟨block, tag⟩ :: if next ≤ last then chunksFrom r last fuel next else []

/-- The chunks of the heap in address order; each has at least one byte, so there are no more than
bytes. -/
def chunks (r : Region) : Option Span → List Chunk
  | none => []
  | some span => chunksFrom r span.last r.size span.first

def block (c : Chunk) : Block := ⟨c.offset + wordSize, c.size - wordSize, c.allocated⟩

def blocks (r : Region) (span : Option Span) : List Block := (chunks r span).map block

/-- Writes the header of a merged chunk, unless it is already there. -/
def writeMerged (r : Region) (c : Chunk) : Journaled Region := do
  let before := (r.tag c.offset).size
  if before = c.size then
    return r
  Journaled.note (.swept c.offset before c.size)
  return r.setTag c.offset c.tag

/-- Where the last block starts when `found` has become `merged`: a run that ends with it starts
earlier. -/
def Span.lastAfter (s : Span) (found merged : List Chunk) : Nat :=
  if found.getLast?.map Chunk.offset = some s.last then
    (merged.getLast?.map Chunk.offset).getD s.last
  else s.last

/-- Merges every run of free neighbours, answering the chunks that are then there. -/
def sweep (r : Region) (span : Option Span) : Journaled (List Chunk × Region × Option Span) := do
  let found := chunks r span
  let merged := Chunk.mergeRuns 0 found
  let r ← merged.foldlM writeMerged r
  return (merged, r, span.map fun s => { s with last := s.lastAfter found merged })

/-- Allocates `need` bytes at the start of a free chunk. What is left becomes a free block, if any
is. -/
def place (r : Region) (span : Option Span) (c : Chunk) (need : Nat) :
    Journaled (Region × Option Span) := do
  let leftover := c.size - need
  if leftover < alignment.value then
    return (r.setTag c.offset ⟨c.size, true⟩, span)
  let remainder := c.offset + need
  Journaled.note (.split c.offset c.size remainder leftover)
  let r := (r.setTag c.offset ⟨need, true⟩).setTag remainder ⟨leftover, false⟩
  return (r, span.map fun s => if s.last = c.offset then { s with last := remainder } else s)

def extend (span : Option Span) (block : Nat) : Span :=
  match span with
  | none => ⟨block, block⟩
  | some s => { s with last := block }

/-- Lays out an empty heap: the first payload follows the first header, so the header ends at a
boundary. -/
def layOut (r : Region) : Journaled (Bool × Region) := do
  let (anchored, r) ← r.reanchor
  if !anchored then
    return (false, r)
  let (fresh, r) ← r.grow (alignment.value - wordSize)
  return (fresh.isSome, r)

def allocate (r : Region) (span : Option Span) (n : Nat) :
    Journaled (Option Nat × Region × Option Span) := do
  let some need := required? n | return (none, r, span)
  let (merged, r, span) ← sweep r span
  match merged.find? (Chunk.fits need) with
  | some c =>
    let (r, span) ← place r span c need
    return (some (c.offset + wordSize), r, span)
  | none =>
    let (fresh, r) ← r.grow need
    let some block := fresh | return (none, r, span)
    return (some (block + wordSize), r.setTag block ⟨need, true⟩, some (extend span block))

def free (r : Region) (payload : Nat) : Region :=
  let block := payload - wordSize
  r.setTag block ⟨(r.tag block).size, false⟩

def capacity (r : Region) (payload : Nat) : Nat := (r.tag (payload - wordSize)).size - wordSize

end BlockHeap.Implicit
