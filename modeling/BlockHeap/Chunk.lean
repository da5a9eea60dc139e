import BlockHeap.Tag

/-!
# Chunks

A chunk is a block as its strategy finds it in memory: the offset at which it starts, and its tag.
Merging replaces each maximal run of free neighbours by one free chunk, and each boundary that
disappears adds `gap` bytes, the overhead that stood there.
-/

namespace BlockHeap

structure Chunk where
  offset : Nat
  tag : Tag
deriving DecidableEq

namespace Chunk

abbrev size (c : Chunk) : Nat := c.tag.size

abbrev allocated (c : Chunk) : Bool := c.tag.allocated

def fits (need : Nat) (c : Chunk) : Bool := !c.allocated && need ≤ c.size

def mergeRuns (gap : Nat) : List Chunk → List Chunk
  | [] => []
  | c :: rest =>
    match mergeRuns gap rest with
    | [] => [c]
    | d :: merged =>
      if c.allocated || d.allocated then c :: d :: merged
      else ⟨c.offset, c.size + gap + d.size, false⟩ :: merged

end Chunk

end BlockHeap
