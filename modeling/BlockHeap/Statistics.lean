/-!
# Blocks and statistics

A block as a client sees it: where its payload starts, how many bytes the payload has, and whether
it is allocated. The statistics of a heap are collected from its blocks.
-/

namespace BlockHeap

structure Block where
  payload : Nat
  size : Nat
  allocated : Bool
deriving DecidableEq

structure Statistics where
  blocks : Nat := 0
  allocatedBlocks : Nat := 0
  freeBlocks : Nat := 0
  allocatedBytes : Nat := 0
  freeBytes : Nat := 0
  largestFree : Nat := 0
deriving DecidableEq

namespace Statistics

def record (s : Statistics) (b : Block) : Statistics :=
  if b.allocated then
    { s with
      blocks := s.blocks + 1
      allocatedBlocks := s.allocatedBlocks + 1
      allocatedBytes := s.allocatedBytes + b.size }
  else
    { s with
      blocks := s.blocks + 1
      freeBlocks := s.freeBlocks + 1
      freeBytes := s.freeBytes + b.size
      largestFree := max s.largestFree b.size }

def ofBlocks (bs : List Block) : Statistics := bs.foldl record {}

def text (s : Statistics) : String :=
  s!"HeapStatistics \x7b blocks: {s.blocks}, allocated_blocks: {s.allocatedBlocks}, " ++
  s!"free_blocks: {s.freeBlocks}, allocated_bytes: {s.allocatedBytes}, " ++
  s!"free_bytes: {s.freeBytes}, largest_free: {s.largestFree} \x7d"

end Statistics

end BlockHeap
