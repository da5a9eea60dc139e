import BlockHeap.Explicit.Check
import BlockHeap.Implicit.Check

/-!
# Heaps

A heap owns an arena, carves it into blocks as its strategy says, and offers the operations of
`malloc` and its relatives. Pointers are addresses, and `none` is the null pointer. A heap is laid
out before its first allocation, or when asked to; laying it out again abandons all blocks.
-/

namespace BlockHeap

/-- A strategy together with what it remembers outside the region. -/
inductive Engine where
  | implicit (span : Option Implicit.Span)
  | explicit
deriving DecidableEq

namespace Engine

def new : Strategy → Engine
  | .implicit => .implicit none
  | .explicit => .explicit

def strategy : Engine → Strategy
  | .implicit _ => .implicit
  | .explicit => .explicit

@[simp] theorem strategy_new (s : Strategy) : (new s).strategy = s := by
  cases s <;> rfl

end Engine

structure Heap where
  engine : Engine
  region : Region
  ready : Bool := false

namespace Heap

def new (arena : Arena) (strategy : Strategy) : Heap :=
  { engine := Engine.new strategy, region := { arena } }

def strategy (h : Heap) : Strategy := h.engine.strategy

def arena (h : Heap) : Arena := h.region.arena

def memory (h : Heap) : Memory := h.region.arena.memory

def size (h : Heap) : Nat := h.region.size

def mapMemory (h : Heap) (f : Memory → Memory) : Heap := { h with region := h.region.mapMemory f }

/-- Lays out an empty heap at the mark of the arena. Without room for it, the heap is left without a
layout. -/
def layOut (h : Heap) : Journaled (Except HeapError Unit × Heap) := do
  let (done, region) ←
    match h.strategy with
    | .implicit => Implicit.layOut h.region
    | .explicit => Explicit.layOut h.region
  let h : Heap := { engine := Engine.new h.strategy, region, ready := done }
  if done then
    Journaled.note (.laidOut h.strategy h.size)
    return (.ok (), h)
  else
    Journaled.note (.layOutFailed h.strategy)
    return (.error .exhausted, h)

def prepare (h : Heap) : Journaled Heap :=
  if h.ready then pure h
  else do
    let (_, h) ← h.layOut
    return h

def carve (h : Heap) (n : Nat) : Journaled (Option Nat × Heap) :=
  match h.engine with
  | .implicit span => do
    let (payload, region, span) ← Implicit.allocate h.region span n
    return (payload, { h with engine := .implicit span, region })
  | .explicit => do
    let (payload, region) ← Explicit.allocate h.region n
    return (payload, { h with region })

def release (h : Heap) (payload : Nat) : Journaled Heap :=
  match h.engine with
  | .implicit _ => pure { h with region := Implicit.free h.region payload }
  | .explicit => do
    let region ← Explicit.free h.region payload
    return { h with region }

def allocate (h : Heap) (n : Nat) : Journaled (Option Nat × Heap) := do
  let h ← h.prepare
  if !h.ready then
    return (none, h)
  let (payload, h) ← h.carve n
  match payload with
  | none =>
    Journaled.note (.allocationFailed n h.size)
    return (none, h)
  | some payload =>
    let address := h.region.address payload
    Journaled.note (.allocated n address)
    return (some address, h)

def free (h : Heap) : Option Nat → Journaled Heap
  | none => pure h
  | some address => do
    Journaled.note (.freed address)
    h.release (h.region.offset address)

/-- The bytes that may be used at a pointer, at least as many as were asked for. -/
def usableSize (h : Heap) (address : Nat) : Nat :=
  let payload := h.region.offset address
  match h.engine with
  | .implicit _ => Implicit.capacity h.region payload
  | .explicit => Explicit.capacity h.region payload

/-- Moves a block to one of at least `n` bytes, keeping as many of its bytes as both have room for.
With no block to move this is `allocate`, and with `n = 0` it is `free`. -/
def reallocate (h : Heap) (pointer : Option Nat) (n : Nat) : Journaled (Option Nat × Heap) :=
  match pointer with
  | none => h.allocate n
  | some source =>
    if n = 0 then do
      let h ← h.free (some source)
      return (none, h)
    else do
      let capacity := h.usableSize source
      let (target, h) ← h.allocate n
      match target with
      | none => return (none, h)
      | some target =>
        Journaled.note (.reallocated source capacity target n)
        let h ← (h.mapMemory (·.copy source target (min capacity n))).free (some source)
        return (some target, h)

def zeroAllocate (h : Heap) (count n : Nat) : Journaled (Option Nat × Heap) :=
  if wordLimit ≤ count * n then do
    Journaled.note (.productOverflowed count n)
    return (none, h)
  else do
    let (pointer, h) ← h.allocate (count * n)
    match pointer with
    | none => return (none, h)
    | some address => return (some address, h.mapMemory (·.fill address (count * n) 0))

def verdict (h : Heap) : Except HeapError Unit :=
  if !h.ready then .ok ()
  else
    match h.engine with
    | .implicit span => Implicit.check h.region span
    | .explicit => Explicit.check h.region

def check (h : Heap) : Journaled (Except HeapError Unit) :=
  match h.verdict with
  | .ok () => pure (.ok ())
  | .error .overflow => pure (.error .overflow)
  | .error e => do
    Journaled.note (.corrupted h.strategy e)
    return .error e

@[simp] theorem value_check (h : Heap) : h.check.value = h.verdict := by
  unfold check
  split <;> simp_all

/-- The blocks in address order, with offsets in place of pointers. -/
def blockOffsets (h : Heap) : List Block :=
  if !h.ready then []
  else
    match h.engine with
    | .implicit span => Implicit.blocks h.region span
    | .explicit => Explicit.blocks h.region

def blocks (h : Heap) : List Block :=
  h.blockOffsets.map fun b => { b with payload := h.region.address b.payload }

def statistics (h : Heap) : Statistics := Statistics.ofBlocks h.blocks

end Heap

end BlockHeap
