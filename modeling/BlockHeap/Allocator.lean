import BlockHeap.Heap

/-!
# Allocators

An allocator is a heap over a reservation of its own, and the process-wide heap is an allocator that
is made when it is first needed. The functions of the latter answer as those of a C library do: a
null pointer is freed by doing nothing and has no usable bytes, and a check answers zero or minus
one.
-/

namespace BlockHeap

namespace Allocator

def defaultCapacity : Nat := 1024 * 1024 * 1024

def withCapacity (strategy : Strategy) (capacity : Nat) : Option Heap :=
  (Arena.reserve? capacity).map fun arena => Heap.new arena strategy

def new (strategy : Strategy) : Option Heap := withCapacity strategy defaultCapacity

/-- An allocator over a reservation that has been placed at `base`. -/
def place? (strategy : Strategy) (base : Nat) : Option Heap :=
  (Arena.place? base defaultCapacity).map fun arena => Heap.new arena strategy

end Allocator

/-- The process-wide heap. The platform says where each reservation is placed that is still to come,
or that it refuses it. -/
structure ProcessHeap where
  strategy : Strategy
  heap : Option Heap := none
  places : Nat → Option Nat := fun _ => some Arena.defaultBase

namespace ProcessHeap

/-- Makes an allocator over the next reservation, in place of the one that there may be. -/
def renew (p : ProcessHeap) : ProcessHeap :=
  { p with
    heap := (p.places 0).bind (Allocator.place? p.strategy)
    places := fun i => p.places (i + 1) }

def ensure (p : ProcessHeap) : ProcessHeap := if p.heap.isSome then p else p.renew

/-- Lets an operation that answers a pointer work on the heap; without a heap it answers the null
pointer. -/
def withHeap (p : ProcessHeap) (operation : Heap → Journaled (Option Nat × Heap)) :
    Journaled (Option Nat × ProcessHeap) :=
  let p := p.ensure
  match p.heap with
  | none => pure (none, p)
  | some heap => do
    let (pointer, heap) ← operation heap
    return (pointer, { p with heap })

def reset (p : ProcessHeap) : Journaled (Int × ProcessHeap) :=
  let p := p.renew
  match p.heap with
  | none => pure (-1, p)
  | some heap => do
    let (answer, heap) ← heap.layOut
    return (if answer.isOk then 0 else -1, { p with heap })

def malloc (p : ProcessHeap) (n : Nat) : Journaled (Option Nat × ProcessHeap) :=
  p.withHeap (·.allocate n)

def calloc (p : ProcessHeap) (count n : Nat) : Journaled (Option Nat × ProcessHeap) :=
  p.withHeap (·.zeroAllocate count n)

def realloc (p : ProcessHeap) (pointer : Option Nat) (n : Nat) :
    Journaled (Option Nat × ProcessHeap) :=
  p.withHeap (·.reallocate pointer n)

def free (p : ProcessHeap) : Option Nat → Journaled ProcessHeap
  | none => pure p
  | some address =>
    let p := p.ensure
    match p.heap with
    | none => pure p
    | some heap => do
      let heap ← heap.free (some address)
      return { p with heap }

/-- The usable bytes at a pointer. Asking also makes a heap, if there is none. -/
def usableSize (p : ProcessHeap) (pointer : Option Nat) : Nat × ProcessHeap :=
  let p := p.ensure
  match pointer, p.heap with
  | some address, some heap => (heap.usableSize address, p)
  | _, _ => (0, p)

/-- Checks the heap, if there is one; on request its statistics are noted first. -/
def checkHeap (p : ProcessHeap) (verbose : Bool) : Journaled Int :=
  match p.heap with
  | none => pure 0
  | some heap => do
    if verbose then
      Journaled.note (.inspected heap.strategy heap.size heap.statistics)
    match ← heap.check with
    | .ok () => return 0
    | .error e =>
      Journaled.note (.inspectionFailed e)
      return -1

def mapMemory (p : ProcessHeap) (f : Memory → Memory) : ProcessHeap :=
  { p with heap := p.heap.map (·.mapMemory f) }

end ProcessHeap

end BlockHeap
