import BlockHeap.PowerOfTwo
import BlockHeap.Trace.Basic

/-!
# Random traces

Traces made from a seed. Every number is allocated at most once, in increasing order; only live
allocations are freed or reallocated. A trace is well formed if it is such a trace with sizes up to
a limit, which is decided by going through it with the list of live numbers.
-/

namespace BlockHeap

structure Generator where
  state : Nat

namespace Generator

def seeded (seed : Nat) : Generator := ⟨seed % wordLimit⟩

/-- The high half of the next state; the low bits of such a generator have short periods. -/
def next (g : Generator) : Nat × Generator :=
  let state := (g.state * 6364136223846793005 + 1442695040888963407) % wordLimit
  (state >>> 32, ⟨state⟩)

def between (g : Generator) (low high : Nat) : Nat × Generator :=
  let (n, g) := g.next
  (low + n % (high - low + 1), g)

def chance (g : Generator) (tenths : Nat) : Bool × Generator :=
  let (n, g) := g.between 0 9
  (n < tenths, g)

end Generator

/-- The numbers allocated so far are those below `next`; `live` are those not yet freed. -/
structure Census where
  next : Nat := 0
  live : List Nat := []

namespace Census

/-- The census after a request, unless the request does not fit it or has a size above `maxSize`. -/
def step? (maxSize : Nat) (c : Census) : Operation → Option Census
  | .allocate id size =>
    if id = c.next ∧ size ≤ maxSize then some ⟨c.next + 1, id :: c.live⟩ else none
  | .zeroAllocate id count size =>
    if id = c.next ∧ 1 ≤ count ∧ count ≤ 8 ∧ count * size ≤ maxSize then
      some ⟨c.next + 1, id :: c.live⟩
    else none
  | .reallocate id size =>
    if id ∈ c.live ∧ 1 ≤ size ∧ size ≤ max maxSize 1 then some c else none
  | .free id => if id ∈ c.live then some { c with live := c.live.erase id } else none

def request (maxSize : Nat) (c : Census) (g : Generator) : Operation × Generator :=
  let (fresh, g) := g.chance 5
  if fresh || c.live.isEmpty then
    let (zeroed, g) := g.chance 1
    if zeroed then
      let (count, g) := g.between 1 8
      let (size, g) := g.between 0 (maxSize / count)
      (.zeroAllocate c.next count size, g)
    else
      let (size, g) := g.between 0 maxSize
      (.allocate c.next size, g)
  else
    let (index, g) := g.between 0 (c.live.length - 1)
    let id := c.live.getD index 0
    let (freed, g) := g.chance 7
    if freed then (.free id, g)
    else
      let (size, g) := g.between 1 (max maxSize 1)
      (.reallocate id size, g)

end Census

namespace Trace

def census? (maxSize : Nat) (t : Trace) : Option Census := t.foldlM (Census.step? maxSize) {}

def isWellFormed (maxSize : Nat) (t : Trace) : Bool := (t.census? maxSize).isSome

def randomFrom (maxSize : Nat) : (length : Nat) → Census → Generator → Trace
  | 0, _, _ => []
  | length + 1, c, g =>
    let (o, g) := c.request maxSize g
    o :: randomFrom maxSize length ((c.step? maxSize o).getD c) g

/-- A well-formed trace of `length` requests with sizes up to `maxSize`, the same for the same
seed. -/
def random (seed length maxSize : Nat) : Trace :=
  randomFrom maxSize length {} (Generator.seeded seed)

end Trace

end BlockHeap
