import BlockHeap.Region

/-!
# Free lists

A free list is a chain of nodes between two sentinels, linked both ways. A node is two words: the
offset of the previous node, then that of the next one. The sentinels are never free blocks, and
only they have links that lead out of the list. Nodes are pushed before the last sentinel, so the
newest is the last.
-/

namespace BlockHeap

structure FreeList where
  first : Nat
  last : Nat
deriving DecidableEq

namespace FreeList

def nodeSize : Nat := 2 * wordSize

/-- The link of a sentinel that leads out of the list: no offset at all. -/
def nil : Nat := wordLimit - 1

def prev (r : Region) (node : Nat) : Nat := r.word node

def next (r : Region) (node : Nat) : Nat := r.word (node + wordSize)

def setPrev (r : Region) (node target : Nat) : Region := r.setWord node target

def setNext (r : Region) (node target : Nat) : Region := r.setWord (node + wordSize) target

def layOut (l : FreeList) (r : Region) : Region :=
  let r := setNext (setPrev r l.first nil) l.first l.last
  setNext (setPrev r l.last l.first) l.last nil

/-- The nodes from `node` on, following the previous links up to the first sentinel; no more than
`fuel`. -/
def olderFrom (l : FreeList) (r : Region) : (fuel : Nat) → (node : Nat) → List Nat
  | 0, _ => []
  | fuel + 1, node => if node = l.first then [] else node :: l.olderFrom r fuel (prev r node)

def newestFirst (l : FreeList) (r : Region) : List Nat := l.olderFrom r r.size (prev r l.last)

/-- The first node with property `p` from `node` on, following the previous links no further than to
it. -/
def findOlder? (l : FreeList) (r : Region) (p : Nat → Bool) :
    (fuel : Nat) → (node : Nat) → Option Nat
  | 0, _ => none
  | fuel + 1, node =>
    if node = l.first then none
    else if p node then some node
    else l.findOlder? r p fuel (prev r node)

def findNewest? (l : FreeList) (r : Region) (p : Nat → Bool) : Option Nat :=
  l.findOlder? r p r.size (prev r l.last)

def newerFrom (l : FreeList) (r : Region) : (fuel : Nat) → (node : Nat) → List Nat
  | 0, _ => []
  | fuel + 1, node => if node = l.last then [] else node :: l.newerFrom r fuel (next r node)

def oldestFirst (l : FreeList) (r : Region) : List Nat := l.newerFrom r r.size (next r l.first)

def push (l : FreeList) (r : Region) (node : Nat) : Region :=
  let newest := prev r l.last
  let r := setNext (setPrev r node newest) node l.last
  setPrev (setNext r newest node) l.last node

/-- Unlinks a node; its own links keep their values. -/
def remove (r : Region) (node : Nat) : Region :=
  let before := prev r node
  let after := next r node
  setPrev (setNext r before after) after before

theorem findOlder?_eq (l : FreeList) (r : Region) (p : Nat → Bool) (fuel node : Nat) :
    l.findOlder? r p fuel node = (l.olderFrom r fuel node).find? p := by
  induction fuel generalizing node with
  | zero => rfl
  | succ fuel ih =>
    rw [findOlder?, olderFrom]
    split
    · rfl
    · rw [List.find?_cons, ih]
      cases p node <;> rfl

theorem findNewest?_eq (l : FreeList) (r : Region) (p : Nat → Bool) :
    l.findNewest? r p = (l.newestFirst r).find? p :=
  l.findOlder?_eq r p r.size (prev r l.last)

/-- Whether the links of a node can be read: it starts at a word of the heap, at or above
`lowest`. -/
def InBounds (r : Region) (lowest node : Nat) : Prop :=
  lowest ≤ node ∧ node % wordSize = 0 ∧ node + nodeSize ≤ r.size

instance (r : Region) (lowest node : Nat) : Decidable (InBounds r lowest node) :=
  inferInstanceAs (Decidable (_ ∧ _ ∧ _))

/-- Checks the list from `node` on, of which `listed` nodes are already passed, the latest being
`previous`. No more than `remaining` nodes may still come, so that the walk also ends on a list that
is a cycle. -/
def checkFrom (l : FreeList) (r : Region) (lowest freeBlocks : Nat) (isFree : Nat → Bool) :
    (remaining : Nat) → (listed previous node : Nat) → Except HeapError Unit
  | remaining, listed, previous, node =>
    if node = l.last then
      if prev r l.last ≠ previous then .error (.brokenLink l.last)
      else if listed ≠ freeBlocks then .error (.unlistedFree freeBlocks listed)
      else .ok ()
    else if ¬ InBounds r lowest node then .error (.brokenLink previous)
    else if !isFree node || prev r node ≠ previous then .error (.brokenLink node)
    else
      match remaining with
      | 0 => .error (.unlistedFree freeBlocks (listed + 1))
      | remaining + 1 =>
        l.checkFrom r lowest freeBlocks isFree remaining (listed + 1) node (next r node)

/-- Checks that the list has exactly `freeBlocks` nodes, each in bounds, accepted by `isFree`, and
linked both ways to its neighbours. -/
def check (l : FreeList) (r : Region) (lowest freeBlocks : Nat) (isFree : Nat → Bool) :
    Except HeapError Unit :=
  l.checkFrom r lowest freeBlocks isFree freeBlocks 0 l.first (next r l.first)

end FreeList

end BlockHeap
