import BlockHeap.Heap

/-!
# Sessions

A session is a heap together with the pointers that its client holds. A request is lawful if it
names no other pointers, and writes only to usable bytes; nothing is asked of sizes, and any request
may be refused. A run is a sequence of lawful requests.
-/

namespace BlockHeap

/-- A page of memory, of which three bytes are taken. -/
def Arena.page : Arena where
  base := Arena.defaultBase
  capacity := 4096
  size := 3
  base_pos := by decide
  base_aligned := by decide
  end_lt := by decide
  size_le := by decide

inductive Request where
  | layOut
  | allocate (n : Nat)
  | zeroAllocate (count n : Nat)
  | free (pointer : Option Nat)
  | reallocate (pointer : Option Nat) (n : Nat)
  | write (address : Nat) (bytes : List UInt8)
deriving DecidableEq

namespace Request

def run (h : Heap) : Request → Option Nat × Heap
  | .layOut => (none, h.layOut.value.2)
  | .allocate n => (h.allocate n).value
  | .zeroAllocate count n => (h.zeroAllocate count n).value
  | .free pointer => (none, (h.free pointer).value)
  | .reallocate pointer n => (h.reallocate pointer n).value
  | .write address bytes => (none, h.mapMemory (·.write address bytes))

/-- Whether a request with this answer ends the life of the pointer `p`. Laying out abandons all
pointers, and a reallocation that is refused leaves its pointer alone. -/
def ends (answer : Option Nat) (p : Nat) : Request → Bool
  | .layOut => true
  | .free (some pointer) => p == pointer
  | .reallocate (some pointer) n => p == pointer && (n == 0 || answer.isSome)
  | _ => false

def writes (x : Nat) : Request → Bool
  | .write address bytes => address ≤ x && x < address + bytes.length
  | _ => false

end Request

structure Session where
  heap : Heap
  /-- The pointers that were answered and whose lives have not ended, the latest first. -/
  live : List Nat := []

namespace Session

/-- A heap that nothing has been asked of, over an arena from which bytes may already have been
taken. -/
def start (strategy : Strategy) (arena : Arena) : Session := { heap := Heap.new arena strategy }

def answer (s : Session) (q : Request) : Option Nat := (q.run s.heap).1

def step (s : Session) (q : Request) : Session where
  heap := (q.run s.heap).2
  live := (s.answer q).toList ++ s.live.filter fun p => !q.ends (s.answer q) p

def Lawful (s : Session) : Request → Prop
  | .free (some pointer) => pointer ∈ s.live
  | .reallocate (some pointer) _ => pointer ∈ s.live
  | .write address bytes =>
      ∃ p ∈ s.live, p ≤ address ∧ address + bytes.length ≤ p + s.heap.usableSize p
  | _ => True

instance (s : Session) : (q : Request) → Decidable (s.Lawful q)
  | .layOut => isTrue trivial
  | .allocate _ => isTrue trivial
  | .zeroAllocate _ _ => isTrue trivial
  | .free none => isTrue trivial
  | .free (some pointer) => inferInstanceAs (Decidable (pointer ∈ s.live))
  | .reallocate none _ => isTrue trivial
  | .reallocate (some pointer) _ => inferInstanceAs (Decidable (pointer ∈ s.live))
  | .write address bytes =>
    inferInstanceAs (Decidable
      (∃ p ∈ s.live, p ≤ address ∧ address + bytes.length ≤ p + s.heap.usableSize p))

inductive Run : Session → List Request → Session → Prop where
  | nil (s : Session) : Run s [] s
  | cons {s t : Session} {q : Request} {qs : List Request} :
      s.Lawful q → Run (s.step q) qs t → Run s (q :: qs) t

end Session

end BlockHeap
