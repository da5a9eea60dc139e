import BlockHeap.Error
import BlockHeap.Statistics
import BlockHeap.Strategy

/-!
# The journal

Operations report what they do as events. An answer of type `Journaled α` is a value together with
the events that were noted on the way to it. Events never influence a value: the lemmas `value_…`
compute the value of a composition from the values of its parts alone.
-/

namespace BlockHeap

inductive Level where
  | trace
  | debug
  | info
  | warn
deriving DecidableEq

def Level.name : Level → String
  | .trace => "TRACE"
  | .debug => "DEBUG"
  | .info => "INFO"
  | .warn => "WARN"

inductive Event where
  | anchored (address : Nat)
  | grown (bytes offset heapSize : Nat)
  | laidOut (strategy : Strategy) (heapSize : Nat)
  | layOutFailed (strategy : Strategy)
  | allocated (size address : Nat)
  | allocationFailed (size heapSize : Nat)
  | productOverflowed (count size : Nat)
  | freed (address : Nat)
  | reallocated (source capacity target size : Nat)
  | swept (block before after : Nat)
  | split (block size remainder leftover : Nat)
  | merged (block size : Nat)
  | corrupted (strategy : Strategy) (error : HeapError)
  | inspected (strategy : Strategy) (heapSize : Nat) (statistics : Statistics)
  | inspectionFailed (error : HeapError)

namespace Event

def level : Event → Level
  | .anchored .. | .grown .. | .laidOut .. => .debug
  | .allocated .. | .freed .. | .reallocated .. | .swept .. | .split .. | .merged .. => .trace
  | .layOutFailed .. | .allocationFailed .. | .productOverflowed .. | .corrupted ..
  | .inspectionFailed .. => .warn
  | .inspected .. => .info

/-- The text of an event. Addresses, unlike offsets, are shown by `address`. -/
def message (address : Nat → String) : Event → String
  | .anchored a => s!"reanchor: heap anchored at {address a}"
  | .grown bytes offset heapSize =>
      s!"grow: {bytes} bytes at {hex offset}, heap now {heapSize} bytes"
  | .laidOut strategy heapSize =>
      s!"initialize: {strategy.name} heap, {heapSize} bytes of bookkeeping"
  | .layOutFailed strategy => s!"initialize: {strategy.name} heap, arena exhausted"
  | .allocated size a => s!"allocate: {size} bytes at {address a}"
  | .allocationFailed size heapSize =>
    s!"allocate: {size} bytes, arena exhausted with heap of {heapSize} bytes"
  | .productOverflowed count size => s!"zero_allocate: {count} x {size} bytes overflows"
  | .freed a => s!"free: {address a}"
  | .reallocated source capacity target size =>
    s!"reallocate: {address source} of {capacity} bytes to {address target} of {size} bytes"
  | .swept block before after =>
      s!"coalesce: block {hex block} grows from {before} to {after} bytes"
  | .split block size remainder leftover =>
    s!"split: block {hex block} of {size} bytes, remainder {hex remainder} of {leftover} bytes"
  | .merged block size => s!"coalesce: block {hex block} absorbs its neighbours, now {size} bytes"
  | .corrupted strategy error => s!"check_heap: {strategy.name} heap is corrupted, {error.message}"
  | .inspected strategy heapSize statistics =>
    s!"checkheap: {strategy.name} heap of {heapSize} bytes, {statistics.text}"
  | .inspectionFailed error => s!"checkheap: {error.message}"

def line (address : Nat → String) (e : Event) : String := s!"{e.level.name} {e.message address}"

end Event

structure Journaled (α : Type) where
  value : α
  events : List Event := []

namespace Journaled

instance : Monad Journaled where
  pure a := ⟨a, []⟩
  bind x f := ⟨(f x.value).value, x.events ++ (f x.value).events⟩

def note (e : Event) : Journaled Unit := ⟨(), [e]⟩

variable {α β : Type}

@[simp] theorem value_pure (a : α) : (pure a : Journaled α).value = a := rfl

@[simp] theorem value_bind (x : Journaled α) (f : α → Journaled β) :
    (x >>= f).value = (f x.value).value := rfl

@[simp] theorem value_note (e : Event) : (note e).value = () := rfl

@[simp] theorem value_ite (c : Prop) [Decidable c] (x y : Journaled α) :
    (if c then x else y).value = if c then x.value else y.value := by
  split <;> rfl

end Journaled

end BlockHeap
