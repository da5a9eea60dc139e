import BlockHeap.Heap
import BlockHeap.Shadow
import BlockHeap.Trace.Basic

/-!
# Replaying traces

A replayer applies the requests of a trace to a heap. It fills every allocation with a pattern made
from its number, records it in a shadow, and after each request checks the heap and every byte of
every live allocation. A request that names an allocation wrongly, or that the heap refuses, is an
error as well.
-/

namespace BlockHeap

inductive ReplayError where
  | exhausted (step size : Nat)
  | duplicateId (step id : Nat)
  | unknownId (step id : Nat)
  | undersized (step size usable : Nat)
  | shadow (step : Nat) (error : ShadowError)
  | heap (step : Nat) (error : HeapError)
deriving DecidableEq

namespace ReplayError

def message (address : Nat → String) : ReplayError → String
  | .exhausted step size => s!"step {step}: failed to allocate {size} bytes"
  | .duplicateId step id => s!"step {step}: allocation {id} is already live"
  | .unknownId step id => s!"step {step}: allocation {id} is not live"
  | .undersized step size usable => s!"step {step}: {size} bytes requested, only {usable} usable"
  | .shadow step error => s!"step {step}: {error.message address}"
  | .heap step error => s!"step {step}: {error.message}"

/-- The text of the error that is behind this one, if it is an error of the shadow. -/
def source (address : Nat → String) : ReplayError → Option String
  | .shadow _ error => some (error.message address)
  | _ => none

end ReplayError

structure Replayer where
  heap : Heap
  shadow : Shadow := { alignment }
  pointers : OrderedMap Nat := {}
  steps : Nat := 0

namespace Replayer

abbrev Answer := Except ReplayError Unit × Replayer

/-- The byte that fills an allocation; never zero, so that zeroed memory is told apart. -/
def pattern (id : Nat) : UInt8 := (id % 255 + 1).toUInt8

def isLive (r : Replayer) (id : Nat) : Bool := r.pointers.contains id

def track (r : Replayer) (step id pointer size : Nat) : Except ReplayError Replayer :=
  let usable := r.heap.usableSize pointer
  if usable < size then .error (.undersized step size usable)
  else
    match r.shadow.insert r.heap.memory pointer size (pattern id) with
    | .error e => .error (.shadow step e)
    | .ok (shadow, memory) =>
      .ok { r with
        heap := r.heap.mapMemory fun _ => memory
        shadow
        pointers := r.pointers.insert id pointer }

def forget (r : Replayer) (id pointer : Nat) : Replayer :=
  { r with pointers := r.pointers.erase id, shadow := (r.shadow.remove pointer).2 }

def verify (r : Replayer) (step : Nat) : Except ReplayError Unit :=
  match r.heap.verdict with
  | .error e => .error (.heap step e)
  | .ok () => (r.shadow.verify r.heap.memory).mapError (.shadow step)

/-- Records an allocation whose first `count` bytes must equal `b`, then checks everything. -/
def settle (r : Replayer) (step id pointer size count : Nat) (b : UInt8) : Answer :=
  match Shadow.verifyBytes r.heap.memory pointer count b with
  | .error e => (.error (.shadow step e), r)
  | .ok () =>
    match r.track step id pointer size with
    | .error e => (.error e, r)
    | .ok r => (r.verify step, r)

def allocate (r : Replayer) (step id size : Nat) : Answer :=
  if r.isLive id then (.error (.duplicateId step id), r)
  else
    match (r.heap.allocate size).value with
    | (none, heap) => (.error (.exhausted step size), { r with heap })
    | (some pointer, heap) => { r with heap }.settle step id pointer size 0 0

def zeroAllocate (r : Replayer) (step id count size : Nat) : Answer :=
  if r.isLive id then (.error (.duplicateId step id), r)
  else
    let bytes := min (count * size) (wordLimit - 1)
    match (r.heap.zeroAllocate count size).value with
    | (none, heap) => (.error (.exhausted step bytes), { r with heap })
    | (some pointer, heap) => { r with heap }.settle step id pointer bytes bytes 0

def free (r : Replayer) (step id : Nat) : Answer :=
  match r.pointers.get? id with
  | none => (.error (.unknownId step id), r)
  | some pointer =>
    let r := r.forget id pointer
    let r := { r with heap := (r.heap.free (some pointer)).value }
    (r.verify step, r)

def reallocate (r : Replayer) (step id size : Nat) : Answer :=
  match r.pointers.get? id with
  | none => (.error (.unknownId step id), r)
  | some source =>
    match r.shadow.live.get? source with
    | none => (.error (.unknownId step id), r)
    | some a =>
      let (target, heap) := (r.heap.reallocate (some source) size).value
      if size = 0 then
        let r := { r with heap }.forget id source
        (r.verify step, r)
      else
        match target with
        | none => (.error (.exhausted step size), { r with heap })
        | some target =>
          ({ r with heap }.forget id source).settle step id target size (min a.size size) a.pattern

/-- Applies one request. The step is counted whatever the answer. -/
def apply (r : Replayer) (o : Operation) : Answer :=
  let step := r.steps
  let r := { r with steps := step + 1 }
  match o with
  | .allocate id size => r.allocate step id size
  | .zeroAllocate id count size => r.zeroAllocate step id count size
  | .free id => r.free step id
  | .reallocate id size => r.reallocate step id size

def run (r : Replayer) : Trace → Answer
  | [] => (.ok (), r)
  | o :: rest =>
    match r.apply o with
    | (.error e, r) => (.error e, r)
    | (.ok (), r) => r.run rest

def applyAll (r : Replayer) : Trace → List (Except ReplayError Unit) × Replayer
  | [] => ([], r)
  | o :: rest =>
    let (answer, r) := r.apply o
    let (answers, r) := r.applyAll rest
    (answer :: answers, r)

def releaseAll (r : Replayer) : Answer := r.run (r.pointers.keys.map Operation.free)

end Replayer

end BlockHeap
