import BlockHeap.Memory.Basic
import BlockHeap.OrderedMap
import BlockHeap.Text.Hex

/-!
# Shadows

A shadow records the allocations that are live, each with a byte that fills its payload. It refuses
payloads that are misaligned or overlap a live one, and it finds the first live byte that has been
overwritten. An empty payload is a point: it overlaps an equal address, and a payload that it lies
strictly inside.
-/

namespace BlockHeap

structure Allocation where
  size : Nat
  pattern : UInt8
deriving DecidableEq

inductive ShadowError where
  | misaligned (address : Nat)
  | overlap (address other : Nat)
  | corrupted (address offset : Nat) (expected actual : UInt8)
deriving DecidableEq

def ShadowError.message (address : Nat → String) : ShadowError → String
  | .misaligned a => s!"payload {address a} is misaligned"
  | .overlap a other => s!"payload {address a} overlaps live payload {address other}"
  | .corrupted a offset expected actual =>
    s!"payload {address a} holds {hex actual.toNat} at offset {offset}, expected {hex expected.toNat}"

structure Shadow where
  alignment : PowerOfTwo
  live : OrderedMap Allocation := {}

namespace Shadow

def new (n : Nat) : Except String Shadow :=
  match PowerOfTwo.ofNat? n with
  | none => .error s!"{n} is not a power of 2"
  | some alignment => .ok { alignment }

def liveBytes (s : Shadow) : Nat := s.live.values.foldl (fun n a => n + a.size) 0

/-- The live payload that a new one of `size` bytes at `address` would overlap, the lowest if there
are two. -/
def conflict? (s : Shadow) (address size : Nat) : Option Nat :=
  let below := (s.live.floor? address).filter fun (other, a) => other == address ||
    address < other + a.size
  let above := (s.live.ceiling? address).filter fun (other, _) => other < address + size
  (below.or above).map Prod.fst

def insert (s : Shadow) (m : Memory) (address size : Nat) (pattern : UInt8) :
    Except ShadowError (Shadow × Memory) :=
  if s.alignment.rem address ≠ 0 then .error (.misaligned address)
  else
    match s.conflict? address size with
    | some other => .error (.overlap address other)
    | none => .ok ({ s with live := s.live.insert address ⟨size, pattern⟩ },
        m.fill address size pattern)

def remove (s : Shadow) (address : Nat) : Option Allocation × Shadow :=
  (s.live.get? address, { s with live := s.live.erase address })

/-- The place and the value of the first byte in some runs that differs from `b`. -/
def firstOther? (b : UInt8) : List ByteRun → Option (Nat × UInt8)
  | [] => none
  | r :: rest =>
    if r.count = 0 ∨ r.byte = b then (firstOther? b rest).map fun (i, c) => (r.count + i, c)
    else some (0, r.byte)

def verifyBytes (m : Memory) (address size : Nat) (pattern : UInt8) : Except ShadowError Unit :=
  match firstOther? pattern (m.runs address size) with
  | none => .ok ()
  | some (offset, actual) => .error (.corrupted address offset pattern actual)

def verify (s : Shadow) (m : Memory) : Except ShadowError Unit :=
  s.live.entries.forM fun (address, a) => verifyBytes m address a.size a.pattern

end Shadow

end BlockHeap
