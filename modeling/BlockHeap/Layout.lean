import BlockHeap.PowerOfTwo

/-!
# Sizes of types

The size in bytes of the plain types that a client may ask a power of two for: unsigned numbers, and
arrays, whose elements follow one another without gaps.
-/

namespace BlockHeap

inductive Layout where
  | unit
  | unsigned (bytes : Nat)
  | array (element : Layout) (count : Nat)

def Layout.size : Layout → Nat
  | .unit => 0
  | .unsigned bytes => bytes
  | .array element count => element.size * count

/-- The size of a type, if it is a power of two. -/
def PowerOfTwo.ofLayout? (l : Layout) : Option PowerOfTwo := PowerOfTwo.ofNat? l.size

end BlockHeap
