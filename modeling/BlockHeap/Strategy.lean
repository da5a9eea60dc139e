/-!
# Strategies

A heap keeps track of its free blocks in one of two ways. The implicit strategy has one header per
block and merges free neighbours in a sweep before each allocation; the explicit one links the free
blocks into a list and merges a block with its neighbours as soon as it is freed.
-/

namespace BlockHeap

inductive Strategy where
  | implicit
  | explicit
deriving DecidableEq

namespace Strategy

def default : Strategy := .explicit

def name : Strategy → String
  | .implicit => "implicit"
  | .explicit => "explicit"

end Strategy

end BlockHeap
