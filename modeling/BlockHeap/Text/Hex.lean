/-!
# Hexadecimal numbers

Offsets and addresses are shown in base sixteen, in lower case, after `0x`.
-/

namespace BlockHeap

def hexDigits (n : Nat) : String := String.ofList (Nat.toDigits 16 n)

def hex (n : Nat) : String := "0x" ++ hexDigits n

end BlockHeap
