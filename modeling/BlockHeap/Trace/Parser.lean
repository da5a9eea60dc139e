import BlockHeap.Text.Blank
import BlockHeap.Text.Decimal
import BlockHeap.Trace.Basic

/-!
# Reading traces

Lines that are empty or start with a number sign, once trimmed, are passed over; the others must
each be a request. The first line that is not one is reported, with its number among all lines.
-/

namespace BlockHeap

def Operation.ofWords? (kind : List Char) (numbers : List Nat) : Option Operation :=
  match kind, numbers with
  | ['a'], [id, size] => some (.allocate id size)
  | ['f'], [id] => some (.free id)
  | ['r'], [id, size] => some (.reallocate id size)
  | ['c'], [id, count, size] => some (.zeroAllocate id count size)
  | _, _ => none

def Operation.ofLine? (content : List Char) : Option Operation :=
  match Text.words content with
  | [] => none
  | kind :: arguments => (arguments.mapM Text.word?).bind (Operation.ofWords? kind)

namespace Trace

def isSkipped (content : List Char) : Bool := content.isEmpty || content.head? == some '#'

def ofLines (line : Nat) : List (List Char) → Except TraceError Trace
  | [] => .ok []
  | content :: rest =>
    if isSkipped content then ofLines (line + 1) rest
    else
      match Operation.ofLine? content with
      | none => .error ⟨line, String.ofList content⟩
      | some o => (ofLines (line + 1) rest).map (o :: ·)

def parse (text : String) : Except TraceError Trace :=
  ofLines 1 ((Text.lines text.toList).map Text.trim)

end Trace

end BlockHeap
