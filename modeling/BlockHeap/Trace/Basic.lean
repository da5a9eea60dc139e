import BlockHeap.Text.Quoted

/-!
# Traces

A trace is a list of requests to a heap. Each names an allocation by a number of the client's
choice, so that later requests can refer to it. In text, a trace has one request per line: a letter,
then the numbers.
-/

namespace BlockHeap

inductive Operation where
  | allocate (id size : Nat)
  | free (id : Nat)
  | reallocate (id size : Nat)
  | zeroAllocate (id count size : Nat)
deriving DecidableEq

abbrev Trace := List Operation

/-- A line of a text that is not a request, with its number, the first line being line 1. -/
structure TraceError where
  line : Nat
  content : String
deriving DecidableEq

namespace TraceError

def message (e : TraceError) : String :=
  s!"invalid operation at line {e.line}: {Text.quote e.content}"

end TraceError

def Operation.text : Operation → String
  | .allocate id size => s!"a {id} {size}"
  | .free id => s!"f {id}"
  | .reallocate id size => s!"r {id} {size}"
  | .zeroAllocate id count size => s!"c {id} {count} {size}"

def Trace.text (t : Trace) : String := String.ofList (t.flatMap fun o => o.text.toList ++ ['\n'])

end BlockHeap
