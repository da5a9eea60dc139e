import BlockHeap.Proofs.Chunk.Runs
import BlockHeap.Proofs.Session.Basic
import Mathlib.Data.List.TakeDrop
import Mathlib.Data.List.TakeWhile

/-!
# Ledgers

A ledger serves the requests of a session without any memory. Its books have the size and the flag
of each block, in address order, and under the explicit strategy the order in which free blocks are
offered; where a block is follows from the sizes of those before it. All that is known of the arena
is its mark and its end.
-/

namespace BlockHeap

theorem span_append_cons {α : Type} {p : α → Bool} {xs ys : List α} {y : α}
    (hxs : ∀ x ∈ xs, p x = true) (hy : p y = false) : (xs ++ y :: ys).span p = (xs, y :: ys) := by
  rw [List.span_eq_takeWhile_dropWhile, List.takeWhile_append_of_pos hxs,
    List.dropWhile_append_of_pos hxs, List.takeWhile_cons_of_neg (by simp [hy]),
    List.dropWhile_cons_of_neg (by simp [hy]), List.append_nil]

theorem span_of_forall {α : Type} {p : α → Bool} {xs : List α} (hxs : ∀ x ∈ xs, p x = true) :
    xs.span p = (xs, []) := by
  rw [List.span_eq_takeWhile_dropWhile, List.takeWhile_eq_self_iff.mpr hxs,
    List.dropWhile_eq_nil_iff.mpr hxs]

namespace Implicit

/-- The books of an implicit heap. Sizes count the header, and the first block starts at 8. -/
structure Books where
  tags : List Tag := []
deriving DecidableEq

namespace Books

def size (b : Books) : Nat := 8 + Chunk.extent 0 b.tags

def chunks (b : Books) : List Chunk := Chunk.lay 0 8 b.tags

def blocks (b : Books) : List Block :=
  b.chunks.map fun c => ⟨c.offset + 8, c.size - 8, c.allocated⟩

/-- Serves `n` bytes, with `room` bytes left in the arena: every maximal run of free blocks becomes
one block, and the lowest free block that is large enough is taken, what is left of it staying free.
Without such a block one is appended, if there is room. -/
def allocate (b : Books) (room n : Nat) : Option Nat × Books :=
  let need := (n + 8 + 15) / 16 * 16
  if wordLimit ≤ need then (none, b)
  else
    let merged := (runs Tag.allocated b.tags).map Tag.fuse
    match merged.span fun t => t.allocated || t.size < need with
    | (before, t :: after) =>
      let rest := if t.size = need then [] else [⟨t.size - need, false⟩]
      (some (8 + Chunk.extent 0 before + 8), ⟨before ++ ⟨need, true⟩ :: rest ++ after⟩)
    | (_, []) =>
      if need ≤ room then (some (8 + Chunk.extent 0 merged + 8), ⟨merged ++ [⟨need, true⟩]⟩)
      else (none, ⟨merged⟩)

def free (b : Books) (payload : Nat) : Books :=
  ⟨b.chunks.map fun c => if c.offset + 8 = payload then ⟨c.size, false⟩ else c.tag⟩

end Books

end Implicit

namespace Explicit

/-- The books of an explicit heap. Sizes are those of payloads; each block has 16 more bytes, and
the first one starts at 32. -/
structure Books where
  tags : List Tag := []
  newest : List Nat := []
deriving DecidableEq

namespace Books

def size (b : Books) : Nat := 48 + Chunk.extent 16 b.tags

def chunks (b : Books) : List Chunk := Chunk.lay 16 32 b.tags

def blocks (b : Books) : List Block := b.chunks.map fun c => ⟨c.offset + 16, c.size, c.allocated⟩

def fit? (b : Books) (need : Nat) : Option Chunk :=
  b.newest.findSome? fun p => b.chunks.find? fun c => c.offset + 16 = p && need ≤ c.size

def replace (b : Books) (c : Chunk) (ts : List Tag) : List Tag :=
  b.chunks.flatMap fun d => if d = c then ts else [d.tag]

/-- Serves `n` bytes, with `room` bytes left in the arena: the newest free block that is large
enough is handed out whole, or split if what is left can be a block, and then the newest. Without
such a block one is appended, if there is room. -/
def allocate (b : Books) (room n : Nat) : Option Nat × Books :=
  let need := max ((n + 15) / 16 * 16) 16
  if wordLimit ≤ need then (none, b)
  else
    match b.fit? need with
    | some c =>
      let payload := c.offset + 16
      let others := b.newest.erase payload
      if c.size < need + 32 then (some payload, ⟨b.replace c [⟨c.size, true⟩], others⟩)
      else
        (some payload, ⟨b.replace c [⟨need, true⟩, ⟨c.size - need - 16, false⟩],
          (payload + need + 16) :: others⟩)
    | none =>
      if need + 16 < wordLimit ∧ need + 16 ≤ room then
        (some b.size, ⟨b.tags ++ [⟨need, true⟩], b.newest⟩)
      else (none, b)

/-- Merges the block with this payload with those of its neighbours that are free. The result keeps
the place of the block before it in the order, or else is the newest. -/
def free (b : Books) (payload : Nat) : Books :=
  match b.chunks.span fun c => c.offset + 16 ≠ payload with
  | (_, []) => b
  | (before, c :: after) =>
    match before.getLast?.filter (!·.allocated), after.head?.filter (!·.allocated) with
    | none, none =>
      ⟨before.map Chunk.tag ++ ⟨c.size, false⟩ :: after.map Chunk.tag, payload :: b.newest⟩
    | some p, none =>
      ⟨before.dropLast.map Chunk.tag ++ ⟨p.size + 16 + c.size, false⟩ :: after.map Chunk.tag,
        b.newest⟩
    | none, some d =>
      ⟨before.map Chunk.tag ++ ⟨c.size + 16 + d.size, false⟩ :: after.tail.map Chunk.tag,
        payload :: b.newest.erase (d.offset + 16)⟩
    | some p, some d =>
      ⟨before.dropLast.map Chunk.tag ++ ⟨p.size + 16 + c.size + 16 + d.size, false⟩ ::
        after.tail.map Chunk.tag, b.newest.erase (d.offset + 16)⟩

end Books

end Explicit

inductive Books where
  | implicit (b : Implicit.Books)
  | explicit (b : Explicit.Books)
deriving DecidableEq

namespace Books

def empty : Strategy → Books
  | .implicit => .implicit {}
  | .explicit => .explicit {}

def size : Books → Nat
  | .implicit b => b.size
  | .explicit b => b.size

def blocks : Books → List Block
  | .implicit b => b.blocks
  | .explicit b => b.blocks

def recorded : Option (Nat × Books) → List Block
  | none => []
  | some (_, b) => b.blocks

def allocate (b : Books) (room n : Nat) : Option Nat × Books :=
  match b with
  | .implicit b =>
    let (payload, b) := b.allocate room n
    (payload, .implicit b)
  | .explicit b =>
    let (payload, b) := b.allocate room n
    (payload, .explicit b)

def free (b : Books) (payload : Nat) : Books :=
  match b with
  | .implicit b => .implicit (b.free payload)
  | .explicit b => .explicit (b.free payload)

end Books

structure Ledger where
  strategy : Strategy
  mark : Nat
  limit : Nat
  heap : Option (Nat × Books) := none
deriving DecidableEq

namespace Ledger

def blocks (l : Ledger) : List Block := Books.recorded l.heap

def start (strategy : Strategy) (arena : Arena) : Ledger where
  strategy
  mark := arena.mark
  limit := arena.base + arena.capacity

/-- Empty books at the next aligned address, if there is room for them. The bytes up to there are
taken in any case, if there are as many. -/
def layOut (l : Ledger) : Ledger :=
  let anchor := (l.mark + 15) / 16 * 16
  let books := Books.empty l.strategy
  if l.limit < anchor then { l with heap := none }
  else if l.limit < anchor + books.size then { l with mark := anchor, heap := none }
  else { l with mark := anchor + books.size, heap := some (anchor, books) }

def prepare (l : Ledger) : Ledger := if l.heap.isSome then l else l.layOut

def allocate (l : Ledger) (n : Nat) : Option Nat × Ledger :=
  let l := l.prepare
  match l.heap with
  | none => (none, l)
  | some (anchor, books) =>
    let (payload, books) := books.allocate (l.limit - l.mark) n
    (payload.map (anchor + ·),
      { l with mark := anchor + books.size, heap := some (anchor, books) })

def free (l : Ledger) (pointer : Nat) : Ledger :=
  { l with heap := l.heap.map fun (anchor, books) => (anchor, books.free (pointer - anchor)) }

/-- What a request is answered, and the ledger afterwards. What a client writes is not recorded. -/
def serve (l : Ledger) : Request → Option Nat × Ledger
  | .layOut => (none, l.layOut)
  | .allocate n => l.allocate n
  | .zeroAllocate count n => if wordLimit ≤ count * n then (none, l) else l.allocate (count * n)
  | .free none => (none, l)
  | .free (some pointer) => (none, l.free pointer)
  | .reallocate none n => l.allocate n
  | .reallocate (some pointer) n =>
    if n = 0 then (none, l.free pointer)
    else
      match l.allocate n with
      | (none, l) => (none, l)
      | (some target, l) => (some target, l.free pointer)
  | .write _ _ => (none, l)

theorem serve_reallocate {l : Ledger} {n p : Nat} (hn : n ≠ 0) :
    l.serve (.reallocate (some p) n) = ((l.allocate n).1,
      (l.allocate n).1.elim (l.allocate n).2 fun _ => (l.allocate n).2.free p) := by
  simp only [serve, if_neg hn]
  rcases l.allocate n with ⟨_ | target, m⟩
  · rfl
  · rfl

def answers (l : Ledger) : List Request → List (Option Nat)
  | [] => []
  | q :: qs => (l.serve q).1 :: (l.serve q).2.answers qs

def after (l : Ledger) : List Request → Ledger
  | [] => l
  | q :: qs => (l.serve q).2.after qs

end Ledger

def Session.answers (s : Session) : List Request → List (Option Nat)
  | [] => []
  | q :: qs => s.answer q :: (s.step q).answers qs

end BlockHeap
