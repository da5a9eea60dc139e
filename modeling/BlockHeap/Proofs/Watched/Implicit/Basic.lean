import BlockHeap.Proofs.Implicit.Operations
import BlockHeap.Proofs.Watched.Basic

/-!
# Implicit heaps under watch

The operations of the implicit strategy. The sweep is written as the two nested loops that it is:
the outer one goes from run to run, and the inner one adds up the sizes of a run.
-/

namespace BlockHeap.Watched.Implicit

open Bench
open BlockHeap.Implicit

/-- Adds up the sizes of the free blocks from `next` on, and answers where the last block of the
heap starts if those become part of `block`. -/
def absorb (block last : Nat) : (rounds size next stop : Nat) → Watched (Nat × Nat)
  | 0, size, next, stop => do
    ensure (¬ next ≤ last) .rounds
    return (size, stop)
  | rounds + 1, size, next, stop => do
    if ¬ next ≤ last then
      return (size, stop)
    let neighbour ← fetchTag next
    if neighbour.allocated then
      return (size, stop)
    let merged ← plus size neighbour.size
    let beyond ← plus next neighbour.size
    absorb block last rounds merged beyond (if next = last then block else stop)

def enlarge (block before size : Nat) : Watched Unit :=
  if size ≠ before then storeTag block ⟨size, false⟩ else pure ()

def gather (block last rounds stop : Nat) : Watched (Nat × Nat) := do
  let tag ← fetchTag block
  if tag.allocated then
    return (tag.size, stop)
  let (size, stop) ← absorb block last rounds tag.size (← plus block tag.size) stop
  enlarge block tag.size size
  return (size, stop)

def sweepFrom (last total : Nat) : (rounds : Nat) → (cursor : Option Nat) → (stop : Nat) →
    Watched Nat
  | _, none, stop => return stop
  | 0, some _, _ => throw .rounds
  | rounds + 1, some block, stop => do
    let (size, stop) ← gather block last total stop
    let next ← plus block size
    sweepFrom last total rounds (if next ≤ last then some next else none) stop

/-- Neither loop may take more rounds than there are blocks. -/
def sweep (span : Option Span) : Watched (Option Span) := do
  let rounds := (chunks (← get).region span).length
  match span with
  | none => return none
  | some s => return some { s with last := ← sweepFrom s.last rounds rounds (some s.first) s.last }

def seek (last need : Nat) : (rounds : Nat) → (cursor : Option Nat) → Watched (Option (Nat × Nat))
  | _, none => return none
  | 0, some _ => throw .rounds
  | rounds + 1, some block => do
    let tag ← fetchTag block
    if !tag.allocated && need ≤ tag.size then
      return some (block, tag.size)
    let next ← plus block tag.size
    seek last need rounds (if next ≤ last then some next else none)

def search (span : Option Span) (need : Nat) : Watched (Option (Nat × Nat)) := do
  let rounds := (chunks (← get).region span).length
  match span with
  | none => return none
  | some s => seek s.last need rounds (some s.first)

def take (span : Option Span) (block available need : Nat) : Watched (Option Span) := do
  ensure (need ≤ available) (.assertion (.largeEnough available need))
  let leftover ← minus available need
  if leftover < alignment.value then
    storeTag block ⟨available, true⟩
    return span
  let remainder ← plus block need
  storeTag block ⟨need, true⟩
  storeTag remainder ⟨leftover, false⟩
  return span.map fun s => if s.last = block then { s with last := remainder } else s

def setUp : Watched Bool := do
  if !(← reanchor) then
    return false
  return (← grow (alignment.value - wordSize)).isSome

def allocate (span : Option Span) (n : Nat) : Watched (Option Nat × Option Span) := do
  match required? n with
  | none => return (none, span)
  | some need =>
    let span ← sweep span
    match ← search span need with
    | some (block, available) =>
      let span ← take span block available need
      return (some (← plus block wordSize), span)
    | none =>
      match ← grow need with
      | none => return (none, span)
      | some block =>
        storeTag block ⟨need, true⟩
        return (some (← plus block wordSize), some (extend span block))

def deallocate (payload : Nat) : Watched Unit := do
  let block ← minus payload wordSize
  let tag ← fetchTag block
  ensure tag.allocated (.assertion (.notFreedTwice block))
  storeTag block ⟨tag.size, false⟩

def capacity (payload : Nat) : Watched Nat := do
  let tag ← fetchTag (← minus payload wordSize)
  minus tag.size wordSize

def nextBlock (span : Option Span) (block : Nat) : Watched (Option Nat) := do
  match span with
  | none => return none
  | some s =>
    let tag ← fetchTag block
    let next ← plus block tag.size
    return if next ≤ s.last then some next else none

def describe (block : Nat) : Watched Block := do
  let tag ← fetchTag block
  let payload ← plus block wordSize
  return ⟨payload, ← minus tag.size wordSize, tag.allocated⟩

/-- The chunks are a part of the heap that ends with it, as far as they were not swept yet. -/
structure Tail (b : Bench) (last a : Nat) (cs : List Chunk) : Prop where
  anchored : b.region.Anchored
  start_le : start ≤ a
  start_mod : a % 16 = 8
  tiles : Chunk.Tiles 0 a cs b.region.size
  tagged : ∀ c ∈ cs, b.region.tag c.offset = c.tag
  owned : ∀ c ∈ cs, b.Owned c.offset
  last_eq : ∀ c ∈ cs.getLast?, c.offset = last
  last_lt : cs = [] → last < a

structure Secure (b : Bench) (span : Option Span) (cs : List Chunk) : Prop where
  represents : Represents b.region span cs
  owned : ∀ c ∈ cs, b.Owned c.offset

variable {b c : Bench} {span : Option Span} {last a o v : Nat} {x : Chunk} {cs : List Chunk}

namespace Tail

theorem bounds_of_mem (h : Tail b last a cs) (hx : x ∈ cs) :
    a ≤ x.offset ∧ x.offset % 16 = 8 ∧ x.offset + x.size ≤ b.region.size ∧ 16 ≤ x.size ∧
      x.size % 16 = 0 := by
  have hBounds := h.tiles.bounds hx
  have hMod := h.tiles.offset_mod (by decide) hx
  have hStart := h.start_mod
  omega

theorem inside_of_mem (h : Tail b last a cs) (hx : x ∈ cs) : b.Inside x.offset := by
  have hBounds := h.bounds_of_mem hx
  unfold Bench.Inside wordSize
  omega

theorem does_fetchTag (h : Tail b last a cs) (hx : x ∈ cs) :
    Does (fetchTag x.offset) b x.tag b := by
  have hFetch := Watched.does_fetchTag h.anchored (h.inside_of_mem hx) (h.owned x hx)
  rwa [h.tagged x hx] at hFetch

theorem does_next (h : Tail b last a cs) (hx : x ∈ cs) :
    Does (plus x.offset x.size) b (x.stop 0) b := by
  have hBounds := h.bounds_of_mem hx
  have hEnd := h.anchored.end_lt
  exact does_plus (by omega) b

theorem le_last_iff (h : Tail b last a cs) : a ≤ last ↔ cs ≠ [] := by
  constructor
  · rintro hLe rfl
    exact absurd (h.last_lt rfl) (Nat.not_lt.mpr hLe)
  · intro hNil
    have hMem := List.getLast_mem hNil
    rw [← h.last_eq _ (List.getLast?_eq_some_getLast hNil)]
    exact h.tiles.le_offset hMem

theorem cursor_eq (h : Tail b last a cs) :
    (if a ≤ last then some a else none) = cs.head?.map Chunk.offset := by
  cases cs with
  | nil => exact if_neg fun hLe => h.le_last_iff.mp hLe rfl
  | cons x cs =>
    rw [if_pos (h.le_last_iff.mpr (List.cons_ne_nil x cs)), ← h.tiles.1]
    rfl

theorem rest (h : Tail b last a (x :: cs)) : Tail b last (x.stop 0) cs := by
  have hBounds := h.bounds_of_mem List.mem_cons_self
  have hStart := h.start_le
  obtain ⟨rfl, _, hTiles⟩ := h.tiles
  refine ⟨h.anchored, ?_, ?_, hTiles, fun y hy => h.tagged y (List.mem_cons_of_mem _ hy),
    fun y hy => h.owned y (List.mem_cons_of_mem _ hy), fun y hy => ?_, ?_⟩
  · unfold Chunk.stop
    omega
  · unfold Chunk.stop
    omega
  · refine h.last_eq y ?_
    rw [List.getLast?_cons, hy]
    rfl
  · rintro rfl
    rw [← h.last_eq x rfl]
    unfold Chunk.stop
    omega

theorem offset_eq_last_iff (h : Tail b last a (x :: cs)) : x.offset = last ↔ cs = [] := by
  have hBounds := h.bounds_of_mem List.mem_cons_self
  refine ⟨fun hEq => ?_, fun hNil => h.last_eq x (hNil ▸ rfl)⟩
  by_contra hNil
  have hLe := h.rest.le_last_iff.mpr hNil
  unfold Chunk.stop at hLe
  omega

theorem store (h : Tail b last a cs) (ho : o + wordSize ≤ a) : Tail (b.store o v) last a cs where
  anchored := anchored_store h.anchored o v
  start_le := h.start_le
  start_mod := h.start_mod
  tiles := h.tiles
  tagged x hx := by
    rw [← h.tagged x hx]
    have hBounds := h.bounds_of_mem hx
    exact congrArg Tag.ofWord (Region.word_setWord_of_disjoint _ _ (.inr (by omega)))
  owned x hx := (marks_store b o v).of_owned (h.owned x hx)
  last_eq := h.last_eq
  last_lt := h.last_lt

end Tail

theorem Secure.tail (h : Secure b (some ⟨a, last⟩) cs) : a = start ∧ Tail b last start cs := by
  have hSpan := h.represents.span_eq
  obtain ⟨y, hy, hEq⟩ := Option.map_eq_some_iff.mp hSpan.symm
  obtain ⟨rfl, rfl⟩ := Span.mk.inj hEq
  refine ⟨rfl, h.represents.anchored, le_rfl, by decide, h.represents.tiles, h.represents.tagged,
    h.owned, fun z hz => ?_, ?_⟩
  · rw [Option.some.inj (hy.symm.trans hz)]
  · rintro rfl
    cases hy

theorem Secure.of_client (h : Secure b span cs)
    (hs : b.region.Keeps (fun x => ¬ ∃ d ∈ held (cs.map block), d.At b.region.anchor x) c.region)
    (hOwn : ∀ x, (¬ ∃ d ∈ held (cs.map block), d.At b.region.anchor x) → b.own x = true →
      c.own x = true) : Secure c span cs :=
  ⟨h.represents.of_client hs, fun y hy => (h.owned y hy).of_word hs.anchor_eq hOwn
    fun x hx hIn => header_not_foreign h.represents.tiles hy x hx (.inr (.inr hIn))⟩

theorem Secure.eq_nil (h : Secure b none cs) : cs = [] := by
  have hSpan := h.represents.span_eq
  rwa [spanOf, eq_comm, Option.map_eq_none_iff, List.getLast?_eq_none_iff] at hSpan

theorem Secure.ne_nil {s : Span} (h : Secure b (some s) cs) : cs ≠ [] := fun hNil => by
  have hSpan := h.represents.span_eq
  rw [hNil] at hSpan
  cases hSpan

end BlockHeap.Watched.Implicit
