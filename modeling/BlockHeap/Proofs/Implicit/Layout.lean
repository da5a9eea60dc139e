import BlockHeap.Implicit.Basic
import BlockHeap.Proofs.Chunk.Merging
import BlockHeap.Proofs.Region.Foreign

/-!
# The layout of an implicit heap

`Represents r span cs` says that the region holds exactly the chunks `cs`: they tile it from the
first block to its end, each has its tag as a header, and the span names the first and the last of
them. The walk over the headers then finds these chunks.
-/

namespace BlockHeap.Implicit

def start : Nat := alignment.value - wordSize

theorem start_eq : start = 8 := rfl

def spanOf (cs : List Chunk) : Option Span := cs.getLast?.map fun c => ⟨start, c.offset⟩

structure Represents (r : Region) (span : Option Span) (cs : List Chunk) : Prop where
  anchored : r.Anchored
  tiles : Chunk.Tiles 0 start cs r.size
  tagged : ∀ c ∈ cs, r.tag c.offset = c.tag
  span_eq : span = spanOf cs

variable {r s : Region} {span : Option Span} {c d : Chunk} {cs ds : List Chunk} {o n : Nat}

theorem spanOf_eq_some {last : Nat} (h : cs.getLast?.map Chunk.offset = some last) :
    spanOf cs = some ⟨start, last⟩ := by
  obtain ⟨c, hc, rfl⟩ := Option.map_eq_some_iff.mp h
  rw [spanOf, hc]
  rfl

/-- The walk stops after the last chunk, since all others end at or before its start. -/
theorem chunksFrom_eq {a b last : Nat} (hTiles : Chunk.Tiles 0 a (c :: cs) b)
    (hTags : ∀ d ∈ c :: cs, r.tag d.offset = d.tag)
    (hLast : (c :: cs).getLast?.map Chunk.offset = some last) {fuel : Nat}
    (hFuel : (c :: cs).length ≤ fuel) :
    chunksFrom r last fuel a = c :: cs := by
  induction cs generalizing a c fuel with
  | nil =>
    obtain ⟨fuel, rfl⟩ := Nat.exists_eq_succ_of_ne_zero (Nat.ne_of_gt hFuel)
    obtain ⟨rfl, hSized, _⟩ := hTiles
    have hPos := Chunk.size_of_wellSized hSized
    have hEq : c.offset = last := Option.some.inj hLast
    have hStop : ¬ c.offset + c.size ≤ last := by omega
    simp only [chunksFrom, hTags c List.mem_cons_self, if_neg hStop]
  | cons d cs ih =>
    obtain ⟨fuel, rfl⟩ := Nat.exists_eq_succ_of_ne_zero (Nat.ne_of_gt (Nat.zero_lt_of_lt hFuel))
    obtain ⟨rfl, hSized, hRest⟩ := hTiles
    have hLast' : (d :: cs).getLast?.map Chunk.offset = some last := by
      rw [← hLast, List.getLast?_cons_cons]
    have hNext : c.stop 0 ≤ last := by
      obtain ⟨e, he, rfl⟩ := Option.map_eq_some_iff.mp hLast'
      exact hRest.le_offset (List.mem_of_getLast? he)
    have hFuel' : (d :: cs).length ≤ fuel := by
      simp only [List.length_cons] at hFuel ⊢
      omega
    have hTail := ih hRest (fun e he => hTags e (List.mem_cons_of_mem _ he)) hLast' hFuel'
    have hNext' : c.offset + c.size ≤ last := hNext
    simp only [chunksFrom, hTags c List.mem_cons_self, if_pos hNext']
    exact congrArg (c :: ·) hTail

theorem Represents.chunksFrom_eq {t : Span} (h : Represents r (some t) cs) {fuel : Nat}
    (hFuel : cs.length ≤ fuel) : chunksFrom r t.last fuel t.first = cs := by
  have hSpan := h.span_eq
  cases cs with
  | nil => cases hSpan
  | cons c cs =>
    have hLast :
        (c :: cs).getLast?.map Chunk.offset = some ((c :: cs).getLast (by simp)).offset := by
      rw [List.getLast?_eq_some_getLast (by simp)]
      rfl
    rw [spanOf_eq_some hLast] at hSpan
    obtain rfl := Option.some.inj hSpan
    exact Implicit.chunksFrom_eq h.tiles h.tagged hLast hFuel

theorem Represents.chunks_eq (h : Represents r span cs) : chunks r span = cs := by
  cases span with
  | none =>
    have hNone := Option.map_eq_none_iff.mp h.span_eq.symm
    exact (List.getLast?_eq_none_iff.mp hNone).symm
  | some t =>
    have hLength := h.tiles.length_le
    exact h.chunksFrom_eq (by omega)

theorem Represents.blocks_eq (h : Represents r span cs) : blocks r span = cs.map block := by
  rw [blocks, h.chunks_eq]

theorem Represents.first_eq (h : Represents r span cs) {t : Span} (ht : t ∈ span) :
    t.first = start := by
  rw [h.span_eq] at ht
  obtain ⟨c, _, rfl⟩ := Option.map_eq_some_iff.mp ht
  rfl

theorem word_tag_lt {a : Nat} (hr : r.Anchored) (hTiles : Chunk.Tiles 0 a cs r.size) (hc : c ∈ cs) :
    c.tag.size % 2 = 0 ∧ c.tag.word < wordLimit := by
  have hSize := hr.size_lt
  have hBounds := hTiles.bounds hc
  have hFlag := c.tag.allocated.toNat_le
  unfold Chunk.size at hBounds
  unfold Tag.word
  omega

theorem allocated_block (c : Chunk) : (block c).allocated = c.allocated := rfl

theorem header_not_foreign {a : Nat} (hTiles : Chunk.Tiles 0 start cs a) (hc : c ∈ cs) :
    ∀ x, r.WordAt c.offset x → ¬ Foreign r.anchor a (cs.map block) x := by
  have hBounds := hTiles.bounds hc
  have hWord : wordSize = 8 := rfl
  apply Region.not_foreign
  · omega
  · intro b hb
    rw [held_map allocated_block] at hb
    obtain ⟨d, hd, rfl⟩ := List.mem_map.mp hb
    have hd' := List.mem_of_mem_filter hd
    have hBounds' := hTiles.bounds hd'
    show c.offset + wordSize ≤ d.offset + wordSize ∨
      d.offset + wordSize + (d.size - wordSize) ≤ c.offset
    rcases hTiles.apart hc hd' with rfl | h | h
    · exact .inl le_rfl
    · unfold Chunk.stop at h
      omega
    · unfold Chunk.stop at h
      omega

theorem Represents.of_keeps {K : Nat → Prop} (h : Represents r span cs) (hs : r.Keeps K s)
    (hK : ∀ c ∈ cs, ∀ x, r.WordAt c.offset x → K x) : Represents s span cs where
  anchored := hs.anchored h.anchored
  tiles := hs.size_eq ▸ h.tiles
  tagged c hc := (hs.tag_eq (hK c hc)).trans (h.tagged c hc)
  span_eq := h.span_eq

theorem Represents.of_client (h : Represents r span cs)
    (hs : r.Keeps (fun x => ¬ ∃ b ∈ held (cs.map block), b.At r.anchor x) s) :
    Represents s span cs :=
  h.of_keeps hs fun _ hc x hx hIn => header_not_foreign h.tiles hc x hx (.inr (.inr hIn))

/-- Without blocks the region is one word. With blocks the span leads from the first, behind that
word, to the last of those that the headers describe, and these tile the rest of the region. -/
def Spanned (r : Region) (span : Option Span) : Prop :=
  (span = none ∧ r.size = 8) ∨ ∃ last cs, span = some ⟨8, last⟩ ∧ chunks r span = cs ∧
    Chunk.Tiles 0 8 cs r.size ∧ (∀ c ∈ cs, r.tag c.offset = c.tag ∧ c.size ≠ 0 ∧ c.size % 16 = 0) ∧
    cs.getLast?.map Chunk.offset = some last

theorem Represents.spanned (h : Represents r span cs) : Spanned r span := by
  by_cases hNil : cs = []
  · subst hNil
    exact .inl ⟨h.span_eq, (Chunk.tiles_nil.mp h.tiles).symm⟩
  · have hLast : cs.getLast?.map Chunk.offset = some (cs.getLast hNil).offset := by
      rw [List.getLast?_eq_some_getLast hNil]
      rfl
    refine .inr ⟨_, cs, h.span_eq.trans (spanOf_eq_some hLast), h.chunks_eq, h.tiles,
      fun c hc => ?_, hLast⟩
    obtain ⟨hPos, hMod⟩ := (Tag.wellSized_iff _).mp (h.tiles.wellSized hc)
    exact ⟨h.tagged c hc, Nat.ne_of_gt hPos, hMod⟩

end BlockHeap.Implicit
