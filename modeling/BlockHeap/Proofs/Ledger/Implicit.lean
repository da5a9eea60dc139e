import BlockHeap.Proofs.Implicit.Operations
import BlockHeap.Proofs.Ledger.Basic

/-!
# The books of an implicit heap

A heap that represents chunks has the tags of these as its books. What an operation makes of the
chunks is what the books make of the tags.
-/

namespace BlockHeap

namespace Implicit

variable {n left size a : Nat} {answer : Option Nat} {c : Chunk} {cs ds xs ys : List Chunk}

def booksOf (cs : List Chunk) : Books := ⟨cs.map Chunk.tag⟩

theorem chunks_booksOf (h : Chunk.Tiles 0 start cs a) : (booksOf cs).chunks = cs := h.lay_eq

theorem blocks_booksOf (h : Chunk.Tiles 0 start cs a) : (booksOf cs).blocks = cs.map block := by
  rw [Books.blocks, chunks_booksOf h]
  rfl

theorem size_booksOf (h : Chunk.Tiles 0 start cs a) : (booksOf cs).size = a := h.extent_eq

theorem map_tag_carve {need : Nat} (hSized : c.tag.WellSized) (hNeed : need % 16 = 0)
    (hLe : need ≤ c.size) : (c.carve 0 need).map Chunk.tag =
      ⟨need, true⟩ :: if c.size = need then [] else [⟨c.size - need, false⟩] := by
  have hSize := Chunk.size_of_wellSized hSized
  unfold Chunk.carve
  by_cases hWhole : c.size = need
  · rw [if_pos (by omega), if_pos hWhole, List.map_singleton, hWhole]
  · rw [if_neg (by omega), if_neg hWhole]
    rfl

theorem skip_eq (need : Nat) (c : Chunk) :
    (c.tag.allocated || c.tag.size < need) = !c.fits need := by
  rw [Chunk.fits, Bool.not_and, Bool.not_not, ← decide_not]
  simp only [Nat.not_le]

theorem Outcome.books_eq (h : Outcome n left size cs answer ds)
    (hTiles : Chunk.Tiles 0 start cs size) :
    (booksOf cs).allocate left n = (answer, booksOf ds) := by
  have hMerged := hTiles.mergeRuns (by decide)
  have hTags : (runs Tag.allocated (booksOf cs).tags).map Tag.fuse =
      (Chunk.mergeRuns 0 cs).map Chunk.tag := (Chunk.map_tag_mergeRuns cs).symm
  have hSkip : ∀ {need : Nat} {es : List Chunk}, (∀ d ∈ es, d.fits need = false) →
      ∀ t ∈ es.map Chunk.tag, (t.allocated || t.size < need) = true := by
    intro need es hNot
    exact List.forall_mem_map.mpr fun d hd => by rw [skip_eq, hNot d hd]; rfl
  unfold Books.allocate
  simp only [hTags]
  cases h with
  | unrepresentable hNone => rw [if_pos ((required?_eq_none_iff n).mp hNone)]
  | @reused need xs c ys hRequired hSplit hOther hFits =>
    obtain ⟨rfl, hLt⟩ := required?_eq_some_iff.mp hRequired
    rw [hSplit] at hMerged ⊢
    obtain ⟨hx, hSized, _⟩ := Chunk.tiles_append_cons.mp hMerged
    have hCarved := map_tag_carve hSized (required?_pos hRequired).2 (Chunk.fits_iff.mp hFits).2
    rw [if_neg hLt.not_ge, List.map_append, List.map_cons,
      span_append_cons (hSkip hOther) ((skip_eq _ c).trans (by rw [hFits]; rfl))]
    refine Prod.ext (congrArg (fun o => some (o + 8)) hx.extent_eq) ?_
    rw [booksOf, List.map_append, List.map_append, hCarved]
  | @appended need hRequired hNot hRoom =>
    obtain ⟨rfl, hLt⟩ := required?_eq_some_iff.mp hRequired
    rw [if_neg hLt.not_ge, span_of_forall (hSkip hNot)]
    simp only [if_pos hRoom]
    refine Prod.ext (congrArg (fun o => some (o + 8)) hMerged.extent_eq) ?_
    rw [booksOf, List.map_append]
    rfl
  | exhausted hRequired hNot hRoom =>
    obtain ⟨rfl, hLt⟩ := required?_eq_some_iff.mp hRequired
    rw [if_neg hLt.not_ge, span_of_forall (hSkip hNot)]
    simp only [if_neg hRoom.not_ge]
    rfl

theorem free_booksOf (h : Chunk.Tiles 0 start (xs ++ c :: ys) a) :
    (booksOf (xs ++ c :: ys)).free (c.offset + 8) =
      booksOf (xs ++ ⟨c.offset, c.size, false⟩ :: ys) := by
  have hOther : ∀ d ∈ xs ++ ys, d.offset + 8 ≠ c.offset + 8 := fun d hd hEq =>
    h.offset_ne hd (Nat.add_right_cancel hEq)
  obtain ⟨hBefore, hAfter⟩ := List.forall_mem_append.mp hOther
  rw [Books.free, chunks_booksOf h, booksOf, List.map_append, List.map_append, List.map_cons,
    List.map_cons, if_pos rfl, List.map_congr_left fun d hd => if_neg (hBefore d hd),
    List.map_congr_left fun d hd => if_neg (hAfter d hd)]

end Implicit

end BlockHeap
