import BlockHeap.Proofs.Watched.Explicit.Basic

/-!
# Releasing a block of an explicit heap under watch

A released block is marked, listed and merged with its free neighbours. Merging reads the tags on
both sides of the block, which are there even for the first and the last one, and so it leaves the
bench secure in each of the four cases.
-/

namespace BlockHeap.Watched.Explicit

open Bench
open BlockHeap.Explicit

variable {b : Bench} {e : Nat} {x y p : Chunk} {ds xs ys : List Chunk} {ns ms : List Nat}

section Merge

variable (hEnd : b.region.tag (header e) = Tag.sentinel) (hOwned : b.Owned (header e))

include hEnd hOwned

theorem Kept.does_merge_alone (h : Kept b e (xs ++ x :: ys) ns)
    (hLast : ∀ p ∈ xs.getLast?, p.allocated = true) (hHead : ∀ d ∈ ys.head?, d.allocated = true) :
    Does (merge x.offset) b ⟨⟩ b := by
  have hx : x ∈ xs ++ x :: ys := by simp
  have hPrevious := does_previousFree h hx
  have hNext := h.does_nextFree hOwned hx
  rw [h.holds.isPreviousFree_of_allocated hLast] at hPrevious
  rw [h.holds.isNextFree_of_allocated hEnd hHead] at hNext
  exact (does_sizeAt h hx).bind (hPrevious.bind (hNext.bind (does_pure _ b)))

theorem Kept.does_merge_before (h : Kept b e (xs ++ [p] ++ x :: ys) ns)
    (hListed : payload x.offset ∈ ns) (hFlag : x.allocated = false) (hp : p.allocated = false)
    (hHead : ∀ d ∈ ys.head?, d.allocated = true) :
    ∃ c, Does (merge x.offset) b ⟨⟩ c ∧ c.region = (coalesce b.region x.offset).value ∧
      Kept c e (xs ++ ⟨p.offset, p.size + overhead + x.size, false⟩ :: ys)
        (ns.erase (payload x.offset)) ∧ b.Marks [] c := by
  have hx : x ∈ xs ++ [p] ++ x :: ys := by simp
  have hPrevious := does_previousFree h hx
  have hNext := h.does_nextFree hOwned hx
  rw [h.holds.isPreviousFree_of_free hp] at hPrevious
  rw [h.holds.isNextFree_of_allocated hEnd hHead] at hNext
  have hHolds := (h.holds.coalesce_before hEnd hListed hFlag hp hHead).1
  obtain ⟨c₁, hRemove, hRegion₁, hKept₁, hMarks₁⟩ := h.does_remove hListed
  rw [h.holds.value_coalesce_before hEnd hListed hp hHead, ← hRegion₁] at hHolds ⊢
  obtain ⟨c, hMark, hRegion, hKept, hMarks⟩ := hKept₁.does_mark hHolds (by
    simp +contextual [or_imp])
  have hSize : p.size + overhead + x.size < wordLimit :=
    size_lt_of_mem hHolds (x := ⟨p.offset, p.size + overhead + x.size, false⟩) (by simp)
  have hPlus := does_plus (m := p.size) (n := overhead) (by omega) c₁
  have hPlus' := does_plus (m := p.size + overhead) (n := x.size) (by omega) c₁
  exact ⟨c, (does_sizeAt h hx).bind (hPrevious.bind (hNext.bind (h.does_previous.bind
    ((does_payloadAt h hx).bind (hRemove.bind ((does_sizeAt hKept₁ (by simp)).bind
    (hPlus.bind (hPlus'.bind hMark)))))))), hRegion, hKept, hMarks₁.trans hMarks⟩

theorem Kept.does_merge_after (h : Kept b e (xs ++ x :: y :: ys) ns)
    (hListed : payload y.offset ∈ ns) (hFlag : x.allocated = false) (hy : y.allocated = false)
    (hLast : ∀ p ∈ xs.getLast?, p.allocated = true) :
    ∃ c, Does (merge x.offset) b ⟨⟩ c ∧ c.region = (coalesce b.region x.offset).value ∧
      Kept c e (xs ++ ⟨x.offset, x.size + overhead + y.size, false⟩ :: ys)
        (ns.erase (payload y.offset)) ∧ b.Marks [] c := by
  have hx : x ∈ xs ++ x :: y :: ys := by simp
  have hPrevious := does_previousFree h hx
  have hNext := h.does_nextFree hOwned hx
  have hAfter := does_next h hx
  rw [h.holds.isPreviousFree_of_allocated hLast] at hPrevious
  rw [h.holds.isNextFree_of_free hEnd hy] at hNext
  rw [← h.holds.nextOf_eq, h.holds.nextOf_eq_offset] at hAfter
  have hHolds := (h.holds.coalesce_after hEnd hListed hFlag hy hLast).1
  obtain ⟨c₁, hRemove, hRegion₁, hKept₁, hMarks₁⟩ := h.does_remove hListed
  rw [h.holds.value_coalesce_after hEnd hListed hy hLast, ← hRegion₁] at hHolds ⊢
  obtain ⟨c, hMark, hRegion, hKept, hMarks⟩ := hKept₁.does_mark hHolds (by
    simp +contextual [or_imp])
  have hSize : x.size + overhead + y.size < wordLimit :=
    size_lt_of_mem hHolds (x := ⟨x.offset, x.size + overhead + y.size, false⟩) (by simp)
  have hPlus := does_plus (m := x.size) (n := overhead) (by omega) c₁
  have hPlus' := does_plus (m := x.size + overhead) (n := y.size) (by omega) c₁
  exact ⟨c, (does_sizeAt h hx).bind (hPrevious.bind (hNext.bind (hAfter.bind
    ((does_payloadAt h (by simp)).bind (hRemove.bind (hPlus.bind
    ((does_sizeAt hKept₁ (by simp)).bind (hPlus'.bind hMark)))))))), hRegion, hKept,
    hMarks₁.trans hMarks⟩

theorem Kept.does_merge_both (h : Kept b e (xs ++ [p] ++ x :: y :: ys) ns)
    (hListed : payload x.offset ∈ ns) (hListed' : payload y.offset ∈ ns)
    (hFlag : x.allocated = false) (hp : p.allocated = false) (hy : y.allocated = false) :
    ∃ c, Does (merge x.offset) b ⟨⟩ c ∧ c.region = (coalesce b.region x.offset).value ∧
      Kept c e (xs ++ ⟨p.offset, p.size + x.size + y.size + 2 * overhead, false⟩ :: ys)
        ((ns.erase (payload x.offset)).erase (payload y.offset)) ∧ b.Marks [] c := by
  have hx : x ∈ xs ++ [p] ++ x :: y :: ys := by simp
  have hPrevious := does_previousFree h hx
  have hNext := h.does_nextFree hOwned hx
  have hAfter := does_next h hx
  rw [h.holds.isPreviousFree_of_free hp] at hPrevious
  rw [h.holds.isNextFree_of_free hEnd hy] at hNext
  rw [← h.holds.nextOf_eq, h.holds.nextOf_eq_offset] at hAfter
  have hHolds := (h.holds.coalesce_both hEnd hListed hListed' hFlag hp hy).1
  obtain ⟨c₁, hRemove₁, hRegion₁, hKept₁, hMarks₁⟩ := h.does_remove hListed
  obtain ⟨c₂, hRemove₂, hRegion₂, hKept₂, hMarks₂⟩ :=
    hKept₁.does_remove (h.holds.mem_erase_next hListed')
  rw [h.holds.value_coalesce_both hEnd hListed hListed' hp hy, ← hRegion₁, ← hRegion₂] at hHolds ⊢
  obtain ⟨c, hMark, hRegion, hKept, hMarks⟩ := hKept₂.does_mark hHolds (by
    simp +contextual [or_imp])
  have hSize : p.size + x.size + y.size + 2 * overhead < wordLimit :=
    size_lt_of_mem hHolds (x := ⟨p.offset, p.size + x.size + y.size + 2 * overhead, false⟩)
      (by simp)
  have hPlus := does_plus (m := p.size) (n := x.size) (by omega) c₂
  have hPlus' := does_plus (m := p.size + x.size) (n := y.size) (by omega) c₂
  have hPlus'' := does_plus (m := p.size + x.size + y.size) (n := 2 * overhead) (by omega) c₂
  exact ⟨c, (does_sizeAt h hx).bind (hPrevious.bind (hNext.bind (h.does_previous.bind (hAfter.bind
    ((does_payloadAt h hx).bind (hRemove₁.bind ((does_payloadAt hKept₁ (by simp)).bind
    (hRemove₂.bind ((does_sizeAt hKept₂ (by simp)).bind (hPlus.bind
    ((does_sizeAt hKept₂ (by simp)).bind (hPlus'.bind (hPlus''.bind hMark))))))))))))), hRegion,
    hKept, (hMarks₁.trans hMarks₂).trans hMarks⟩

/-- Merging a chunk, free and listed, does what `coalesce` does. -/
theorem Kept.does_merge (h : Kept b e (xs ++ x :: ys) ns) (hFlag : x.allocated = false)
    (hListed : ∀ d ∈ xs ++ x :: ys, d.allocated = false → payload d.offset ∈ ns)
    (hCoalesced : Coalesced xs x ys ns ds ms) :
    ∃ c, Does (merge x.offset) b ⟨⟩ c ∧ c.region = (coalesce b.region x.offset).value ∧
      Kept c e ds ms ∧ b.Marks [] c := by
  have hOwn := hListed x (by simp) hFlag
  cases hCoalesced with
  | alone hLast hHead =>
    exact ⟨b, h.does_merge_alone hEnd hOwned hLast hHead,
      (h.holds.coalesce_alone hEnd hLast hHead).symm, h, .refl b⟩
  | before hp hHead => exact h.does_merge_before hEnd hOwned hOwn hFlag hp hHead
  | after hLast hd =>
    exact h.does_merge_after hEnd hOwned (hListed _ (by simp) hd) hFlag hd hLast
  | both hp hd => exact h.does_merge_both hEnd hOwned hOwn (hListed _ (by simp) hd) hFlag hp hd

end Merge

/-- Releasing an allocated block does what `free` does. -/
theorem Secure.does_deallocate (h : Secure b (xs ++ x :: ys) ns) (hFlag : x.allocated = true) :
    ∃ c ds ms, Does (deallocate (payload x.offset)) b ⟨⟩ c ∧
      c.region = (free b.region (payload x.offset)).value ∧ Secure c ds ms := by
  have hx : x ∈ xs ++ x :: ys := by simp
  have hUnlisted := h.represents.holds.not_listed hx hFlag
  obtain ⟨ds, ms, hCoalesced, hFreed, -, -⟩ := h.represents.free hFlag
  obtain ⟨-, hKeeps, hPerm⟩ := h.represents.pushed hFlag
  obtain ⟨c₁, hMark, hRegion₁, hKept₁, hMarks₁⟩ := h.kept.does_mark (h.represents.marked hFlag).1
    (by simp +contextual [or_imp])
  obtain ⟨c₂, hPush, hRegion₂, hKept₂, hMarks₂⟩ := hKept₁.does_push
    (x := ⟨x.offset, x.size, false⟩) (by simp) rfl hUnlisted
  rw [hRegion₁] at hRegion₂
  have hEnd := (epilogue_tag_eq hKeeps).trans h.represents.epilogue_tag
  rw [← hRegion₂] at hEnd
  have hOwned := hMarks₂.of_owned (hMarks₁.of_owned (h.owned _ List.mem_cons_self))
  obtain ⟨c, hMerge, hRegion, hKept, hMarks⟩ := hKept₂.does_merge hEnd hOwned rfl
    (fun d hd hFree => hPerm.mem_iff.mpr (mem_freeNodes.mpr ⟨d, hd, hFree, rfl⟩)) hCoalesced
  rw [hRegion₂, ← h.represents.holds.free_eq] at hRegion
  exact ⟨c, ds, ms, (does_blockAt _ b).bind ((does_sizeAt h.kept hx).bind
    ((does_tagAt h.kept hx).bind (.ensured hFlag (hMark.bind (hPush.bind hMerge))))), hRegion,
    hKept.secure (hRegion ▸ hFreed) (hMarks.of_owned hOwned)⟩

end BlockHeap.Watched.Explicit
