import BlockHeap.Proofs.Explicit.Operations
import BlockHeap.Proofs.Ledger.Basic
import Mathlib.Data.List.Nodup

/-!
# The books of an explicit heap

A heap that represents chunks and nodes has the tags of the chunks as its books, and the nodes from
the newest on. The nodes are those of the free chunks, so a search of the list and a search of the
books look at the same blocks in the same order.
-/

namespace BlockHeap.Explicit

variable {r : Region} {n left need a : Nat} {answer : Option Nat} {c : Chunk}
  {cs ds xs ys : List Chunk} {ns ms newer : List Nat}

def booksOf (cs : List Chunk) (ns : List Nat) : Books := ⟨cs.map Chunk.tag, ns.reverse⟩

theorem chunks_booksOf (h : Chunk.Tiles overhead prologue cs a) (ns : List Nat) :
    (booksOf cs ns).chunks = cs := h.lay_eq

theorem blocks_booksOf (h : Chunk.Tiles overhead prologue cs a) (ns : List Nat) :
    (booksOf cs ns).blocks = cs.map block := by
  rw [Books.blocks, chunks_booksOf h]
  rfl

theorem size_booksOf (h : Chunk.Tiles overhead prologue cs a) (ns : List Nat) :
    (booksOf cs ns).size = a + 16 := by
  have hEnd : 32 + Chunk.extent 16 (cs.map Chunk.tag) = a := h.extent_eq
  show 48 + Chunk.extent 16 (cs.map Chunk.tag) = a + 16
  omega

theorem replace_booksOf (h : Chunk.Tiles overhead prologue (xs ++ c :: ys) a) (ns : List Nat)
    (ts : List Tag) : (booksOf (xs ++ c :: ys) ns).replace c ts =
      xs.map Chunk.tag ++ ts ++ ys.map Chunk.tag := by
  have hOther : ∀ d ∈ xs ++ ys, (if d = c then ts else [d.tag]) = [d.tag] := fun d hd =>
    if_neg fun hEq => h.offset_ne hd (congrArg Chunk.offset hEq)
  obtain ⟨hBefore, hAfter⟩ := List.forall_mem_append.mp hOther
  rw [Books.replace, chunks_booksOf h, List.flatMap_append, List.flatMap_cons, if_pos rfl,
    List.flatMap_congr hBefore, List.flatMap_congr hAfter, ← List.map_eq_flatMap,
    ← List.map_eq_flatMap, List.append_assoc]

theorem reverse_erase (h : ns.Nodup) (n : Nat) : (ns.erase n).reverse = ns.reverse.erase n := by
  have hReverse : ns.reverse.Nodup := List.nodup_reverse.mpr h
  rw [h.erase_eq_filter, hReverse.erase_eq_filter, List.filter_reverse]

theorem find?_payload (h : Chunk.Tiles overhead prologue (xs ++ c :: ys) a) (hLe : need ≤ c.size) :
    (xs ++ c :: ys).find? (fun d => d.offset + 16 = payload c.offset && need ≤ d.size) =
      some c := by
  refine List.find?_eq_some_iff_append.mpr ⟨by simp [payload_eq, hLe], xs, ys, rfl, fun d hd => ?_⟩
  have hNe := h.offset_ne (List.mem_append_left ys hd)
  simp [payload_eq, hNe]

theorem fit?_booksOf (h : Chunk.Tiles overhead prologue (xs ++ c :: ys) a) (older : List Nat)
    (hFits : c.fits need = true)
    (hNewer : ∀ d ∈ xs ++ c :: ys, payload d.offset ∈ newer → d.size < need) :
    (booksOf (xs ++ c :: ys) (older ++ payload c.offset :: newer)).fit? need = some c := by
  have hPassed : ∀ p ∈ newer.reverse, (xs ++ c :: ys).find?
      (fun d => d.offset + 16 = p && need ≤ d.size) = none := by
    intro p hp
    refine List.find?_eq_none.mpr fun d hd hMatch => ?_
    obtain ⟨hPayload, hLarge⟩ := Bool.and_eq_true_iff.mp hMatch
    have hSmall := hNewer d hd (by
      rw [payload_eq, of_decide_eq_true hPayload]
      exact List.mem_reverse.mp hp)
    exact hSmall.not_ge (of_decide_eq_true hLarge)
  have hNewest : (older ++ payload c.offset :: newer).reverse =
      newer.reverse ++ payload c.offset :: older.reverse := by simp
  rw [Books.fit?, chunks_booksOf h, booksOf, hNewest, List.findSome?_append,
    List.findSome?_eq_none_iff.mpr hPassed, Option.none_or, List.findSome?_cons,
    find?_payload h (Chunk.fits_iff.mp hFits).2]

theorem fit?_booksOf_eq_none (h : Holds r a cs ns) (hNot : ∀ d ∈ cs, d.fits need = false) :
    (booksOf cs ns).fit? need = none := by
  rw [Books.fit?, chunks_booksOf h.tiles, List.findSome?_eq_none_iff]
  intro p hp
  refine List.find?_eq_none.mpr fun d hd hMatch => ?_
  obtain ⟨hPayload, hLarge⟩ := Bool.and_eq_true_iff.mp hMatch
  obtain ⟨e, he, hFlag, rfl⟩ := h.free p (List.mem_reverse.mp hp)
  have hOffset : d.offset + 16 = e.offset + 16 := of_decide_eq_true hPayload
  have hFits : d.fits need = true := by
    rcases apart_of_mem h.tiles hd he with rfl | hApart | hApart
    · exact Chunk.fits_iff.mpr ⟨hFlag, of_decide_eq_true hLarge⟩
    · omega
    · omega
  exact Bool.noConfusion (hFits.symm.trans (hNot d hd))

theorem Outcome.books_eq (h : Outcome n left r.size cs ns answer ds ms) (hr : Represents r cs ns)
    (hLeft : left < wordLimit) :
    (booksOf cs ns).allocate left n = (answer, booksOf ds ms) := by
  have hTiles := hr.holds.tiles
  have hNodup := hr.holds.nodup
  have hSize := hr.size_ge
  unfold Books.allocate
  cases h with
  | unrepresentable hNone => simp only [if_pos ((required?_eq_none_iff n).mp hNone)]
  | @reused need xs ys c older newer hRequired hSplit hNodes hFits hNewer =>
    subst hSplit hNodes
    obtain ⟨rfl, hLt⟩ := required?_eq_some_iff.mp hRequired
    have hFit := fit?_booksOf hTiles older hFits hNewer
    have hOthers : (booksOf (xs ++ c :: ys) (older ++ payload c.offset :: newer)).newest.erase
        (c.offset + 16) = (older ++ newer).reverse := by
      rw [← erase_of_split hNodup]
      exact (reverse_erase hNodup _).symm
    have hLe := (Chunk.fits_iff.mp hFits).2
    simp only [if_neg hLt.not_ge, hFit, replace_booksOf hTiles, hOthers]
    unfold Chunk.carve
    split
    · rw [if_pos (by rw [overhead_eq]; omega)]
      simp [booksOf, freeNodes, payload_eq]
    · rw [if_neg (by rw [overhead_eq]; omega)]
      simp [booksOf, freeNodes, payload_eq, overhead_eq]
  | @appended need hRequired hNot hRoom =>
    obtain ⟨rfl, hLt⟩ := required?_eq_some_iff.mp hRequired
    have hFit := fit?_booksOf_eq_none hr.holds hNot
    rw [overhead_eq] at hRoom
    have hEnd : r.size - overhead + 16 = r.size := by
      rw [overhead_eq]
      omega
    simp only [if_neg hLt.not_ge, hFit, if_pos (And.intro (hRoom.trans_lt hLeft) hRoom),
      size_booksOf hTiles, hEnd]
    simp [booksOf]
  | exhausted hRequired hNot hRoom =>
    obtain ⟨rfl, hLt⟩ := required?_eq_some_iff.mp hRequired
    have hFit := fit?_booksOf_eq_none hr.holds hNot
    rw [overhead_eq] at hRoom
    simp only [if_neg hLt.not_ge, hFit, if_neg fun h => hRoom.not_ge (And.right h)]

theorem filter_eq_none {o : Option Chunk} (h : ∀ c ∈ o, c.allocated = true) :
    o.filter (!·.allocated) = none := by
  cases o with
  | none => rfl
  | some c => simp [h c rfl]

theorem filter_eq_some (h : c.allocated = false) : (some c).filter (!·.allocated) = some c := by
  simp [h]

theorem Represents.free_booksOf (hr : Represents r (xs ++ c :: ys) ns) (hFlag : c.allocated = true)
    (h : Coalesced xs ⟨c.offset, c.size, false⟩ ys (ns ++ [payload c.offset]) ds ms) :
    (booksOf (xs ++ c :: ys) ns).free (payload c.offset) = booksOf ds ms := by
  have hTiles := hr.holds.tiles
  have hNew : payload c.offset ∉ ns := hr.holds.not_listed (by simp) hFlag
  have hSpan : (xs ++ c :: ys).span (fun d => d.offset + 16 ≠ payload c.offset) =
      (xs, c :: ys) := by
    refine span_append_cons (fun d hd => ?_) (by simp [payload_eq])
    have hNe := hTiles.offset_ne (List.mem_append_left ys hd)
    simp [payload_eq, hNe]
  have hListed : ∀ d ∈ ys, d.allocated = false → payload d.offset ∈ ns := fun d hd hFree =>
    hr.listed.mem_iff.mpr (mem_freeNodes.mpr ⟨d, by simp [hd], hFree, rfl⟩)
  have hOwn : (ns ++ [payload c.offset]).erase (payload c.offset) = ns := by
    rw [List.erase_append_right _ hNew, List.erase_cons_head, List.append_nil]
  simp only [Books.free, chunks_booksOf hTiles, hSpan]
  cases h with
  | alone hLast hHead =>
    simp only [filter_eq_none hLast, filter_eq_none hHead]
    simp [booksOf]
  | before hp hHead =>
    simp only [List.getLast?_concat, filter_eq_some hp, filter_eq_none hHead, hOwn]
    simp [booksOf, overhead_eq]
  | @after _ ys _ d _ hLast hd =>
    have hMem := hListed d List.mem_cons_self hd
    simp only [filter_eq_none hLast, List.head?_cons, filter_eq_some hd,
      List.erase_append_left _ hMem]
    simp [booksOf, overhead_eq, payload_eq, reverse_erase hr.holds.nodup]
  | both hp hd =>
    simp only [List.getLast?_concat, filter_eq_some hp, List.head?_cons, filter_eq_some hd, hOwn]
    simp [booksOf, overhead_eq, payload_eq, reverse_erase hr.holds.nodup, Chunk.size]
    omega

end BlockHeap.Explicit
