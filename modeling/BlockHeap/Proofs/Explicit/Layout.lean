import BlockHeap.Explicit.Basic
import BlockHeap.Proofs.Chunk.Merging
import BlockHeap.Proofs.FreeList.Links
import BlockHeap.Proofs.Region.Foreign

/-!
# The layout of an explicit heap

`Holds r e cs ns` says that the chunks `cs` tile the region from the prologue to the offset `e`,
with equal headers and footers, and that the free list has the nodes `ns`, which are payloads of
free ones among them. `Represents` says in addition that the region ends with the epilogue at `e`,
that no two neighbours are free, and that every free chunk is listed. Between two operations the
stronger relation holds, and amid one the weaker.
-/

namespace BlockHeap.Explicit

open FreeList (Linked Spread NodeAt)

def Tagged (r : Region) (c : Chunk) : Prop :=
  r.tag (header c.offset) = c.tag ∧ r.tag (payload c.offset + c.size) = c.tag

structure Holds (r : Region) (e : Nat) (cs : List Chunk) (ns : List Nat) : Prop where
  anchored : r.Anchored
  tiles : Chunk.Tiles overhead prologue cs e
  stop_le : e + overhead ≤ r.size
  prologue_tag : r.tag prologue = Tag.sentinel
  tagged : ∀ c ∈ cs, Tagged r c
  linked : Linked r freeList.first ns freeList.last
  nodup : ns.Nodup
  free : ∀ n ∈ ns, ∃ c ∈ cs, c.allocated = false ∧ n = payload c.offset

/-- Where a node of the list may be: at a sentinel, or at the payload of a free chunk. -/
def Site (cs : List Chunk) (n : Nat) : Prop :=
  n = freeList.first ∨ n = freeList.last ∨ ∃ c ∈ cs, c.allocated = false ∧ n = payload c.offset

def tagWords (cs : List Chunk) : List Nat :=
  prologue :: cs.flatMap fun c => [header c.offset, payload c.offset + c.size]

def linkWords (ns : List Nat) : List Nat :=
  (freeList.first :: (ns ++ [freeList.last])).flatMap fun n => [n, n + wordSize]

def freeNodes (cs : List Chunk) : List Nat := (cs.filter (!·.allocated)).map (payload ·.offset)

structure Represents (r : Region) (cs : List Chunk) (ns : List Nat) : Prop where
  holds : Holds r (r.size - overhead) cs ns
  epilogue_tag : r.tag (header (r.size - overhead)) = Tag.sentinel
  separated : Chunk.Separated cs
  listed : ns.Perm (freeNodes cs)

variable {K : Nat → Prop} {r s : Region} {e n o : Nat} {c d : Chunk} {cs ds xs ys : List Chunk}
  {ns ms : List Nat}

theorem header_eq (b : Nat) : header b = b + 8 := rfl

theorem payload_eq (b : Nat) : payload b = b + 16 := rfl

theorem overhead_eq : overhead = 16 := rfl

theorem prologue_eq : prologue = 32 := rfl

theorem allocated_block (c : Chunk) : (block c).allocated = c.allocated := rfl

theorem stop_eq (c : Chunk) : c.stop overhead = payload c.offset + c.size := rfl

theorem bounds_of_mem (h : Chunk.Tiles overhead prologue cs e) (hc : c ∈ cs) :
    32 ≤ c.offset ∧ c.offset % 16 = 0 ∧ c.offset + 16 + c.size ≤ e ∧ 16 ≤ c.size ∧
    c.size % 16 = 0 := by
  have hBounds := h.bounds hc
  have hMod := h.offset_mod (by decide) hc
  rw [prologue_eq] at hBounds hMod
  rw [overhead_eq] at hBounds
  omega

theorem apart_of_mem (h : Chunk.Tiles overhead prologue cs e) (hc : c ∈ cs) (hd : d ∈ cs) :
    c = d ∨ c.offset + 16 + c.size ≤ d.offset ∨ d.offset + 16 + d.size ≤ c.offset := h.apart hc hd

theorem word_tag_lt (hr : r.Anchored) (hTiles : Chunk.Tiles overhead prologue cs e)
    (he : e + overhead ≤ r.size) (hc : c ∈ cs) : c.tag.size % 2 = 0 ∧ c.tag.word < wordLimit := by
  have hEnd := hr.end_lt
  have hBounds := bounds_of_mem hTiles hc
  have hFlag := c.tag.allocated.toNat_le
  unfold Chunk.size at hBounds
  unfold Tag.word
  omega

theorem mem_tagWords : o ∈ tagWords cs ↔
    o = prologue ∨ ∃ c ∈ cs, o = header c.offset ∨ o = payload c.offset + c.size := by
  simp [tagWords]

theorem mem_linkWords : o ∈ linkWords ns ↔
    ∃ n ∈ freeList.first :: (ns ++ [freeList.last]), o = n ∨ o = n + wordSize := by
  simp [linkWords, or_assoc]

theorem site_of_mem (hFree : ∀ n ∈ ns, ∃ c ∈ cs, c.allocated = false ∧ n = payload c.offset)
    (hn : n ∈ freeList.first :: (ns ++ [freeList.last])) : Site cs n := by
  rcases List.mem_cons.mp hn with rfl | hn
  · exact .inl rfl
  · rcases List.mem_append.mp hn with hn | hn
    · exact .inr (.inr (hFree n hn))
    · exact .inr (.inl (List.mem_singleton.mp hn))

theorem site_apart (h : Chunk.Tiles overhead prologue cs e) (hn : Site cs n)
    (ho : o ∈ tagWords cs) :
    o + 8 ≤ n ∨ n + 16 ≤ o := by
  have hSite : n = 0 ∨ n = 16 ∨ ∃ c ∈ cs, n = c.offset + 16 := by
    rcases hn with rfl | rfl | ⟨c, hc, _, rfl⟩
    · exact .inl rfl
    · exact .inr (.inl rfl)
    · exact .inr (.inr ⟨c, hc, rfl⟩)
  have hWord : o = 32 ∨ ∃ c ∈ cs, o = c.offset + 8 ∨ o = c.offset + 16 + c.size :=
    mem_tagWords.mp ho
  rcases hWord with rfl | ⟨c, hc, hoc⟩
  · rcases hSite with rfl | rfl | ⟨d, hd, rfl⟩
    · omega
    · omega
    · have hBounds := bounds_of_mem h hd
      omega
  · have hBounds := bounds_of_mem h hc
    rcases hSite with rfl | rfl | ⟨d, hd, rfl⟩
    · omega
    · omega
    · have hBounds' := bounds_of_mem h hd
      rcases apart_of_mem h hc hd with rfl | hApart | hApart
      · omega
      · omega
      · omega

theorem site_apart_site (h : Chunk.Tiles overhead prologue cs e) {m : Nat} (hm : Site cs m)
    (hn : Site cs n) (hNe : m ≠ n) :
    FreeList.Apart m n := by
  have hSite : ∀ k, Site cs k → k = 0 ∨ k = 16 ∨ (48 ≤ k ∧ k % 16 = 0) := by
    rintro k (rfl | rfl | ⟨c, hc, _, rfl⟩)
    · exact .inl rfl
    · exact .inr (.inl rfl)
    · have hBounds := bounds_of_mem h hc
      rw [payload_eq]
      omega
  have hm' := hSite m hm
  have hn' := hSite n hn
  unfold FreeList.Apart FreeList.nodeSize wordSize
  omega

theorem spread_of_sites (h : Chunk.Tiles overhead prologue cs e) (hNodup : ns.Nodup)
    (hFree : ∀ n ∈ ns, ∃ c ∈ cs, c.allocated = false ∧ n = payload c.offset) :
    Spread freeList.first ns freeList.last := by
  have hNe : ∀ n ∈ ns, n ≠ freeList.first ∧ n ≠ freeList.last := by
    intro n hn
    obtain ⟨c, hc, _, rfl⟩ := hFree n hn
    have hBounds := bounds_of_mem h hc
    have hFirst : freeList.first = 0 := rfl
    have hLast : freeList.last = 16 := rfl
    rw [payload_eq, hFirst, hLast]
    omega
  have hSite : ∀ n ∈ ns, Site cs n := fun n hn => .inr (.inr (hFree n hn))
  unfold Spread
  refine List.pairwise_cons.mpr ⟨?_, List.pairwise_append.mpr ⟨?_, List.pairwise_singleton _ _, ?_⟩⟩
  · intro n hn
    rcases List.mem_append.mp hn with hn | hn
    · exact site_apart_site h (.inl rfl) (hSite n hn) (hNe n hn).1.symm
    · rw [List.mem_singleton.mp hn]
      exact site_apart_site h (.inl rfl) (.inr (.inl rfl)) (by decide)
  · exact hNodup.imp_of_mem fun hm hn hmn => site_apart_site h (hSite _ hm) (hSite _ hn) hmn
  · intro n hn m hm
    rw [List.mem_singleton.mp hm]
    exact site_apart_site h (hSite n hn) (.inr (.inl rfl)) (hNe n hn).2

theorem Holds.spread (h : Holds r e cs ns) : Spread freeList.first ns freeList.last :=
  spread_of_sites h.tiles h.nodup h.free

theorem payload_apart (h : Chunk.Tiles overhead prologue cs e) (hc : c ∈ cs)
    (hFlag : c.allocated = true) :
    (∀ o ∈ tagWords cs, o + 8 ≤ c.offset + 16 ∨ c.offset + 16 + c.size ≤ o) ∧
    ∀ n, Site cs n → n + 16 ≤ c.offset + 16 ∨ c.offset + 16 + c.size ≤ n := by
  have hBounds := bounds_of_mem h hc
  constructor
  · intro o ho
    have hWord : o = 32 ∨ ∃ d ∈ cs, o = d.offset + 8 ∨ o = d.offset + 16 + d.size :=
      mem_tagWords.mp ho
    rcases hWord with rfl | ⟨d, hd, ho⟩
    · omega
    · have hBounds' := bounds_of_mem h hd
      rcases apart_of_mem h hc hd with rfl | hApart | hApart
      · omega
      · omega
      · omega
  · rintro n (rfl | rfl | ⟨d, hd, hFree, rfl⟩)
    · exact .inl (by simp only [freeList]; omega)
    · exact .inl (by simp only [freeList, FreeList.nodeSize, wordSize]; omega)
    · rw [payload_eq]
      rcases apart_of_mem h hc hd with rfl | hApart | hApart
      · exact Bool.noConfusion (hFlag.symm.trans hFree)
      · omega
      · omega

theorem tagWord_stop_le (h : Chunk.Tiles overhead prologue cs e) (ho : o ∈ tagWords cs) :
    o ≤ e := by
  have hLe := h.le
  rw [prologue_eq] at hLe
  have hWord : o = 32 ∨ ∃ c ∈ cs, o = c.offset + 8 ∨ o = c.offset + 16 + c.size :=
    mem_tagWords.mp ho
  rcases hWord with rfl | ⟨c, hc, ho⟩
  · exact hLe
  · have hBounds := bounds_of_mem h hc
    omega

theorem site_stop_le (h : Chunk.Tiles overhead prologue cs e) (hn : Site cs n) : n + 16 ≤ e := by
  have hLe := h.le
  rw [prologue_eq] at hLe
  rcases hn with rfl | rfl | ⟨c, hc, _, rfl⟩
  · simp only [freeList]
    omega
  · simp only [freeList, FreeList.nodeSize, wordSize]
    omega
  · have hBounds := bounds_of_mem h hc
    rw [payload_eq]
    omega

theorem tagWord_not_foreign (h : Chunk.Tiles overhead prologue cs e) (ho : o ∈ tagWords cs) :
    ∀ x, r.WordAt o x → ¬ Foreign r.anchor (header e) (cs.map block) x := by
  apply Region.not_foreign
  · exact Nat.add_le_add_right (tagWord_stop_le h ho) wordSize
  · intro b hb
    rw [held_map allocated_block] at hb
    obtain ⟨d, hd, rfl⟩ := List.mem_map.mp hb
    obtain ⟨hMem, hFlag⟩ := List.mem_filter.mp hd
    exact (payload_apart h hMem hFlag).1 o ho

theorem site_not_foreign (h : Chunk.Tiles overhead prologue cs e) (hn : Site cs n) :
    ∀ x, NodeAt r n x → ¬ Foreign r.anchor (header e) (cs.map block) x := by
  rintro x ⟨hLow, hHigh⟩ hForeign
  have hStop := site_stop_le h hn
  have hSize : FreeList.nodeSize = 16 := rfl
  have hHeader := header_eq e
  unfold Region.address at hLow hHigh
  rcases hForeign with hx | hx | ⟨b, hb, hx⟩
  · omega
  · omega
  · rw [held_map allocated_block] at hb
    obtain ⟨d, hd, rfl⟩ := List.mem_map.mp hb
    obtain ⟨hMem, hFlag⟩ := List.mem_filter.mp hd
    have hApart := (payload_apart h hMem hFlag).2 n hn
    have hPayload : (block d).payload = d.offset + 16 := rfl
    have hLength : (block d).size = d.size := rfl
    unfold Block.At at hx
    omega

theorem epilogue_tag_eq {bs : List Block} (hs : r.Keeps (Foreign r.anchor (header e) bs) s) :
    s.tag (header e) = r.tag (header e) := hs.tag_eq fun _ hx => .inr (.inl hx.1)

theorem Holds.of_keeps (h : Holds r e cs ns) (hs : r.Keeps K s)
    (hTags : ∀ o ∈ tagWords cs, ∀ x, r.WordAt o x → K x)
    (hLinks : ∀ o ∈ linkWords ns, ∀ x, r.WordAt o x → K x) : Holds s e cs ns where
  anchored := hs.anchored h.anchored
  tiles := h.tiles
  stop_le := hs.size_eq ▸ h.stop_le
  prologue_tag := (hs.tag_eq (hTags _ (mem_tagWords.mpr (.inl rfl)))).trans h.prologue_tag
  tagged c hc := by
    obtain ⟨hHeader, hFooter⟩ := h.tagged c hc
    refine ⟨(hs.tag_eq (hTags _ ?_)).trans hHeader, (hs.tag_eq (hTags _ ?_)).trans hFooter⟩
    · exact mem_tagWords.mpr (.inr ⟨c, hc, .inl rfl⟩)
    · exact mem_tagWords.mpr (.inr ⟨c, hc, .inr rfl⟩)
  linked := by
    refine h.linked.congr (fun m hm => ?_) fun m hm => ?_
    · refine hs.word_eq (hLinks _ (mem_linkWords.mpr ⟨m, ?_, .inr rfl⟩))
      rw [← List.cons_append]
      exact List.mem_append_left _ hm
    · exact hs.word_eq (hLinks _ (mem_linkWords.mpr ⟨m, List.mem_cons_of_mem _ hm, .inl rfl⟩))
  nodup := h.nodup
  free := h.free

theorem Holds.of_grown {k : Nat} (h : Holds r e cs ns) (hs : r.Grown k s) : Holds s e cs ns where
  anchored := hs.anchored h.anchored
  tiles := h.tiles
  stop_le := h.stop_le.trans (hs.size_eq ▸ Nat.le_add_right _ _)
  prologue_tag := (hs.tag_eq _).trans h.prologue_tag
  tagged c hc := ⟨(hs.tag_eq _).trans (h.tagged c hc).1, (hs.tag_eq _).trans (h.tagged c hc).2⟩
  linked := h.linked.congr (fun _ _ => hs.word_eq _) fun _ _ => hs.word_eq _
  nodup := h.nodup
  free := h.free

theorem chunksFrom_eq {a : Nat} (hTiles : Chunk.Tiles overhead a cs e)
    (hTags : ∀ c ∈ cs, Tagged r c) (hEnd : r.tag (header e) = Tag.sentinel) {fuel : Nat}
    (hFuel : cs.length < fuel) :
    chunksFrom r fuel a = cs := by
  induction cs generalizing a fuel with
  | nil =>
    obtain ⟨fuel, rfl⟩ := Nat.exists_eq_succ_of_ne_zero (Nat.ne_of_gt hFuel)
    obtain rfl := hTiles
    simp only [chunksFrom, hEnd]
    rfl
  | cons c cs ih =>
    obtain ⟨fuel, rfl⟩ := Nat.exists_eq_succ_of_ne_zero (Nat.ne_of_gt (Nat.zero_lt_of_lt hFuel))
    obtain ⟨rfl, hSized, hRest⟩ := hTiles
    rw [List.length_cons] at hFuel
    simp only [chunksFrom, (hTags c List.mem_cons_self).1, if_neg hSized.1]
    exact congrArg (c :: ·) (ih hRest (fun d hd => hTags d (List.mem_cons_of_mem _ hd)) (by omega))

theorem mem_freeNodes :
    n ∈ freeNodes cs ↔ ∃ c ∈ cs, c.allocated = false ∧ n = payload c.offset := by
  simp only [freeNodes, List.mem_map, List.mem_filter, Bool.not_eq_true']
  constructor
  · rintro ⟨c, ⟨hc, hFlag⟩, rfl⟩
    exact ⟨c, hc, hFlag, rfl⟩
  · rintro ⟨c, hc, hFlag, rfl⟩
    exact ⟨c, ⟨hc, hFlag⟩, rfl⟩

theorem freeNodes_append (xs ys : List Chunk) :
    freeNodes (xs ++ ys) = freeNodes xs ++ freeNodes ys := by
  simp [freeNodes]

theorem freeNodes_cons_free (hFlag : c.allocated = false) (cs : List Chunk) :
    freeNodes (c :: cs) = payload c.offset :: freeNodes cs := by
  simp [freeNodes, hFlag]

theorem freeNodes_cons_allocated (hFlag : c.allocated = true) (cs : List Chunk) :
    freeNodes (c :: cs) = freeNodes cs := by
  simp [freeNodes, hFlag]

theorem nodup_freeNodes (h : Chunk.Tiles overhead prologue cs e) : (freeNodes cs).Nodup := by
  refine List.pairwise_map.mpr ((h.pairwise.filter _).imp fun {c d} hLe => ?_)
  rw [stop_eq] at hLe
  rw [payload_eq] at hLe ⊢
  rw [payload_eq]
  omega

theorem Represents.size_ge (h : Represents r cs ns) : 48 + 16 * cs.length ≤ r.size := by
  have hLength := h.holds.tiles.length_le
  have hStop := h.holds.stop_le
  rw [prologue_eq] at hLength
  rw [overhead_eq] at hLength hStop
  omega

theorem Represents.chunks_eq (h : Represents r cs ns) : chunks r = cs := by
  have hSize := h.size_ge
  exact chunksFrom_eq h.holds.tiles h.holds.tagged h.epilogue_tag (by omega)

theorem Represents.blocks_eq (h : Represents r cs ns) : blocks r = cs.map block := by
  rw [blocks, h.chunks_eq]

theorem Represents.length_nodes_le (h : Represents r cs ns) : ns.length ≤ cs.length := by
  rw [h.listed.length_eq, freeNodes, List.length_map]
  exact List.length_filter_le _ _

theorem Holds.not_mem (h : Holds r e cs ns) : freeList.first ∉ ns ∧ freeList.last ∉ ns :=
  ⟨h.spread.first_not_mem, h.spread.last_not_mem⟩

theorem Represents.newestFirst_eq (h : Represents r cs ns) :
    freeList.newestFirst r = ns.reverse := by
  have hSize := h.size_ge
  have hLength := h.length_nodes_le
  exact FreeList.olderFrom_eq h.holds.linked h.holds.not_mem.1 (by omega)

theorem Represents.oldestFirst_eq (h : Represents r cs ns) : freeList.oldestFirst r = ns := by
  have hSize := h.size_ge
  have hLength := h.length_nodes_le
  exact FreeList.newerFrom_eq h.holds.linked h.holds.not_mem.2 (by omega)

theorem Represents.word_not_foreign (h : Represents r cs ns)
    (ho : o ∈ header (r.size - overhead) :: (tagWords cs ++ linkWords ns)) :
    ∀ x, r.WordAt o x → ¬ Foreign r.anchor r.size (cs.map block) x := by
  obtain ⟨hHolds, -, -, -⟩ := h
  have hStop := hHolds.stop_le
  rw [overhead_eq] at hStop
  have hPlace : o + 8 ≤ r.size ∧
      ∀ d ∈ cs, d.allocated = true → o + 8 ≤ d.offset + 16 ∨ d.offset + 16 + d.size ≤ o := by
    rcases List.mem_cons.mp ho with rfl | ho
    · rw [header_eq, overhead_eq]
      refine ⟨by omega, fun d hd _ => .inr ?_⟩
      have hBounds := bounds_of_mem hHolds.tiles hd
      rw [overhead_eq] at hBounds
      omega
    · rcases List.mem_append.mp ho with ho | ho
      · have hLe := tagWord_stop_le hHolds.tiles ho
        rw [overhead_eq] at hLe
        exact ⟨by omega, fun d hd hFlag => (payload_apart hHolds.tiles hd hFlag).1 o ho⟩
      · obtain ⟨n, hn, ho⟩ := mem_linkWords.mp ho
        have hSite := site_of_mem hHolds.free hn
        have hLe := site_stop_le hHolds.tiles hSite
        rw [overhead_eq] at hLe
        unfold wordSize at ho
        refine ⟨by omega, fun d hd hFlag => ?_⟩
        have hApart := (payload_apart hHolds.tiles hd hFlag).2 n hSite
        omega
  refine Region.not_foreign hPlace.1 fun b hb => ?_
  rw [held_map allocated_block] at hb
  obtain ⟨d, hd, rfl⟩ := List.mem_map.mp hb
  obtain ⟨hMem, hFlag⟩ := List.mem_filter.mp hd
  exact hPlace.2 d hMem hFlag

theorem Represents.of_keeps (h : Represents r cs ns) (hs : r.Keeps K s)
    (hK : ∀ o ∈ header (r.size - overhead) :: (tagWords cs ++ linkWords ns),
      ∀ x, r.WordAt o x → K x) :
    Represents s cs ns where
  holds := by
    rw [hs.size_eq]
    refine h.holds.of_keeps hs (fun o ho => hK o ?_) fun o ho => hK o ?_
    · exact List.mem_cons_of_mem _ (List.mem_append_left _ ho)
    · exact List.mem_cons_of_mem _ (List.mem_append_right _ ho)
  epilogue_tag := by
    rw [hs.size_eq, hs.tag_eq (hK _ List.mem_cons_self), h.epilogue_tag]
  separated := h.separated
  listed := h.listed

theorem Represents.of_client (h : Represents r cs ns)
    (hs : r.Keeps (fun x => ¬ ∃ b ∈ held (cs.map block), b.At r.anchor x) s) :
    Represents s cs ns :=
  h.of_keeps hs fun _ ho x hx hIn => h.word_not_foreign ho x hx (.inr (.inr hIn))

end BlockHeap.Explicit
