import BlockHeap.Heap
import BlockHeap.Proofs.Explicit.Operations
import BlockHeap.Proofs.Implicit.Operations

/-!
# The blocks of a heap

`Represents h bs` says that the blocks of the heap are `bs`, whatever its strategy. It settles where
payloads are, what the usable size of each is, and that no word of the heap's own lies in the
payload of an allocated block; so clients may write to these as they like.
-/

namespace BlockHeap

namespace Heap

/-- A heap without a layout has no blocks, and any other has those that its region represents. -/
inductive Represents : Heap → List Block → Prop where
  | bare {engine : Engine} {region : Region} : Represents ⟨engine, region, false⟩ []
  | implicit {span : Option Implicit.Span} {region : Region} {cs : List Chunk} :
      Implicit.Represents region span cs → Represents ⟨.implicit span, region, true⟩
        (cs.map Implicit.block)
  | explicit {region : Region} {cs : List Chunk} {ns : List Nat} :
      Explicit.Represents region cs ns → Represents ⟨.explicit, region, true⟩
        (cs.map Explicit.block)

/-- The offsets of the words that the heap keeps for itself: under the implicit strategy the
headers, under the explicit one the epilogue, the prologue, headers, footers, and the links of
sentinels and listed nodes. -/
def metadata (h : Heap) : List Nat :=
  if !h.ready then []
  else
    match h.engine with
    | .implicit span => (Implicit.chunks h.region span).map Chunk.offset
    | .explicit =>
      Explicit.header (h.size - Explicit.overhead) ::
        (Explicit.tagWords (Explicit.chunks h.region) ++
          Explicit.linkWords (Explicit.freeList.oldestFirst h.region))

variable {h s : Heap} {b : Block} {bs cs : List Block} {o : Nat}

theorem blocks_congr (hAnchor : s.region.anchor = h.region.anchor)
    (hBlocks : s.blockOffsets = h.blockOffsets) : s.blocks = h.blocks := by
  simp only [blocks, Region.address, hAnchor, hBlocks]

theorem Represents.blockOffsets_eq (hr : h.Represents bs) : h.blockOffsets = bs := by
  cases hr with
  | bare => rfl
  | implicit hr => exact hr.blocks_eq
  | explicit hr => exact hr.blocks_eq

theorem Represents.anchored (hr : h.Represents bs) (hReady : h.ready = true) :
    h.region.Anchored := by
  cases hr with
  | bare => cases hReady
  | implicit hr => exact hr.anchored
  | explicit hr => exact hr.holds.anchored

theorem Represents.ready_of_mem (hr : h.Represents bs) (hb : b ∈ bs) : h.ready = true := by
  cases hr with
  | bare => cases hb
  | implicit _ => rfl
  | explicit _ => rfl

theorem Represents.bounds (hr : h.Represents bs) (hb : b ∈ bs) :
    16 ≤ b.payload ∧ b.payload % 16 = 0 ∧ 8 ≤ b.size ∧ b.payload + b.size ≤ h.size := by
  cases hr with
  | bare => cases hb
  | implicit hr =>
    obtain ⟨c, hc, rfl⟩ := List.mem_map.mp hb
    have hBounds := hr.tiles.bounds hc
    have hMod := hr.tiles.offset_mod (by decide) hc
    unfold Implicit.block Heap.size Implicit.start alignment wordSize at *
    simp only at *
    omega
  | explicit hr =>
    obtain ⟨c, hc, rfl⟩ := List.mem_map.mp hb
    have hBounds := Explicit.bounds_of_mem hr.holds.tiles hc
    have hStop := hr.holds.stop_le
    unfold Explicit.block Explicit.payload Heap.size alignment wordSize at *
    simp only at *
    omega

theorem Represents.pairwise (hr : h.Represents bs) :
    bs.Pairwise fun b c => b.payload + b.size ≤ c.payload := by
  cases hr with
  | bare => exact List.Pairwise.nil
  | implicit hr =>
    refine List.pairwise_map.mpr (hr.tiles.pairwise.imp_of_mem fun {c d} hc hd hLe => ?_)
    have hBounds := hr.tiles.bounds hc
    unfold Implicit.block wordSize
    unfold Chunk.stop at hLe
    simp only
    omega
  | explicit hr =>
    refine List.pairwise_map.mpr (hr.holds.tiles.pairwise.imp fun {c d} hLe => ?_)
    rw [Explicit.stop_eq] at hLe
    exact hLe.trans (Nat.le_add_right _ _)

theorem Represents.disjoint (hr : h.Represents bs) (hHeld : (held bs).Perm cs) :
    cs.Pairwise fun b c => b.payload + b.size ≤ c.payload ∨ c.payload + c.size ≤ b.payload :=
  (hHeld.pairwise_iff fun hApart => hApart.symm).mp ((hr.pairwise.filter _).imp .inl)

theorem Represents.usableSize_eq (hr : h.Represents bs) (hb : b ∈ bs) :
    h.usableSize (h.region.address b.payload) = b.size := by
  cases hr with
  | bare => cases hb
  | @implicit span region cs hr =>
    obtain ⟨c, hc, rfl⟩ := List.mem_map.mp hb
    show (region.tag (region.anchor + (c.offset + wordSize) - region.anchor - wordSize)).size -
      wordSize = _
    rw [Nat.add_sub_cancel_left, Nat.add_sub_cancel, hr.tagged c hc]
    rfl
  | @explicit region cs ns hr =>
    obtain ⟨c, hc, rfl⟩ := List.mem_map.mp hb
    show Explicit.size region
      (Explicit.blockOf (region.anchor + Explicit.payload c.offset - region.anchor)) = _
    rw [Nat.add_sub_cancel_left, Explicit.blockOf_payload, hr.holds.size_eq hc]
    rfl

theorem Represents.usableSize_of_mem_blocks (hr : h.Represents bs) (hb : b ∈ h.blocks) :
    h.usableSize b.payload = b.size := by
  rw [blocks, hr.blockOffsets_eq] at hb
  obtain ⟨c, hc, rfl⟩ := List.mem_map.mp hb
  exact hr.usableSize_eq hc

theorem Represents.metadata_not_foreign (hr : h.Represents bs) (ho : o ∈ h.metadata) :
    ∀ x, h.region.WordAt o x → ¬ Foreign h.region.anchor h.size bs x := by
  cases hr with
  | bare => cases ho
  | @implicit span region cs hr =>
    have hOffset : o ∈ (Implicit.chunks region span).map Chunk.offset := ho
    rw [hr.chunks_eq] at hOffset
    obtain ⟨c, hc, rfl⟩ := List.mem_map.mp hOffset
    exact Implicit.header_not_foreign hr.tiles hc
  | @explicit region cs ns hr =>
    have hWord : o ∈ Explicit.header (region.size - Explicit.overhead) ::
        (Explicit.tagWords (Explicit.chunks region) ++ Explicit.linkWords
          (Explicit.freeList.oldestFirst region)) := ho
    rw [hr.chunks_eq, hr.oldestFirst_eq] at hWord
    exact hr.word_not_foreign hWord

/-- The heap stays as it is when its client changes bytes of payloads that it holds. -/
theorem Represents.mapMemory (hr : h.Represents bs) {f : Memory → Memory}
    (hf : h.memory.Agree (fun x => ¬ ∃ b ∈ held bs, b.At h.region.anchor x) (f h.memory)) :
    (h.mapMemory f).Represents bs := by
  have hKeeps :
      h.region.Keeps (fun x => ¬ ∃ b ∈ held bs, b.At h.region.anchor x) (h.region.mapMemory f) :=
    Region.keeps_mapMemory hf
  cases hr with
  | bare => exact .bare
  | implicit hr => exact .implicit (hr.of_client hKeeps)
  | explicit hr => exact .explicit (hr.of_client hKeeps)

theorem Represents.structure_mapMemory (hr : h.Represents bs) {f : Memory → Memory}
    (hf : h.memory.Agree (fun x => ¬ ∃ b ∈ held bs, b.At h.region.anchor x) (f h.memory)) :
    (h.mapMemory f).blocks = h.blocks ∧ (h.mapMemory f).metadata = h.metadata ∧
      (h.ready = true → h.strategy = .explicit →
        Explicit.freeList.newestFirst (h.mapMemory f).region =
          Explicit.freeList.newestFirst h.region ∧
        Explicit.freeList.oldestFirst (h.mapMemory f).region =
          Explicit.freeList.oldestFirst h.region) := by
  have hKeeps := Region.keeps_mapMemory hf
  have hBlocks : (h.mapMemory f).blocks = h.blocks :=
    blocks_congr rfl ((hr.mapMemory hf).blockOffsets_eq.trans hr.blockOffsets_eq.symm)
  refine ⟨hBlocks, ?_⟩
  cases hr with
  | bare => exact ⟨rfl, fun hReady => nomatch hReady⟩
  | @implicit span region cs hr =>
    have hChunks := (hr.of_client hKeeps).chunks_eq.trans hr.chunks_eq.symm
    exact ⟨congrArg (List.map Chunk.offset) hChunks, fun _ hExplicit => nomatch hExplicit⟩
  | @explicit region cs ns hr =>
    have hr' := hr.of_client hKeeps
    have hChunks := hr'.chunks_eq.trans hr.chunks_eq.symm
    have hOldest := hr'.oldestFirst_eq.trans hr.oldestFirst_eq.symm
    refine ⟨?_, fun _ _ => ⟨hr'.newestFirst_eq.trans hr.newestFirst_eq.symm, hOldest⟩⟩
    show Explicit.header (region.size - Explicit.overhead) ::
      (Explicit.tagWords (Explicit.chunks (region.mapMemory f)) ++
        Explicit.linkWords (Explicit.freeList.oldestFirst (region.mapMemory f))) = _
    rw [hChunks, hOldest]
    rfl

theorem Represents.word_mapMemory (hr : h.Represents bs) {f : Memory → Memory}
    (hf : h.memory.Agree (fun x => ¬ ∃ b ∈ held bs, b.At h.region.anchor x) (f h.memory))
    (ho : o ∈ h.metadata) : (h.mapMemory f).region.word o = h.region.word o :=
  (Region.keeps_mapMemory hf).word_eq fun x hx hIn =>
    hr.metadata_not_foreign ho x hx (.inr (.inr hIn))

end Heap

end BlockHeap
