import BlockHeap.Explicit.Check
import BlockHeap.Proofs.Explicit.Layout
import BlockHeap.Proofs.FreeList.Check
import Mathlib.Data.List.Perm.Subperm

/-!
# What the check of an explicit heap accepts

The check accepts exactly the regions in which the headers lead from the prologue to the epilogue
over chunks with equal headers and footers, no two of them free neighbours, and in which the free
list has as many nodes as there are free chunks among them. Such a list has no node twice, but the
check only looks at the word before a node: whether the nodes are those of the free chunks depends
on whether each of them is at a chunk at all.
-/

namespace BlockHeap.Explicit

structure Chained (r : Region) (a : Nat) (cs : List Chunk) : Prop where
  overhead_le : overhead ≤ r.size
  tiles : Chunk.Tiles overhead a cs (r.size - overhead)
  tagged : ∀ c ∈ cs, Tagged r c
  aligned : ∀ c ∈ cs, r.address (payload c.offset) % 16 = 0
  epilogue_tag : r.tag (header (r.size - overhead)) = Tag.sentinel
  separated : Chunk.Separated cs

variable {r : Region} {c : Chunk} {cs : List Chunk} {ns : List Nat}
  {a fuel freeBlocks count : Nat} {previous : Option Nat}

theorem chained_nil :
    Chained r a [] ↔ a + overhead = r.size ∧ r.tag (header a) = Tag.sentinel := by
  constructor
  · intro h
    obtain rfl := Chunk.tiles_nil.mp h.tiles
    exact ⟨Nat.sub_add_cancel h.overhead_le, h.epilogue_tag⟩
  · rintro ⟨hEnd, hTag⟩
    obtain rfl : a = r.size - overhead := by omega
    exact ⟨by omega, rfl, fun _ hc => (List.not_mem_nil hc).elim,
      fun _ hc => (List.not_mem_nil hc).elim, hTag, List.isChain_nil⟩

theorem chained_cons : Chained r a (c :: cs) ↔
    c.offset = a ∧ c.tag.WellSized ∧ Tagged r c ∧ r.address (payload c.offset) % 16 = 0 ∧
      (∀ d ∈ cs.head?, c.allocated = true ∨ d.allocated = true) ∧
      Chained r (c.stop overhead) cs := by
  constructor
  · rintro ⟨hSize, ⟨hOffset, hSized, hTiles⟩, hTagged, hAligned, hEnd, hSeparated⟩
    obtain ⟨hTag, hTagged⟩ := List.forall_mem_cons.mp hTagged
    obtain ⟨hAddress, hAligned⟩ := List.forall_mem_cons.mp hAligned
    obtain ⟨hHead, hSeparated⟩ := List.isChain_cons.mp hSeparated
    exact ⟨hOffset, hSized, hTag, hAddress, hHead, hSize, hTiles, hTagged, hAligned, hEnd,
      hSeparated⟩
  · rintro ⟨hOffset, hSized, hTag, hAddress, hHead, hSize, hTiles, hTagged, hAligned, hEnd,
      hSeparated⟩
    exact ⟨hSize, ⟨hOffset, hSized, hTiles⟩, List.forall_mem_cons.mpr ⟨hTag, hTagged⟩,
      List.forall_mem_cons.mpr ⟨hAddress, hAligned⟩, hEnd,
      List.isChain_cons.mpr ⟨hHead, hSeparated⟩⟩

theorem checkChain_succ_of_empty (hEmpty : (r.tag (header a)).size = 0) :
    checkChain r (fuel + 1) a freeBlocks previous = .ok count ↔
      (a + overhead = r.size ∧ r.tag (header a) = Tag.sentinel) ∧ freeBlocks = count := by
  have hTag : r.tag (header a) = Tag.sentinel ↔ (r.tag (header a)).allocated = true := by
    rw [Tag.ext_iff, hEmpty]
    exact and_iff_right rfl
  have hEnd : header a + wordSize = a + overhead := rfl
  rw [hTag, ← hEnd]
  simp only [checkChain, if_pos hEmpty, HeapError.guard_eq_ok_iff, Bool.not_eq_true',
    Bool.not_eq_false, not_not, Except.ok.injEq]
  constructor
  · rintro ⟨_, hAllocated, hStop, hCount⟩
    exact ⟨⟨hStop, hAllocated⟩, hCount⟩
  · rintro ⟨⟨hStop, hAllocated⟩, hCount⟩
    exact ⟨hStop.not_gt, hAllocated, hStop, hCount⟩

theorem checkChain_succ_of_ne (hNe : (r.tag (header a)).size ≠ 0) (hLimit : r.size < wordLimit) :
    checkChain r (fuel + 1) a freeBlocks previous = .ok count ↔
      (r.tag (header a)).WellSized ∧ Tagged r ⟨a, r.tag (header a)⟩ ∧
        r.address (payload a) % 16 = 0 ∧
        (Chunk.mk a (r.tag (header a))).stop overhead + overhead ≤ r.size ∧
        (((r.tag (header a)).allocated = true ∧
          checkChain r fuel (payload a + (r.tag (header a)).size) freeBlocks none = .ok count) ∨
         ((r.tag (header a)).allocated = false ∧ previous = none ∧
          checkChain r fuel (payload a + (r.tag (header a)).size) (freeBlocks + 1) (some a) =
            .ok count)) := by
  have hStop : (Chunk.mk a (r.tag (header a))).stop overhead =
    payload a + (r.tag (header a)).size := rfl
  have hGap : overhead = 2 * wordSize := rfl
  have hHeader : payload a = header a + wordSize := rfl
  rw [hStop]
  simp only [checkChain, if_neg hNe, alignment_rem, HeapError.guard_eq_ok_iff, not_not]
  constructor
  · rintro ⟨_, hSized, hAligned, _, _, hFits, hFooter, h⟩
    refine ⟨hSized, ⟨rfl, hFooter⟩, hAligned, by omega, ?_⟩
    split at h
    · next hAllocated => exact .inl ⟨hAllocated, h⟩
    · next hFree =>
      cases previous with
      | some previous => cases h
      | none => exact .inr ⟨eq_false_of_ne_true hFree, rfl, h⟩
  · rintro ⟨hSized, ⟨_, hFooter⟩, hAligned, hFits, hRest⟩
    refine ⟨by omega, hSized, hAligned, by omega, by omega, by omega, hFooter, ?_⟩
    rcases hRest with ⟨hAllocated, h⟩ | ⟨hFree, rfl, h⟩
    · rw [if_pos hAllocated, h]
    · rw [if_neg (by simp [hFree]), h]

theorem exists_chained_of_empty (hEmpty : (r.tag (header a)).size = 0) :
    (∃ cs, Chained r a cs ∧ (previous ≠ none → ∀ c ∈ cs.head?, c.allocated = true) ∧
      freeBlocks + (freeNodes cs).length = count ∧ cs.length < fuel + 1) ↔
      (a + overhead = r.size ∧ r.tag (header a) = Tag.sentinel) ∧ freeBlocks = count := by
  constructor
  · rintro ⟨cs, hChained, _, hCount, _⟩
    cases cs with
    | nil => exact ⟨chained_nil.mp hChained, hCount⟩
    | cons c cs =>
      obtain ⟨rfl, hSized, hTagged, _⟩ := chained_cons.mp hChained
      rw [hTagged.1] at hEmpty
      exact (hSized.1 hEmpty).elim
  · rintro ⟨hEnd, hCount⟩
    exact ⟨[], chained_nil.mpr hEnd, fun _ _ hc => (Option.not_mem_none _ hc).elim, hCount,
      Nat.succ_pos fuel⟩

theorem exists_chained_of_ne (hNe : (r.tag (header a)).size ≠ 0) (hc : c = ⟨a, r.tag (header a)⟩) :
    (∃ cs, Chained r a cs ∧ (previous ≠ none → ∀ c ∈ cs.head?, c.allocated = true) ∧
      freeBlocks + (freeNodes cs).length = count ∧ cs.length < fuel + 1) ↔
      c.tag.WellSized ∧ Tagged r c ∧ r.address (payload a) % 16 = 0 ∧
        (previous ≠ none → c.allocated = true) ∧
        ∃ cs, Chained r (c.stop overhead) cs ∧
          (c.allocated = false → ∀ d ∈ cs.head?, d.allocated = true) ∧
          freeBlocks + (freeNodes (c :: cs)).length = count ∧ cs.length < fuel := by
  constructor
  · rintro ⟨cs, hChained, hPrevious, hCount, hLength⟩
    cases cs with
    | nil =>
      have hTag := (chained_nil.mp hChained).2
      rw [hTag] at hNe
      exact (hNe rfl).elim
    | cons d cs =>
      obtain ⟨rfl, hSized, hTagged, hAligned, hHead, hRest⟩ := chained_cons.mp hChained
      obtain rfl : c = d := hc.trans (Chunk.ext rfl hTagged.1)
      rw [List.length_cons] at hLength
      refine ⟨hSized, hTagged, hAligned, fun h => hPrevious h c rfl, cs, hRest,
        fun hFree d hd => ?_, hCount, by omega⟩
      exact (hHead d hd).resolve_left (by simp [hFree])
  · rintro ⟨hSized, hTagged, hAligned, hPrevious, cs, hRest, hHead, hCount, hLength⟩
    have hOffset : c.offset = a := congrArg Chunk.offset hc
    refine ⟨c :: cs, chained_cons.mpr ⟨hOffset, hSized, hTagged, hOffset ▸ hAligned,
      fun d hd => ?_, hRest⟩, ?_, hCount, ?_⟩
    · cases hFlag : c.allocated with
      | true => exact .inl rfl
      | false => exact .inr (hHead hFlag d hd)
    · rintro h d ⟨⟩
      exact hPrevious h
    · rw [List.length_cons]
      omega

theorem checkChain_eq_ok_iff (hLimit : r.size < wordLimit) :
    checkChain r fuel a freeBlocks previous = .ok count ↔
      ∃ cs, Chained r a cs ∧ (previous ≠ none → ∀ c ∈ cs.head?, c.allocated = true) ∧
        freeBlocks + (freeNodes cs).length = count ∧ cs.length < fuel := by
  induction fuel generalizing a freeBlocks previous with
  | zero =>
    refine ⟨fun h => by simp [checkChain] at h, ?_⟩
    rintro ⟨cs, _, _, _, hLength⟩
    exact (Nat.not_lt_zero _ hLength).elim
  | succ fuel ih =>
    rcases Nat.eq_zero_or_pos (r.tag (header a)).size with hEmpty | hPos
    · rw [checkChain_succ_of_empty hEmpty, exists_chained_of_empty hEmpty]
    · have hNe : (r.tag (header a)).size ≠ 0 := Nat.ne_of_gt hPos
      rw [checkChain_succ_of_ne hNe hLimit, exists_chained_of_ne hNe rfl, ih, ih]
      constructor
      · rintro ⟨hSized, hTagged, hAligned, _, hRest⟩
        refine ⟨hSized, hTagged, hAligned, ?_⟩
        rcases hRest with ⟨hFlag, cs, hChained, _, hCount, hLength⟩ |
          ⟨hFlag, rfl, cs, hChained, hHead, hCount, hLength⟩
        · refine ⟨fun _ => hFlag, cs, hChained, fun hFree => ?_, ?_, hLength⟩
          · exact Bool.noConfusion (hFlag.symm.trans hFree)
          · rw [freeNodes_cons_allocated hFlag, hCount]
        · refine ⟨fun hNone => (hNone rfl).elim, cs, hChained, fun _ => hHead (by simp), ?_,
            hLength⟩
          rw [freeNodes_cons_free hFlag, List.length_cons]
          omega
      · rintro ⟨hSized, hTagged, hAligned, hPrevious, cs, hChained, hHead, hCount, hLength⟩
        have hFits := hChained.tiles.le
        have hSize := hChained.overhead_le
        refine ⟨hSized, hTagged, hAligned, by omega, ?_⟩
        cases hFlag : (r.tag (header a)).allocated with
        | true =>
          rw [freeNodes_cons_allocated hFlag] at hCount
          exact .inl ⟨rfl, cs, hChained, fun h => (h rfl).elim, hCount, hLength⟩
        | false =>
          rw [freeNodes_cons_free hFlag, List.length_cons] at hCount
          refine .inr ⟨rfl, ?_, cs, hChained, fun _ => hHead hFlag, by omega, hLength⟩
          cases previous with
          | none => rfl
          | some previous => exact Bool.noConfusion (hFlag.symm.trans (hPrevious (by simp)))

structure Accepts (r : Region) (cs : List Chunk) (ns : List Nat) : Prop where
  prologue_tag : r.tag prologue = Tag.sentinel
  chained : Chained r prologue cs
  listed : freeList.Accepts r (payload prologue) (isFreeNode r) freeList.first ns
  length_eq : ns.length = (freeNodes cs).length

theorem Accepts.size_ge (h : Accepts r cs ns) : 48 + 16 * cs.length ≤ r.size := by
  have hLength := h.chained.tiles.length_le
  have hSize := h.chained.overhead_le
  rw [prologue_eq] at hLength
  rw [overhead_eq] at hLength hSize
  omega

/-- What is accepted, in offsets from the anchor: from the prologue at 32 to the epilogue in the
last word, with headers before the payloads and footers behind them. -/
theorem Accepts.chain (h : Accepts r cs ns) :
    48 ≤ r.size ∧ r.tag 32 = ⟨0, true⟩ ∧ Chunk.Tiles 16 32 cs (r.size - 16) ∧
      r.tag (r.size - 8) = ⟨0, true⟩ ∧
      (∀ c ∈ cs, c.size ≠ 0 ∧ c.size % 16 = 0 ∧ r.address (c.offset + 16) % 16 = 0 ∧
        c.offset + 16 + c.size + 8 ≤ r.size ∧ r.tag (c.offset + 8) = c.tag ∧
        r.tag (c.offset + 16 + c.size) = c.tag) ∧
      cs.IsChain fun c d => c.allocated = true ∨ d.allocated = true := by
  have hSize := h.size_ge
  have hEpilogue : header (r.size - overhead) = r.size - 8 := by
    rw [header_eq, overhead_eq]
    omega
  refine ⟨(Nat.le_add_right 48 _).trans hSize, h.prologue_tag, h.chained.tiles,
    hEpilogue ▸ h.chained.epilogue_tag, fun c hc => ?_, h.chained.separated⟩
  have hBounds := bounds_of_mem h.chained.tiles hc
  obtain ⟨hHeader, hFooter⟩ := h.chained.tagged c hc
  rw [overhead_eq] at hBounds
  exact ⟨by omega, hBounds.2.2.2.2, h.chained.aligned c hc, by omega, hHeader, hFooter⟩

theorem check_eq_ok_iff (hSize : r.size ≠ 0) (hLimit : r.size < wordLimit) :
    check r = .ok () ↔ ∃ cs ns, Accepts r cs ns := by
  rw [check, if_neg hSize]
  constructor
  · intro h
    split at h
    · cases h
    next hPrologue =>
    split at h
    · cases h
    next count hChain =>
    obtain ⟨cs, hChained, _, hCount, _⟩ := (checkChain_eq_ok_iff hLimit).mp hChain
    obtain ⟨ns, hListed, hLength⟩ := (FreeList.check_eq_ok_iff _ _ _ _ _).mp h
    exact ⟨cs, ns, not_not.mp hPrologue, hChained, hListed, by omega⟩
  · rintro ⟨cs, ns, h⟩
    have hLength : cs.length < r.size := by
      have := h.size_ge
      omega
    have hChain : checkChain r r.size prologue 0 none = .ok (freeNodes cs).length :=
      (checkChain_eq_ok_iff hLimit).mpr
        ⟨cs, h.chained, fun hNone => (hNone rfl).elim, Nat.zero_add _, hLength⟩
    rw [if_neg (not_not.mpr h.prologue_tag), hChain]
    exact (FreeList.check_eq_ok_iff _ _ _ _ _).mpr ⟨ns, h.listed, h.length_eq⟩

/-- What the operations maintain is all that the check asks for. -/
theorem Represents.accepts (h : Represents r cs ns) : Accepts r cs ns := by
  have hTiles := h.holds.tiles
  have hSize := h.size_ge
  have hAnchor := h.holds.anchored.aligned
  refine ⟨h.holds.prologue_tag,
    ⟨?_, hTiles, h.holds.tagged, fun c hc => ?_, h.epilogue_tag, h.separated⟩,
    ⟨h.holds.linked, h.holds.not_mem.2, fun n hn => ?_, fun n hn => ?_⟩, h.listed.length_eq⟩
  · rw [overhead_eq]
    omega
  · have hBounds := bounds_of_mem hTiles hc
    rw [Region.address, payload_eq]
    omega
  · obtain ⟨c, hc, _, rfl⟩ := h.holds.free n hn
    have hBounds := bounds_of_mem hTiles hc
    rw [overhead_eq] at hBounds
    unfold FreeList.InBounds FreeList.nodeSize wordSize
    rw [payload_eq, payload_eq, prologue_eq]
    omega
  · obtain ⟨c, hc, hFlag, rfl⟩ := h.holds.free n hn
    have hHeader : payload c.offset - wordSize = header c.offset := rfl
    have hSized := hTiles.wellSized hc
    simp [isFreeNode, hHeader, (h.holds.tagged c hc).1, hFlag, hSized]

theorem Represents.check_eq_ok (h : Represents r cs ns) : check r = .ok () := by
  have hSize := h.size_ge
  have hEnd := h.holds.anchored.end_lt
  exact (check_eq_ok_iff (by omega) (by omega)).mpr ⟨cs, ns, h.accepts⟩

theorem Accepts.chunks_eq (h : Accepts r cs ns) : chunks r = cs := by
  have hSize := h.size_ge
  exact chunksFrom_eq h.chained.tiles h.chained.tagged h.chained.epilogue_tag (by omega)

theorem Accepts.first_not_mem (h : Accepts r cs ns) : freeList.first ∉ ns := by
  intro hMem
  have hLow := (h.listed.inBounds _ hMem).1
  rw [payload_eq, prologue_eq] at hLow
  exact absurd hLow (by decide)

theorem Accepts.nodup (h : Accepts r cs ns) : ns.Nodup := h.listed.linked.nodup h.first_not_mem

theorem Accepts.oldestFirst_eq (h : Accepts r cs ns) : freeList.oldestFirst r = ns := by
  have hSize := h.size_ge
  have hLength : (freeNodes cs).length ≤ cs.length := by
    rw [freeNodes, List.length_map]
    exact List.length_filter_le _ _
  have hEq := h.length_eq
  exact FreeList.newerFrom_eq h.listed.linked h.listed.last_not_mem (by omega)

theorem Accepts.mem_freeNodes (h : Accepts r cs ns) (hc : c ∈ cs) (hn : payload c.offset ∈ ns) :
    payload c.offset ∈ freeNodes cs := by
  have hFree := h.listed.isFree _ hn
  have hHeader : payload c.offset - wordSize = header c.offset := rfl
  simp only [isFreeNode, hHeader, (h.chained.tagged c hc).1, Bool.and_eq_true,
    Bool.not_eq_true'] at hFree
  exact Explicit.mem_freeNodes.mpr ⟨c, hc, hFree.1, rfl⟩

/-- The list holds exactly the free chunks as soon as each of its nodes is at the payload of some
chunk: then there are as many free chunks as nodes, and no node comes twice. -/
theorem Accepts.perm_iff (h : Accepts r cs ns) :
    ns.Perm (freeNodes cs) ↔ ∀ n ∈ ns, ∃ c ∈ cs, n = payload c.offset := by
  constructor
  · intro hPerm n hn
    obtain ⟨c, hc, _, rfl⟩ := Explicit.mem_freeNodes.mp (hPerm.mem_iff.mp hn)
    exact ⟨c, hc, rfl⟩
  · intro hNodes
    have hSubset : ns ⊆ freeNodes cs := by
      intro n hn
      obtain ⟨c, hc, rfl⟩ := hNodes n hn
      exact h.mem_freeNodes hc hn
    exact (List.subperm_of_subset h.nodup hSubset).perm_of_length_le h.length_eq.ge

end BlockHeap.Explicit
