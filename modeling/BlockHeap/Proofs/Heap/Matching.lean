import BlockHeap.Proofs.FreeList.Check
import BlockHeap.Proofs.Ledger.Heap

/-!
# Matching heaps

Two heaps match if they have the same blocks at the same distances from their anchors, and the same
words of their own. Heaps with the same books do: tags and links are what the books make them, and
nothing else is left, as long as the links that lead out of the free list are what they were at
first.
-/

namespace BlockHeap

namespace FreeList

variable {r s : Region} {l : FreeList} {n : Nat} {ns : List Nat}

theorem Linked.links_eq (h : Linked r l.first ns l.last) (h' : Linked s l.first ns l.last)
    (hClosed : Closed l r) (hClosed' : Closed l s) (hn : n ∈ l.first :: (ns ++ [l.last])) :
    prev s n = prev r n ∧ next s n = next r n := by
  constructor
  · rcases List.mem_cons.mp hn with rfl | hn
    · exact hClosed'.1.trans hClosed.1.symm
    · exact h.prev_eq h' hn
  · rcases List.mem_append.mp (show n ∈ (l.first :: ns) ++ [l.last] from hn) with hn | hn
    · exact h.next_eq h' hn
    · obtain rfl := List.mem_singleton.mp hn
      exact hClosed'.2.trans hClosed.2.symm

end FreeList

theorem Region.word_eq_of_tag {r s : Region} {o : Nat} (h : s.tag o = r.tag o) :
    s.word o = r.word o := Tag.ofWord_inj.mp h

theorem Implicit.Represents.word_eq {r s : Region} {span : Option Span} {cs : List Chunk}
    (h : Represents r span cs) (h' : Represents s span cs) {o : Nat}
    (ho : o ∈ cs.map Chunk.offset) : s.word o = r.word o := by
  obtain ⟨c, hc, rfl⟩ := List.mem_map.mp ho
  exact Region.word_eq_of_tag ((h'.tagged c hc).trans (h.tagged c hc).symm)

theorem Explicit.Represents.word_eq {r s : Region} {cs : List Chunk} {ns : List Nat}
    (h : Represents r cs ns) (h' : Represents s cs ns) (hClosed : freeList.Closed r)
    (hClosed' : freeList.Closed s) (hSize : s.size = r.size) {o : Nat}
    (ho : o ∈ header (r.size - overhead) :: (tagWords cs ++ linkWords ns)) :
    s.word o = r.word o := by
  have hEnd := h'.epilogue_tag
  rw [hSize] at hEnd
  rcases List.mem_cons.mp ho with rfl | ho
  · exact Region.word_eq_of_tag (hEnd.trans h.epilogue_tag.symm)
  · rcases List.mem_append.mp ho with ho | ho
    · rcases mem_tagWords.mp ho with rfl | ⟨c, hc, rfl | rfl⟩
      · exact Region.word_eq_of_tag (h'.holds.prologue_tag.trans h.holds.prologue_tag.symm)
      · exact Region.word_eq_of_tag
          ((h'.holds.tagged c hc).1.trans (h.holds.tagged c hc).1.symm)
      · exact Region.word_eq_of_tag
          ((h'.holds.tagged c hc).2.trans (h.holds.tagged c hc).2.symm)
    · obtain ⟨n, hn, ho⟩ := mem_linkWords.mp ho
      obtain ⟨hPrev, hNext⟩ := h.holds.linked.links_eq h'.holds.linked hClosed hClosed' hn
      rcases ho with rfl | rfl
      · exact hPrev
      · exact hNext

namespace Heap

/-- The heaps differ in where they are, and in bytes that are not their own. -/
structure Matches (h h' : Heap) : Prop where
  ready_eq : h'.ready = h.ready
  engine_eq : h.ready = true → h'.engine = h.engine
  size_eq : h'.size = h.size
  blockOffsets_eq : h'.blockOffsets = h.blockOffsets
  metadata_eq : h'.metadata = h.metadata
  word_eq : ∀ o ∈ h.metadata, h'.region.word o = h.region.word o

variable {h h' : Heap} {a a' : Nat} {b : Books}

theorem matches_bare (hReady : h.ready = false) (hReady' : h'.ready = false)
    (hSize : h'.size = h.size) : h.Matches h' where
  ready_eq := hReady'.trans hReady.symm
  engine_eq hTrue := Bool.noConfusion (hReady.symm.trans hTrue)
  size_eq := hSize
  blockOffsets_eq := by simp [blockOffsets, hReady, hReady']
  metadata_eq := by simp [metadata, hReady, hReady']
  word_eq o ho := by simp [metadata, hReady] at ho

theorem Recorded.exists_implicit {books : Implicit.Books}
    (hr : h.Recorded (some (a, .implicit books))) : ∃ span region,
      h = ⟨.implicit span, region, true⟩ ∧ Implicit.Represents region span books.chunks := by
  cases hr with
  | @implicit span region cs hr =>
    refine ⟨span, region, rfl, ?_⟩
    rwa [Implicit.chunks_booksOf hr.tiles]

theorem Recorded.exists_explicit {books : Explicit.Books}
    (hr : h.Recorded (some (a, .explicit books))) : ∃ region, h = ⟨.explicit, region, true⟩ ∧
      Explicit.Represents region books.chunks books.newest.reverse := by
  cases hr with
  | @explicit region cs ns hr =>
    refine ⟨region, rfl, ?_⟩
    rwa [Explicit.chunks_booksOf hr.holds.tiles, Explicit.booksOf, List.reverse_reverse]

/-- Heaps with the same books match, wherever they are. -/
theorem Recorded.matches (hr : h.Recorded (some (a, b))) (hr' : h'.Recorded (some (a', b)))
    (hClosed : h.strategy = .explicit → Explicit.freeList.Closed h.region)
    (hClosed' : h'.strategy = .explicit → Explicit.freeList.Closed h'.region) :
    h.Matches h' := by
  have hReady : h'.ready = h.ready := hr'.isSome_eq.symm.trans hr.isSome_eq
  have hSize : h'.size = h.size := hr'.size_eq.symm.trans hr.size_eq
  have hBlocks : h'.blockOffsets = h.blockOffsets :=
    hr'.represents.blockOffsets_eq.trans hr.represents.blockOffsets_eq.symm
  cases b with
  | implicit books =>
    obtain ⟨span, region, rfl, h⟩ := hr.exists_implicit
    obtain ⟨span', region', rfl, h'⟩ := hr'.exists_implicit
    obtain rfl : span' = span := h'.span_eq.trans h.span_eq.symm
    refine ⟨hReady, fun _ => rfl, hSize, hBlocks, ?_, fun o ho => ?_⟩
    · simp [metadata, h.chunks_eq, h'.chunks_eq]
    · have hOffset : o ∈ (Implicit.chunks region span').map Chunk.offset := ho
      rw [h.chunks_eq] at hOffset
      exact h.word_eq h' hOffset
  | explicit books =>
    obtain ⟨region, rfl, h⟩ := hr.exists_explicit
    obtain ⟨region', rfl, h'⟩ := hr'.exists_explicit
    refine ⟨hReady, fun _ => rfl, hSize, hBlocks, ?_, fun o ho => ?_⟩
    · simp [metadata, h.chunks_eq, h'.chunks_eq, h.oldestFirst_eq, h'.oldestFirst_eq, hSize]
    · have hWord : o ∈ Explicit.header (region.size - Explicit.overhead) ::
          (Explicit.tagWords (Explicit.chunks region) ++ Explicit.linkWords
            (Explicit.freeList.oldestFirst region)) := ho
      rw [h.chunks_eq, h.oldestFirst_eq] at hWord
      exact h.word_eq h' (hClosed rfl) (hClosed' rfl) hSize hWord

theorem statistics_eq (h : Heap) : h.statistics = Statistics.ofBlocks h.blockOffsets := by
  rw [statistics, blocks, Statistics.ofBlocks, List.foldl_map]
  rfl

theorem Matches.statistics_eq (hm : h.Matches h') : h'.statistics = h.statistics := by
  rw [h'.statistics_eq, h.statistics_eq, hm.blockOffsets_eq]

end Heap

end BlockHeap
