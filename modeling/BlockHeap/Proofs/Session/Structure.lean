import BlockHeap.Proofs.Session.Soundness

/-!
# The structure of reachable heaps

What the words of a heap look like after any run, for either strategy: the walk over the headers,
the words at both ends, and the free list, each as its own reading of the memory finds it.
-/

namespace BlockHeap

namespace Session

variable {arena : Arena} {s : Session} {qs : List Request}

/-- The explicit strategy keeps its blocks and its free list consistent: the walk from the prologue
tiles the region up to the epilogue, headers equal footers, no two neighbours are free, and the
list, read from either end, has each free block once and nothing else. -/
theorem explicit_structure (hRun : (start .explicit arena).Run qs s)
    (hReady : s.heap.ready = true) :
    ∃ cs ns, Explicit.chunks s.heap.region = cs ∧ 48 ≤ s.heap.size ∧
      Chunk.Tiles 16 32 cs (s.heap.size - 16) ∧
      s.heap.region.tag 32 = ⟨0, true⟩ ∧ s.heap.region.tag (s.heap.size - 8) = ⟨0, true⟩ ∧
      (∀ c ∈ cs, c.size ≠ 0 ∧ c.size % 16 = 0 ∧ s.heap.region.tag (c.offset + 8) = c.tag ∧
        s.heap.region.tag (c.offset + 16 + c.size) = c.tag) ∧
      (cs.IsChain fun c d => c.allocated = true ∨ d.allocated = true) ∧
      FreeList.Linked s.heap.region Explicit.freeList.first ns Explicit.freeList.last ∧
      Explicit.freeList.oldestFirst s.heap.region = ns ∧
      Explicit.freeList.newestFirst s.heap.region = ns.reverse ∧ ns.Nodup ∧
      ∀ n, n ∈ ns ↔ ∃ c ∈ cs, c.allocated = false ∧ n = c.offset + 16 := by
  obtain ⟨bs, hs, hStrategy⟩ := (sound_start .explicit arena).run hRun
  rw [strategy_start] at hStrategy
  obtain ⟨⟨engine, region, ready⟩, live⟩ := s
  cases hs.represents with
  | bare => cases hReady
  | implicit _ => cases hStrategy
  | @explicit _ cs ns hr =>
    have hSize := hr.size_ge
    obtain ⟨hHolds, hEnd, hSeparated, hListed⟩ := id hr
    have hEpilogue : region.size - 8 = Explicit.header (region.size - Explicit.overhead) := by
      rw [Explicit.header_eq, Explicit.overhead_eq]
      omega
    refine ⟨cs, ns, hr.chunks_eq, (Nat.le_add_right 48 _).trans hSize, hHolds.tiles,
      hHolds.prologue_tag, ?_, fun c hc => ?_, hSeparated, hHolds.linked, hr.oldestFirst_eq,
      hr.newestFirst_eq, hHolds.nodup, fun n => ?_⟩
    · show region.tag (region.size - 8) = ⟨0, true⟩
      rw [hEpilogue]
      exact hEnd
    · obtain ⟨hPos, hMod⟩ := (Tag.wellSized_iff _).mp (hHolds.tiles.wellSized hc)
      obtain ⟨hHeader, hFooter⟩ := hHolds.tagged c hc
      exact ⟨Nat.ne_of_gt hPos, hMod, hHeader, hFooter⟩
    · exact hListed.mem_iff.trans Explicit.mem_freeNodes

theorem explicit_structure_of_three :
    let s := ((((start .explicit Arena.page).step (.allocate 24)).step (.allocate 40)).step
      (.allocate 8)).step (.free (some 65600))
    s.heap.ready = true ∧ Explicit.freeList.oldestFirst s.heap.region = [48] ∧
    ∃ cs ns, Explicit.chunks s.heap.region = cs ∧ Chunk.Tiles 16 32 cs (s.heap.size - 16) ∧
      (cs.IsChain fun c d => c.allocated = true ∨ d.allocated = true) ∧
      Explicit.freeList.oldestFirst s.heap.region = ns ∧
      Explicit.freeList.newestFirst s.heap.region = ns.reverse ∧ ns.Nodup ∧
      ∀ n, n ∈ ns ↔ ∃ c ∈ cs, c.allocated = false ∧ n = c.offset + 16 := by
  intro s
  have hLawful : Lawful
      ((((start .explicit Arena.page).step (.allocate 24)).step (.allocate 40)).step (.allocate 8))
      (.free (some 65600)) := by decide +kernel
  have hRun : (start .explicit Arena.page).Run
      [.allocate 24, .allocate 40, .allocate 8, .free (some 65600)] s :=
    .cons trivial (.cons trivial (.cons trivial (.cons hLawful (.nil _))))
  have hReady : s.heap.ready = true := by decide +kernel
  obtain ⟨cs, ns, hChunks, -, hTiles, -, -, -, hChain, -, hOldest, hNewest, hNodup, hMem⟩ :=
    explicit_structure hRun hReady
  exact ⟨hReady, by decide +kernel, cs, ns, hChunks, hTiles, hChain, hOldest, hNewest, hNodup, hMem⟩

/-- The implicit strategy keeps its span: its blocks, as the headers describe them, tile the region
behind the first word, and it names the first and the last of them. So it does amid an allocation,
after the sweep. -/
theorem implicit_structure (hRun : (start .implicit arena).Run qs s)
    (hReady : s.heap.ready = true) :
    ∃ span, s.heap.engine = .implicit span ∧ Implicit.Spanned s.heap.region span ∧
      Implicit.Spanned (Implicit.sweep s.heap.region span).value.2.1
        (Implicit.sweep s.heap.region span).value.2.2 := by
  obtain ⟨bs, hs, hStrategy⟩ := (sound_start .implicit arena).run hRun
  rw [strategy_start] at hStrategy
  obtain ⟨⟨engine, region, ready⟩, live⟩ := s
  cases hs.represents with
  | bare => cases hReady
  | explicit _ => cases hStrategy
  | @implicit span _ cs hr =>
    obtain ⟨swept, hValue, hSwept, _⟩ := hr.sweep
    refine ⟨span, rfl, hr.spanned, ?_⟩
    show Implicit.Spanned (Implicit.sweep region span).value.2.1
      (Implicit.sweep region span).value.2.2
    rw [hValue]
    exact hSwept.spanned

theorem implicit_structure_of_two :
    let s := (((start .implicit Arena.page).step (.allocate 24)).step (.allocate 40)).step
      (.free (some 65600))
    s.heap.ready = true ∧ s.heap.engine = .implicit (some ⟨8, 40⟩) ∧
    ∃ span, s.heap.engine = .implicit span ∧ Implicit.Spanned s.heap.region span ∧
      Implicit.Spanned (Implicit.sweep s.heap.region span).value.2.1
        (Implicit.sweep s.heap.region span).value.2.2 := by
  intro s
  have hLawful : Lawful (((start .implicit Arena.page).step (.allocate 24)).step (.allocate 40))
      (.free (some 65600)) := by decide +kernel
  have hRun : (start .implicit Arena.page).Run [.allocate 24, .allocate 40, .free (some 65600)] s :=
    .cons trivial (.cons trivial (.cons hLawful (.nil _)))
  have hReady : s.heap.ready = true := by decide +kernel
  exact ⟨hReady, by decide +kernel, implicit_structure hRun hReady⟩

end Session

end BlockHeap
