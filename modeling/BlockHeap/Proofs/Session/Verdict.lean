import BlockHeap.Proofs.Explicit.Corruption
import BlockHeap.Proofs.Implicit.Check
import BlockHeap.Proofs.Session.Soundness

/-!
# What a good verdict means

A run gives the check nothing to report. After a run, the memory of the heap is then replaced by any
other: nothing is known of its words but what the check has found out. A good verdict vouches for
the chain of blocks, and for a free list of the right length, but not for the places of its nodes.
When just one word of the heap's own is replaced, no good verdict is possible.
-/

namespace BlockHeap

namespace Session

variable {strategy : Strategy} {arena : Arena} {s : Session} {qs : List Request} {bs : List Block}
  {v o : Nat}

theorem Sound.represents_explicit (hs : s.Sound bs) (hReady : s.heap.ready = true)
    (hEngine : s.heap.engine = .explicit) : ∃ cs ns, Explicit.Represents s.heap.region cs ns := by
  obtain ⟨⟨engine, region, ready⟩, live⟩ := s
  cases hs.represents with
  | bare => cases hReady
  | implicit _ => cases hEngine
  | explicit hr => exact ⟨_, _, hr⟩

theorem Sound.represents_implicit (hs : s.Sound bs) {span : Option Implicit.Span}
    (hReady : s.heap.ready = true) (hEngine : s.heap.engine = .implicit span) :
    ∃ cs, Implicit.Represents s.heap.region span cs := by
  obtain ⟨⟨engine, region, ready⟩, live⟩ := s
  cases hs.represents with
  | bare => cases hReady
  | explicit _ => cases hEngine
  | implicit hr =>
    cases hEngine
    exact ⟨_, hr⟩

theorem engine_of_run (hRun : (start .explicit arena).Run qs s) : s.heap.engine = .explicit := by
  obtain ⟨_, _, hStrategy⟩ := (sound_start .explicit arena).run hRun
  rw [strategy_start] at hStrategy
  obtain ⟨⟨engine, region, ready⟩, live⟩ := s
  cases engine with
  | implicit span => cases hStrategy
  | explicit => rfl

theorem Sound.verdict_eq_ok (hs : s.Sound bs) : s.heap.verdict = .ok () := by
  obtain ⟨heap, live⟩ := s
  cases hs.represents with
  | bare => rfl
  | implicit hr => exact hr.check_eq_ok
  | explicit hr => exact hr.check_eq_ok

/-- There are no false alarms: after every run the check of the heap finds nothing, and notes
nothing, whatever was refused or written in the run, and whether the heap has a layout or not. -/
theorem check_of_run (hRun : (start strategy arena).Run qs s) :
    s.heap.check = pure (.ok ()) := by
  obtain ⟨bs, hs, _⟩ := (sound_start strategy arena).run hRun
  rw [Heap.check, hs.verdict_eq_ok]

theorem check_of_run_of_refused :
    let s := ((((start .explicit Arena.page).step (.allocate 24)).step
      (.write 65600 [1, 2, 3, 4, 5, 6, 7, 8])).step (.allocate 8000)).step (.free (some 65600))
    let cramped : Arena :=
      { Arena.page with capacity := 10, end_lt := by decide, size_le := by decide }
    let t := (start .implicit cramped).step .layOut
    s.live = [] ∧ s.heap.check = pure (.ok ()) ∧
      t.heap.ready = false ∧ t.heap.check = pure (.ok ()) := by
  intro s cramped t
  let u := (start .explicit Arena.page).step (.allocate 24)
  obtain ⟨hWrite, hFree, hLive, hReady⟩ :
      u.Lawful (.write 65600 [1, 2, 3, 4, 5, 6, 7, 8]) ∧
      ((u.step (.write 65600 [1, 2, 3, 4, 5, 6, 7, 8])).step (.allocate 8000)).Lawful
        (.free (some 65600)) ∧
      s.live = [] ∧ t.heap.ready = false := by
    decide +kernel
  have hRun : (start .explicit Arena.page).Run [.allocate 24, .write 65600 [1, 2, 3, 4, 5, 6, 7, 8],
      .allocate 8000, .free (some 65600)] s :=
    .cons trivial (.cons hWrite (.cons trivial (.cons hFree (.nil _))))
  have hRun' : (start .implicit cramped).Run [.layOut] t := .cons trivial (.nil _)
  exact ⟨hLive, check_of_run hRun, hReady, check_of_run hRun'⟩

/-- A write that goes beyond the usable bytes is not lawful, and the check finds it out. -/
example : (((start .explicit Arena.page).step (.allocate 24)).step
    (.write 65632 [7])).heap.verdict = .error (.tagMismatch 32) := by decide +kernel

theorem verdict_explicit (hReady : s.heap.ready = true) (hEngine : s.heap.engine = .explicit)
    (f : Memory → Memory) :
    (s.heap.mapMemory f).verdict = Explicit.check (s.heap.region.mapMemory f) := by
  simp [Heap.verdict, Heap.mapMemory, hReady, hEngine]

theorem verdict_implicit {span : Option Implicit.Span} (hReady : s.heap.ready = true)
    (hEngine : s.heap.engine = .implicit span) (f : Memory → Memory) :
    (s.heap.mapMemory f).verdict = Implicit.check (s.heap.region.mapMemory f) span := by
  simp [Heap.verdict, Heap.mapMemory, hReady, hEngine]

/-- Whatever its words become, a region that was laid out keeps its size, so its check accepts what
it should. -/
theorem Sound.verdict_eq_ok_iff (hs : s.Sound bs) (hReady : s.heap.ready = true)
    (hEngine : s.heap.engine = .explicit) (f : Memory → Memory) :
    (s.heap.mapMemory f).verdict = .ok () ↔
      ∃ cs ns, Explicit.Accepts (s.heap.region.mapMemory f) cs ns := by
  obtain ⟨cs, ns, hr⟩ := hs.represents_explicit hReady hEngine
  have hSize := hr.size_ge
  have hEnd := hr.holds.anchored.end_lt
  rw [verdict_explicit hReady hEngine]
  refine Explicit.check_eq_ok_iff ?_ ?_
  · rw [Region.size_mapMemory]
    omega
  · rw [Region.size_mapMemory]
    omega

/-- A heap whose words may be anything, and that passes the check, has the chain of blocks that it
should have. Under the implicit strategy this is all that the check looks for. -/
theorem accepted_chain (hRun : (start strategy arena).Run qs s) (hReady : s.heap.ready = true)
    (f : Memory → Memory) :
    let h := s.heap.mapMemory f
    (h.engine = .explicit → h.verdict = .ok () → ∃ cs,
      48 ≤ h.size ∧ h.region.tag 32 = ⟨0, true⟩ ∧ Chunk.Tiles 16 32 cs (h.size - 16) ∧
      h.region.tag (h.size - 8) = ⟨0, true⟩ ∧
      (∀ c ∈ cs, c.size ≠ 0 ∧ c.size % 16 = 0 ∧ h.region.address (c.offset + 16) % 16 = 0 ∧
        c.offset + 16 + c.size + 8 ≤ h.size ∧ h.region.tag (c.offset + 8) = c.tag ∧
        h.region.tag (c.offset + 16 + c.size) = c.tag) ∧
      cs.IsChain fun c d => c.allocated = true ∨ d.allocated = true) ∧
    ∀ span, h.engine = .implicit (some span) → (h.verdict = .ok () ↔ ∃ cs,
      Chunk.Tiles 0 span.first cs h.size ∧
      (∀ c ∈ cs, c.size ≠ 0 ∧ c.size % 16 = 0 ∧ h.region.address (c.offset + 8) % 16 = 0 ∧
        c.offset + c.size ≤ h.size ∧ h.region.tag c.offset = c.tag) ∧
      cs.getLast?.map Chunk.offset = some span.last) := by
  intro h
  obtain ⟨bs, hs, _⟩ := (sound_start strategy arena).run hRun
  constructor
  · intro hEngine hOk
    obtain ⟨cs, ns, hAccepts⟩ := (hs.verdict_eq_ok_iff hReady hEngine f).mp hOk
    exact ⟨cs, hAccepts.chain⟩
  · intro span hEngine
    rw [verdict_implicit hReady hEngine, Implicit.check_eq_ok_iff]
    exact exists_congr fun cs => Implicit.chained_iff

theorem accepted_chain_of_one :
    let s := (start .explicit Arena.page).step (.allocate 24)
    let t := (start .implicit Arena.page).step (.allocate 24)
    let g := s.heap.mapMemory (·.setWord 65600 7)
    let h := t.heap.mapMemory (·.setWord 65560 49)
    (∃ cs, 48 ≤ g.size ∧ Chunk.Tiles 16 32 cs (g.size - 16) ∧
      cs.IsChain fun c d => c.allocated = true ∨ d.allocated = true) ∧
    h.engine = .implicit (some ⟨8, 8⟩) ∧ ¬ ∃ cs,
      Chunk.Tiles 0 8 cs h.size ∧
      (∀ c ∈ cs, c.size ≠ 0 ∧ c.size % 16 = 0 ∧ h.region.address (c.offset + 8) % 16 = 0 ∧
        c.offset + c.size ≤ h.size ∧ h.region.tag c.offset = c.tag) ∧
      cs.getLast?.map Chunk.offset = some 8 := by
  intro s t g h
  have hRun : (start .explicit Arena.page).Run [.allocate 24] s := .cons trivial (.nil _)
  have hRun' : (start .implicit Arena.page).Run [.allocate 24] t := .cons trivial (.nil _)
  have hEngine : h.engine = .implicit (some ⟨8, 8⟩) := by decide +kernel
  have hBad : h.verdict ≠ .ok () := by decide +kernel
  obtain ⟨cs, hSize, _, hTiles, _, _, hChain⟩ :=
    (accepted_chain hRun (by decide +kernel) (·.setWord 65600 7)).1 (by decide +kernel)
      (by decide +kernel)
  have hChain' := (accepted_chain hRun' (by decide +kernel) (·.setWord 65560 49)).2 _ hEngine
  exact ⟨⟨cs, hSize, hTiles, hChain⟩, hEngine, fun hExists => hBad (hChain'.mpr hExists)⟩

/-- What the check of an explicit heap says about its free list. It has no node twice, and as many
as there are free blocks; each has a word before it that may be a header. So the nodes are those of
the free blocks if and only if each of them is at a block at all. -/
theorem accepted_nodes (hRun : (start .explicit arena).Run qs s) (hReady : s.heap.ready = true)
    (f : Memory → Memory) :
    let h := s.heap.mapMemory f
    h.verdict = .ok () → ∃ cs ns, Explicit.chunks h.region = cs ∧
      Explicit.freeList.oldestFirst h.region = ns ∧
      FreeList.Linked h.region Explicit.freeList.first ns Explicit.freeList.last ∧ ns.Nodup ∧
      ns.length = (cs.filter (!·.allocated)).length ∧
      (∀ n ∈ ns, 48 ≤ n ∧ n % 8 = 0 ∧ n + 16 ≤ h.size ∧
        (h.region.tag (n - 8)).allocated = false ∧ (h.region.tag (n - 8)).WellSized) ∧
      ((∀ n, n ∈ ns ↔ ∃ c ∈ cs, c.allocated = false ∧ n = c.offset + 16) ↔
        ∀ n ∈ ns, ∃ c ∈ cs, n = c.offset + 16) := by
  intro h hOk
  obtain ⟨bs, hs, _⟩ := (sound_start .explicit arena).run hRun
  obtain ⟨cs, ns, hAccepts⟩ := (hs.verdict_eq_ok_iff hReady (engine_of_run hRun) f).mp hOk
  refine ⟨cs, ns, hAccepts.chunks_eq, hAccepts.oldestFirst_eq, hAccepts.listed.linked,
    hAccepts.nodup, ?_, fun n hn => ?_, ?_, fun hNodes n => ?_⟩
  · rw [hAccepts.length_eq, Explicit.freeNodes, List.length_map]
  · obtain ⟨hLow, hMod, hHigh⟩ := hAccepts.listed.inBounds n hn
    have hFree := hAccepts.listed.isFree n hn
    simp only [Explicit.isFreeNode, Bool.and_eq_true, Bool.not_eq_true', decide_eq_true_eq] at hFree
    exact ⟨hLow, hMod, hHigh, hFree⟩
  · rintro hMem n hn
    obtain ⟨c, hc, _, rfl⟩ := (hMem n).mp hn
    exact ⟨c, hc, rfl⟩
  · exact (hAccepts.perm_iff.mpr hNodes).mem_iff.trans Explicit.mem_freeNodes

/-- The one node of a list lies in the payload of an allocated block, with a word before it that
looks like a header, and the one free block is not in the list. The check counts one of each. -/
theorem accepted_node_in_payload :
    let s := ((((start .explicit Arena.page).step (.allocate 64)).step (.allocate 16)).step
      (.allocate 16)).step (.free (some 65680))
    let h := s.heap.mapMemory fun m =>
      ((((m.setWord 65608 32).setWord 65616 0).setWord 65624 16).setWord 65560 64).setWord 65568 64
    (start .explicit Arena.page).Run
      [.allocate 64, .allocate 16, .allocate 16, .free (some 65680)] s ∧
    s.heap.ready = true ∧ h.verdict = .ok () ∧
    Explicit.freeList.oldestFirst h.region = [64] ∧
    Explicit.chunks h.region = [⟨32, ⟨64, true⟩⟩, ⟨112, ⟨16, false⟩⟩, ⟨144, ⟨16, true⟩⟩] := by
  intro s h
  have hLawful : Lawful ((((start .explicit Arena.page).step (.allocate 64)).step
      (.allocate 16)).step (.allocate 16)) (.free (some 65680)) := by decide +kernel
  exact ⟨.cons trivial (.cons trivial (.cons trivial (.cons hLawful (.nil _)))), by decide +kernel,
    by decide +kernel, by decide +kernel, by decide +kernel⟩

theorem accepted_nodes_of_two :
    let s := (((start .explicit Arena.page).step (.allocate 24)).step (.allocate 40)).step
      (.free (some 65600))
    let h := s.heap.mapMemory (·.setWord 65616 7)
    ∃ cs ns, Explicit.chunks h.region = cs ∧ Explicit.freeList.oldestFirst h.region = ns ∧
      ns.Nodup ∧ ns.length = (cs.filter (!·.allocated)).length := by
  intro s h
  have hLawful : Lawful (((start .explicit Arena.page).step (.allocate 24)).step (.allocate 40))
      (.free (some 65600)) := by decide +kernel
  have hRun : (start .explicit Arena.page).Run [.allocate 24, .allocate 40, .free (some 65600)] s :=
    .cons trivial (.cons trivial (.cons hLawful (.nil _)))
  obtain ⟨cs, ns, hChunks, hNodes, _, hNodup, hLength, _⟩ :=
    accepted_nodes hRun (by decide +kernel) (·.setWord 65616 7) (by decide +kernel)
  exact ⟨cs, ns, hChunks, hNodes, hNodup, hLength⟩

/-- The check notices if one word of the heap's own is replaced by another one: of the prologue or
the epilogue, a header, a footer, a link of a listed node, or a link of a sentinel into the list. -/
theorem verdict_ne_ok_of_setWord (hRun : (start .explicit arena).Run qs s)
    (ho : o ∈ s.heap.metadata) (hFirst : o ≠ Explicit.freeList.first)
    (hLast : o ≠ Explicit.freeList.last + 8) (hv : v < wordLimit)
    (hNe : v ≠ s.heap.region.word o) :
    (s.heap.mapMemory (·.setWord (s.heap.region.address o) v)).verdict ≠ .ok () := by
  obtain ⟨bs, hs, _⟩ := (sound_start .explicit arena).run hRun
  have hEngine := engine_of_run hRun
  cases hReady : s.heap.ready with
  | false =>
    simp [Heap.metadata, hReady] at ho
  | true =>
    obtain ⟨cs, ns, hr⟩ := hs.represents_explicit hReady hEngine
    simp only [Heap.metadata, hReady, hEngine, Heap.size, hr.chunks_eq, hr.oldestFirst_eq] at ho
    intro hOk
    obtain ⟨ds, ms, hAccepts⟩ := (hs.verdict_eq_ok_iff hReady hEngine _).mp hOk
    exact hr.not_accepts (Region.DiffersAt.of_setWord hv hNe) ho hFirst hLast hAccepts

theorem verdict_ne_ok_of_setWord_header :
    let s := ((start .explicit Arena.page).step (.allocate 24)).step (.allocate 40)
    s.heap.region.word 40 = 33 ∧ 40 ∈ s.heap.metadata ∧
      (s.heap.mapMemory (·.setWord (s.heap.region.address 40) 97)).verdict ≠ .ok () := by
  intro s
  have hRun : (start .explicit Arena.page).Run [.allocate 24, .allocate 40] s :=
    .cons trivial (.cons trivial (.nil _))
  have hWord : s.heap.region.word 40 = 33 := by decide +kernel
  have hMem : 40 ∈ s.heap.metadata := by decide +kernel
  exact ⟨hWord, hMem, verdict_ne_ok_of_setWord hRun hMem (by decide) (by decide) (by decide)
    (by rw [hWord]; decide)⟩

end Session

end BlockHeap
