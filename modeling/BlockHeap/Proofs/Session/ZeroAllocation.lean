import BlockHeap.Proofs.Session.Grants
import BlockHeap.Proofs.Session.Refinement

/-!
# Zeroed allocations

A request for zeros is served as an allocation of the product, and the zeros are then written to the
payload that was granted. The payload has room for all of them, whichever block it belongs to, so
they meet neither the heap's own words nor any other payload.
-/

namespace BlockHeap

namespace Session

variable {strategy : Strategy} {arena : Arena} {s : Session} {qs : List Request}
  {count n : Nat}

theorem answer_zeroAllocate_eq_none_iff : s.answer (.zeroAllocate count n) = none ↔
    wordLimit ≤ count * n ∨ s.answer (.allocate (count * n)) = none := by
  rw [answer_zeroAllocate_eq, ite_eq_right_iff, ← Nat.not_lt, or_iff_not_imp_left, not_not]

/-- After every run, a request for zeros is refused if the product is not a word, and otherwise it
is the allocation of as many bytes, which then are zero. -/
theorem zeroAllocate_clears (hRun : (start strategy arena).Run qs s) (count n : Nat) :
    (s.answer (.zeroAllocate count n) = none ↔
      wordLimit ≤ count * n ∨ s.answer (.allocate (count * n)) = none) ∧
    ∀ q, s.answer (.zeroAllocate count n) = some q →
      let t := s.step (.zeroAllocate count n)
      let u := s.step (.allocate (count * n))
      s.answer (.allocate (count * n)) = some q ∧ t.live = u.live ∧
      t.heap.size = u.heap.size ∧ t.heap.blocks = u.heap.blocks ∧
      (strategy = .explicit →
        Explicit.freeList.newestFirst t.heap.region =
          Explicit.freeList.newestFirst u.heap.region ∧
        Explicit.freeList.oldestFirst t.heap.region =
          Explicit.freeList.oldestFirst u.heap.region) ∧
      count * n ≤ t.heap.usableSize q ∧
      (∀ i < count * n, t.heap.memory.byte (q + i) = 0) ∧
      (∀ x, ¬ (q ≤ x ∧ x < q + count * n) → t.heap.memory.byte x = u.heap.memory.byte x) ∧
      t.heap.metadata = u.heap.metadata ∧
      ∀ o ∈ u.heap.metadata, t.heap.region.word o = u.heap.region.word o := by
  obtain ⟨bs, hs, hStrategy⟩ := (sound_start strategy arena).run hRun
  rw [strategy_start] at hStrategy
  refine ⟨answer_zeroAllocate_eq_none_iff, fun q hGranted => ?_⟩
  intro t u
  obtain ⟨_, _, hEnough, hZero⟩ := hs.zeroAllocate_granted hGranted
  obtain ⟨cs, hu, hq, hRoom, hStep⟩ := hs.zeroAllocate_eq_mapMemory hGranted
  have hFilled := Memory.agree_fill u.heap.memory q (count * n) 0
  have hOutside := hu.agree_payload hq hRoom hFilled
  obtain ⟨hBlocks, hMetadata, hLists⟩ :=
    hu.represents.structure_mapMemory (f := (·.fill q (count * n) 0)) hOutside
  obtain ⟨b, hb, _⟩ := hu.exists_of_mem hq
  have hReady := hu.represents.ready_of_mem (List.mem_of_mem_filter hb)
  obtain ⟨_, _, hSame⟩ := hs.step (q := .allocate (count * n)) trivial
  have hEq : t = u.mapMemory (·.fill q (count * n) 0) := hStep
  refine ⟨(answer_zeroAllocate hGranted).2, ?_, ?_, ?_, fun hExplicit => ?_, hEnough, hZero, ?_, ?_,
    ?_⟩
  all_goals rw [hEq]
  · rfl
  · rfl
  · exact hBlocks
  · exact hLists hReady (hSame.trans (hStrategy.trans hExplicit))
  · exact hFilled
  · exact hMetadata
  · exact fun o ho => hu.represents.word_mapMemory hOutside ho

theorem zeroAllocate_clears_of_reused :
    let r := ((start .explicit Arena.page).step (.allocate 64)).step (.write 65600 [1, 2, 3])
    let s := (r.step (.allocate 16)).step (.free (some 65600))
    let t := s.step (.zeroAllocate 5 8)
    let u := s.step (.allocate 40)
    s.answer (.zeroAllocate (2 ^ 32) (2 ^ 32)) = none ∧
    s.answer (.zeroAllocate 5 8) = some 65600 ∧ t.live = u.live ∧
    (∀ i < 40, t.heap.memory.byte (65600 + i) = 0) ∧
    (∀ i, 40 ≤ i → t.heap.memory.byte (65600 + i) = u.heap.memory.byte (65600 + i)) ∧
    t.heap.blocks = u.heap.blocks ∧
    Explicit.freeList.newestFirst t.heap.region =
      Explicit.freeList.newestFirst u.heap.region := by
  intro r s t u
  have hStart := simulated_start .explicit Arena.page
  have hFirst : (start .explicit Arena.page).answer (.allocate 64) = some 65600 :=
    (hStart.step (q := .allocate 64) trivial).1.trans (by decide)
  obtain ⟨_, hLive, hEnough⟩ := hStart.sound.allocate_granted hFirst
  obtain ⟨_, hOne⟩ := hStart.step (q := .allocate 64) trivial
  have hp : 65600 ∈ ((start .explicit Arena.page).step (.allocate 64)).live :=
    hLive ▸ List.mem_cons_self
  have hWrite : ((start .explicit Arena.page).step (.allocate 64)).Lawful
      (.write 65600 [1, 2, 3]) :=
    ⟨65600, hp, le_rfl, Nat.add_le_add_left ((by decide : 3 ≤ 64).trans hEnough) _⟩
  have hr : 65600 ∈ r.live := (hOne.sound.step_kept hWrite hp rfl).1
  have hTwo := (hOne.step hWrite).2
  have hFree : (r.step (.allocate 16)).Lawful (.free (some 65600)) :=
    (hTwo.sound.step_kept (q := .allocate 16) trivial hr rfl).1
  have hRun : (start .explicit Arena.page).Run
      [.allocate 64, .write 65600 [1, 2, 3], .allocate 16, .free (some 65600)] s :=
    .cons trivial (.cons hWrite (.cons trivial (.cons hFree (.nil _))))
  have hGranted : s.answer (.zeroAllocate 5 8) = some 65600 :=
    ((hStart.run hRun).2.step (q := .zeroAllocate 5 8) trivial).1.trans (by decide)
  obtain ⟨_, hClears⟩ := zeroAllocate_clears hRun 5 8
  obtain ⟨_, hSame, _, hBlocks, hLists, _, hZero, hOutside, _⟩ := hClears 65600 hGranted
  refine ⟨(zeroAllocate_clears hRun _ _).1.mpr (.inl (by decide)), hGranted, hSame, hZero,
    fun i hi => hOutside _ (by omega), hBlocks, (hLists rfl).1⟩

end Session

end BlockHeap
