import BlockHeap.Proofs.Session.Grants
import BlockHeap.Proofs.Session.ReleaseOrder

/-!
# Reused blocks

An allocation that takes no more bytes of the arena is served from a free block, as a whole or in
part. To free its pointer at once undoes it: what was taken merges with what was left to the chunk
that there was, and this chunk with no more neighbours than it did before.
-/

namespace BlockHeap

namespace Chunk

variable {gap need : Nat} {c : Chunk} {cs : List Chunk}

/-- A free chunk that has been carved is whole again once the part that was taken is free, in front
of whatever chunks. -/
theorem exists_carve (gap : Nat) (hFits : c.fits need = true) :
    ∃ k zs, c.carve gap need = ⟨c.offset, k, true⟩ :: zs ∧
      ∀ ys, mergeRuns gap (⟨c.offset, k, false⟩ :: (zs ++ ys)) = mergeRuns gap (c :: ys) := by
  obtain ⟨hFlag, hLe⟩ := fits_iff.mp hFits
  have hSelf : (⟨c.offset, c.size, false⟩ : Chunk) = c := Chunk.ext rfl (Tag.ext rfl hFlag.symm)
  unfold carve
  split
  · refine ⟨c.size, [], rfl, fun ys => ?_⟩
    rw [hSelf, List.nil_append]
  · refine ⟨need, _, rfl, fun ys => ?_⟩
    have hSize : need + gap + (c.size - need - gap) = c.size := by omega
    rw [List.singleton_append, mergeRuns_cons_joined rfl rfl, hSize, hSelf]

end Chunk

variable {r s : Region} {cs : List Chunk} {n o : Nat}

/-- The chunks are those that there were, since they were separated. -/
theorem Explicit.Represents.free_allocate {ns : List Nat} (h : Represents r cs ns)
    (hValue : (Explicit.allocate r n).value = (some o, s)) (hSize : s.size = r.size) :
    ∃ ms, Represents (Explicit.free s o).value cs ms ∧
      (Explicit.free s o).value.anchor = r.anchor ∧ (Explicit.free s o).value.size = r.size := by
  obtain ⟨answer, t, ds, ns', hEq, hOutcome, hs, hEvolves⟩ := h.allocate n
  rw [hValue, Prod.mk.injEq] at hEq
  obtain ⟨rfl, rfl⟩ := hEq
  cases hOutcome with
  | @reused need xs ys c _ _ _ hSplit _ hFits _ =>
    obtain ⟨k, zs, hCarve, hMerge⟩ := Chunk.exists_carve overhead hFits
    rw [hCarve, List.append_assoc, List.cons_append] at hs
    obtain ⟨ms, ht, hAnchor, hSize'⟩ :=
      hs.free_merged (c := ⟨c.offset, k, true⟩) (by simp) rfl
    rw [Chunk.map_release_eq hs.holds.tiles] at ht
    have hBack : Chunk.mergeRuns overhead (xs ++ ⟨c.offset, k, false⟩ :: (zs ++ ys)) = cs := by
      rw [Chunk.mergeRuns_append_congr xs (hMerge ys), ← hSplit,
        Chunk.mergeRuns_of_separated overhead h.separated]
    exact ⟨ms, hBack ▸ ht, hAnchor.trans hEvolves.anchor_eq, hSize'.trans hSize⟩
  | @appended need _ _ _ =>
    obtain ⟨_, _, hStop⟩ := Chunk.tiles_append_cons.mp hs.holds.tiles
    have hLarge := h.size_ge
    rw [Chunk.tiles_nil, Chunk.stop_mk, hSize, overhead_eq] at hStop
    omega

/-- The chunks are not those that there were, but they merge to the same. -/
theorem Implicit.Represents.free_allocate {span span' : Option Span} (h : Represents r span cs)
    (hValue : (Implicit.allocate r span n).value = (some o, s, span')) (hSize : s.size = r.size) :
    ∃ ds, Represents (Implicit.free s o) span' ds ∧
      Chunk.mergeRuns 0 ds = Chunk.mergeRuns 0 cs ∧ (Implicit.free s o).anchor = r.anchor ∧
      (Implicit.free s o).size = r.size := by
  obtain ⟨answer, t, ds, hEq, hOutcome, hs, hEvolves⟩ := h.allocate n
  rw [hValue, Prod.mk.injEq, Prod.mk.injEq] at hEq
  obtain ⟨rfl, rfl, rfl⟩ := hEq
  cases hOutcome with
  | @reused need xs c ys _ hSplit _ hFits =>
    obtain ⟨k, zs, hCarve, hMerge⟩ := Chunk.exists_carve 0 hFits
    rw [hCarve, List.append_assoc, List.cons_append] at hs ⊢
    obtain ⟨ht, hEvolves'⟩ := hs.free
    refine ⟨_, ht, ?_, hEvolves'.anchor_eq.trans hEvolves.anchor_eq, ?_⟩
    · rw [Chunk.mergeRuns_append_congr xs (hMerge ys), ← hSplit, Chunk.mergeRuns_mergeRuns]
    · exact hSize
  | @appended need hNeed _ _ =>
    obtain ⟨_, _, hStop⟩ := Chunk.tiles_append_cons.mp hs.tiles
    have hPos := required?_pos hNeed
    rw [Chunk.tiles_nil, Chunk.stop_mk, hSize] at hStop
    omega

namespace Heap

variable {u : Heap}

theorem free_carve_explicit {ns : List Nat} (hr : Explicit.Represents r cs ns)
    (hCarve : ((⟨.explicit, r, true⟩ : Heap).carve n).value = (some o, u))
    (hSize : u.size = r.size) :
    let t := (u.free (some (u.region.address o))).value
    t.ready = true ∧ t.size = r.size ∧ t.blocks = (⟨.explicit, r, true⟩ : Heap).blocks ∧
      (Explicit.freeList.newestFirst t.region).Perm (Explicit.freeList.newestFirst r) := by
  intro t
  cases hValue : (Explicit.allocate r n).value with
  | mk payload s =>
    simp only [carve, Journaled.value_bind, hValue] at hCarve
    obtain ⟨rfl, rfl⟩ := Prod.mk.inj hCarve
    obtain ⟨ms, ht, hAnchor, hSize'⟩ := hr.free_allocate hValue hSize
    have hHeap : t = ⟨.explicit, (Explicit.free s o).value, true⟩ := value_free_explicit s o
    rw [hHeap]
    refine ⟨rfl, hSize', blocks_congr hAnchor ?_, hr.newestFirst_perm ht⟩
    rw [(Represents.explicit ht).blockOffsets_eq, (Represents.explicit hr).blockOffsets_eq]

theorem value_free_implicit (span : Option Implicit.Span) (r : Region) (o : Nat) :
    ((⟨.implicit span, r, true⟩ : Heap).free (some (r.address o))).value =
      ⟨.implicit span, Implicit.free r o, true⟩ := by
  simp only [Heap.free, Journaled.value_bind, offset_address]
  rfl

theorem blocks_mergeRuns {span span' : Option Implicit.Span} {ds : List Chunk}
    (hr : Implicit.Represents r span cs)
    (hs : Implicit.Represents s span' ds) (hMerged : Chunk.mergeRuns 0 ds = Chunk.mergeRuns 0 cs)
    (hAnchor : s.anchor = r.anchor) :
    Block.mergeRuns 8 (⟨.implicit span', s, true⟩ : Heap).blocks =
      Block.mergeRuns 8 (⟨.implicit span, r, true⟩ : Heap).blocks := by
  simp only [blocks, (Represents.implicit hs).blockOffsets_eq,
    (Represents.implicit hr).blockOffsets_eq, Region.address, hAnchor]
  rw [Block.mergeRuns_map, Block.mergeRuns_map, ← Implicit.map_block_mergeRuns hs.tiles, hMerged,
    Implicit.map_block_mergeRuns hr.tiles]

theorem blocks_sweep {span : Option Implicit.Span} (hr : Implicit.Represents r span cs) :
    let swept := (Implicit.sweep r span).value
    swept.1 = Implicit.chunks swept.2.1 swept.2.2 ∧
      Heap.blocks ⟨.implicit swept.2.2, swept.2.1, true⟩ =
        Block.mergeRuns 8 (⟨.implicit span, r, true⟩ : Heap).blocks := by
  intro swept
  obtain ⟨s, hValue, hs, hKeeps⟩ := hr.sweep
  have hSwept : swept = _ := hValue
  rw [hSwept]
  refine ⟨hs.chunks_eq.symm, ?_⟩
  simp only [blocks, (Represents.implicit hs).blockOffsets_eq,
    (Represents.implicit hr).blockOffsets_eq, Region.address, hKeeps.anchor_eq]
  rw [Block.mergeRuns_map, Implicit.map_block_mergeRuns hr.tiles]

theorem free_carve_implicit {span : Option Implicit.Span} (hr : Implicit.Represents r span cs)
    (hCarve : ((⟨.implicit span, r, true⟩ : Heap).carve n).value = (some o, u))
    (hSize : u.size = r.size) :
    ∃ span' t ds, (u.free (some (u.region.address o))).value = ⟨.implicit span', t, true⟩ ∧
      Implicit.Represents t span' ds ∧ t.size = r.size ∧
      Block.mergeRuns 8 (⟨.implicit span', t, true⟩ : Heap).blocks =
        Block.mergeRuns 8 (⟨.implicit span, r, true⟩ : Heap).blocks := by
  cases hValue : (Implicit.allocate r span n).value with
  | mk payload rest =>
    obtain ⟨s, span'⟩ := rest
    simp only [carve, Journaled.value_bind, hValue] at hCarve
    obtain ⟨rfl, rfl⟩ := Prod.mk.inj hCarve
    obtain ⟨ds, ht, hMerged, hAnchor, hSize'⟩ := hr.free_allocate hValue hSize
    exact ⟨span', _, ds, value_free_implicit span' s o, ht, hSize',
      blocks_mergeRuns hr ht hMerged hAnchor⟩

end Heap

namespace Session

variable {strategy : Strategy} {arena : Arena} {s : Session} {bs : List Block} {qs : List Request}
  {n p : Nat}

theorem carve_of_answer (hReady : s.heap.ready = true) (hAnswer : s.answer (.allocate n) = some p) :
    ∃ o, (s.heap.carve n).value = (some o, (s.step (.allocate n)).heap) ∧
      p = (s.step (.allocate n)).heap.region.address o := by
  have hValue := Heap.value_allocate_of_ready hReady n
  rw [run_allocate hAnswer, Prod.mk.injEq] at hValue
  obtain ⟨hPointer, hHeap⟩ := hValue
  obtain ⟨o, hPayload, hAddress⟩ := Option.map_eq_some_iff.mp hPointer.symm
  exact ⟨o, Prod.ext hPayload hHeap.symm, hHeap ▸ hAddress.symm⟩

theorem Sound.live_free_allocate (hs : s.Sound bs) (hAnswer : s.answer (.allocate n) = some p) :
    (s.step (.allocate n)).Lawful (.free (some p)) ∧
      ((s.step (.allocate n)).step (.free (some p))).live = s.live := by
  obtain ⟨hNew, hLive, _⟩ := hs.allocate_granted hAnswer
  have hOther : ∀ x ∈ s.live, (!(x == p)) = true := by
    intro x hx
    have hNe : x ≠ p := fun hEq => hNew (hEq ▸ hx)
    simpa using hNe
  refine ⟨?_, ?_⟩
  · show p ∈ (s.step (.allocate n)).live
    rw [hLive]
    exact List.mem_cons_self
  · rw [live_step_free, hLive, List.filter_cons_of_neg (by simp), List.filter_eq_self.mpr hOther]

/-- To free a pointer that has just been granted without more bytes of the arena undoes the
allocation, up to the order of the list, or under the implicit strategy up to a sweep. -/
theorem free_undoes_reuse (hRun : (start strategy arena).Run qs s) (hReady : s.heap.ready = true)
    (hAnswer : s.answer (.allocate n) = some p)
    (hSize : (s.step (.allocate n)).heap.size = s.heap.size) :
    let t := (s.step (.allocate n)).step (.free (some p))
    (s.step (.allocate n)).Lawful (.free (some p)) ∧ t.live = s.live ∧ t.heap.ready = true ∧
    t.heap.size = s.heap.size ∧
    (strategy = .explicit → t.heap.blocks = s.heap.blocks ∧
      (Explicit.freeList.newestFirst t.heap.region).Perm
        (Explicit.freeList.newestFirst s.heap.region)) ∧
    (strategy = .implicit →
      Block.mergeRuns 8 t.heap.blocks = Block.mergeRuns 8 s.heap.blocks ∧
      ∃ span, t.heap.engine = .implicit span ∧
        let swept := (Implicit.sweep t.heap.region span).value
        swept.1 = Implicit.chunks swept.2.1 swept.2.2 ∧
        Heap.blocks ⟨.implicit swept.2.2, swept.2.1, true⟩ = Block.mergeRuns 8 s.heap.blocks) := by
  intro t
  obtain ⟨bs, hs, hStrategy⟩ := (sound_start strategy arena).run hRun
  rw [strategy_start] at hStrategy
  obtain ⟨hLawful, hLive⟩ := hs.live_free_allocate hAnswer
  obtain ⟨o, hCarve, rfl⟩ := carve_of_answer hReady hAnswer
  obtain ⟨⟨engine, region, ready⟩, live⟩ := s
  cases hs.represents with
  | bare => cases hReady
  | implicit hr =>
    obtain ⟨span, t', ds, hHeap, ht, hSize', hMerged⟩ := Heap.free_carve_implicit hr hCarve hSize
    obtain ⟨hChunks, hSwept⟩ := Heap.blocks_sweep ht
    have hEnd : t.heap = ⟨.implicit span, t', true⟩ := hHeap
    rw [hEnd]
    refine ⟨hLawful, hLive, rfl, hSize', ?_, fun _ => ⟨hMerged, span, rfl, hChunks, ?_⟩⟩
    · rintro rfl
      cases hStrategy
    · exact hSwept.trans hMerged
  | explicit hr =>
    obtain ⟨hReady', hSize', hBlocks, hNodes⟩ := Heap.free_carve_explicit hr hCarve hSize
    refine ⟨hLawful, hLive, hReady', hSize', fun _ => ⟨hBlocks, hNodes⟩, ?_⟩
    rintro rfl
    cases hStrategy

theorem free_undoes_reuse_of_split :
    let r := (((start .explicit Arena.page).step (.allocate 64)).step (.allocate 8)).step
      (.free (some 65600))
    let s := (((((start .implicit Arena.page).step (.allocate 24)).step (.allocate 24)).step
      (.allocate 8)).step (.free (some 65600))).step (.free (some 65568))
    r.answer (.allocate 24) = some 65600 ∧ s.answer (.allocate 40) = some 65568 ∧
    (r.step (.allocate 24)).heap.blocks = [⟨65600, 32, true⟩, ⟨65648, 16, false⟩,
      ⟨65680, 16, true⟩] ∧
    ((r.step (.allocate 24)).step (.free (some 65600))).heap.blocks = r.heap.blocks ∧
    ((s.step (.allocate 40)).step (.free (some 65568))).heap.blocks =
      [⟨65568, 40, false⟩, ⟨65616, 8, false⟩, ⟨65632, 8, true⟩] ∧
    Block.mergeRuns 8 ((s.step (.allocate 40)).step (.free (some 65568))).heap.blocks =
      Block.mergeRuns 8 s.heap.blocks := by
  intro r s
  have hRun : (start .explicit Arena.page).Run [.allocate 64, .allocate 8, .free (some 65600)] r :=
    .cons trivial (.cons trivial (.cons (by decide +kernel) (.nil _)))
  have hRun' : (start .implicit Arena.page).Run [.allocate 24, .allocate 24, .allocate 8,
      .free (some 65600), .free (some 65568)] s :=
    .cons trivial (.cons trivial (.cons trivial (.cons (by decide +kernel)
      (.cons (by decide +kernel) (.nil _)))))
  have hAnswer : r.answer (.allocate 24) = some 65600 := by decide +kernel
  have hAnswer' : s.answer (.allocate 40) = some 65568 := by decide +kernel
  obtain ⟨_, _, _, _, hKept, _⟩ :=
    free_undoes_reuse hRun (by decide +kernel) hAnswer (by decide +kernel)
  obtain ⟨_, _, _, _, _, hMerged⟩ :=
    free_undoes_reuse hRun' (by decide +kernel) hAnswer' (by decide +kernel)
  exact ⟨hAnswer, hAnswer', by decide +kernel, (hKept rfl).1, by decide +kernel, (hMerged rfl).1⟩

end Session

end BlockHeap
