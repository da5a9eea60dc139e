import BlockHeap.Proofs.Session.Growth
import BlockHeap.Proofs.Session.Payloads
import BlockHeap.Proofs.Session.Refinement

/-!
# Refused requests

A request for bytes may be refused at many points: when a product or a size turns out to be no word,
or when the arena has not enough left, after the search and the sweep. Since the arena is asked
last, an explicit heap has changed nothing by then, and an implicit one has only swept; so the
client is left with what it had.
-/

namespace BlockHeap

def Block.fuse (overhead : Nat) : List Block → Block
  | [] => ⟨0, 0, true⟩
  | b :: bs => ⟨b.payload, b.size + (bs.map fun c => overhead + c.size).sum,
      b.allocated || bs.any Block.allocated⟩

def Block.mergeRuns (overhead : Nat) (bs : List Block) : List Block :=
  (runs Block.allocated bs).map (Block.fuse overhead)

theorem Block.mergeRuns_map (overhead : Nat) (f : Nat → Nat) (bs : List Block) :
    mergeRuns overhead (bs.map fun b => { b with payload := f b.payload }) =
      (mergeRuns overhead bs).map fun b => { b with payload := f b.payload } := by
  rw [mergeRuns, runs_map (fun _ => rfl), mergeRuns, List.map_map, List.map_map]
  refine List.map_congr_left fun run hRun => ?_
  obtain ⟨b, cs, rfl⟩ := List.exists_cons_of_ne_nil (ne_nil_of_mem_runs hRun)
  simp [fuse, Function.comp_def]

theorem Block.map_mergeRuns {f : Chunk → Block} {gap overhead : Nat} {cs : List Chunk}
    (hFlag : ∀ c, (f c).allocated = c.allocated)
    (hFuse : ∀ run ∈ runs Chunk.allocated cs, f (Chunk.fuse gap run) = fuse overhead (run.map f)) :
    (Chunk.mergeRuns gap cs).map f = mergeRuns overhead (cs.map f) := by
  have hRuns : runs Block.allocated (cs.map f) = (runs Chunk.allocated cs).map (List.map f) :=
    runs_map hFlag cs
  rw [mergeRuns, hRuns, Chunk.mergeRuns_eq, List.map_map, List.map_map]
  exact List.map_congr_left hFuse

variable {r : Region} {n : Nat}

theorem Implicit.block_fuse {run : List Chunk} (h : run ≠ []) (hSized : ∀ c ∈ run, 8 ≤ c.size) :
    block (Chunk.fuse 0 run) = Block.fuse 8 (run.map block) := by
  obtain ⟨c, cs, rfl⟩ := List.exists_cons_of_ne_nil h
  obtain ⟨hc, hcs⟩ := List.forall_mem_cons.mp hSized
  have hSizes : (cs.map fun d => 8 + (block d).size) = cs.map Chunk.size :=
    List.map_congr_left fun d hd => Nat.add_sub_cancel' (hcs d hd)
  have hFlags : (cs.map block).any Block.allocated = cs.any Chunk.allocated := by
    rw [List.any_map]
    rfl
  rw [List.map_cons, Block.fuse, List.map_map, hFlags]
  simp only [Function.comp_def, hSizes]
  simp only [Chunk.fuse, block, wordSize, Nat.zero_add, Block.mk.injEq, true_and, and_true]
  show c.size + _ - 8 = c.size - 8 + _
  exact Nat.sub_add_comm hc

theorem Implicit.map_block_mergeRuns {a b : Nat} {cs : List Chunk} (h : Chunk.Tiles 0 a cs b) :
    (Chunk.mergeRuns 0 cs).map block = Block.mergeRuns 8 (cs.map block) := by
  refine Block.map_mergeRuns allocated_block fun run hRun => ?_
  refine block_fuse (ne_nil_of_mem_runs hRun) fun c hc => ?_
  have hSize := Chunk.size_of_wellSized (h.wellSized (mem_of_mem_runs hRun hc))
  omega

/-- An explicit heap writes nothing before it has the bytes. -/
theorem Explicit.grown_of_refused (h : (allocate r n).value.1 = none) :
    r.Grown 0 (allocate r n).value.2 := by
  cases hNeed : required? n with
  | none =>
    rw [value_allocate_none hNeed]
    exact .refl r
  | some need =>
    rw [value_allocate_some hNeed] at h ⊢
    cases hFind : findFit? r need with
    | some c =>
      rw [hFind] at h
      cases h
    | none =>
      simp only [hFind] at h ⊢
      rcases Nat.lt_or_ge (need + overhead) wordLimit with hLt | hGe
      · rcases r.grow_cases (need + overhead) with ⟨_, s, hGrow, _⟩ | ⟨_, s, hGrow, hGrown⟩
        · rw [value_append hGrow hLt] at h
          cases h
        · rw [value_append_none hGrow hLt]
          exact hGrown
      · rw [value_append_of_le r hGe]
        exact .refl r

/-- An implicit heap sweeps before it asks, so the blocks that are left are the merged ones. -/
theorem Implicit.Outcome.eq_of_refused {left size : Nat} {cs ds : List Chunk}
    (h : Outcome n left size cs none ds) :
    ds = if wordLimit ≤ Strategy.implicit.need n then cs else Chunk.mergeRuns 0 cs := by
  cases h with
  | unrepresentable hNone => exact (if_pos ((required?_eq_none_iff n).mp hNone)).symm
  | exhausted hRequired =>
    obtain ⟨rfl, hLt⟩ := required?_eq_some_iff.mp hRequired
    exact (if_neg hLt.not_ge).symm

theorem Grows.size_eq_of_none {fits : Prop} {need left size size' : Nat}
    (h : Grows fits need left size none size') : size' = size := by
  have hNot : ¬ fits := fun hFits => Bool.noConfusion (h.reused hFits).1
  rcases Nat.lt_or_ge left need with hLeft | hLeft
  · exact (h.refused hNot hLeft).2
  · exact Bool.noConfusion (h.appended hNot hLeft).1

namespace Heap

/-- A heap with a layout that has refused `n` bytes. -/
structure Refused (n : Nat) (h s : Heap) : Prop where
  strategy_eq : s.strategy = h.strategy
  ready_eq : s.ready = h.ready
  mark_eq : s.arena.mark = h.arena.mark
  anchor_eq : s.region.anchor = h.region.anchor
  size_eq : s.size = h.size
  grown : h.strategy = .explicit → h.region.Grown 0 s.region
  heap_eq : h.strategy = .implicit → wordLimit ≤ Strategy.implicit.need n → s = h
  blockOffsets_eq : h.strategy = .implicit → ¬ wordLimit ≤ Strategy.implicit.need n →
    s.blockOffsets = Block.mergeRuns 8 h.blockOffsets

variable {h s : Heap} {bs : List Block}

theorem Refused.refl (h : Heap) (hLimit : wordLimit ≤ n) : h.Refused n h where
  strategy_eq := rfl
  ready_eq := rfl
  mark_eq := rfl
  anchor_eq := rfl
  size_eq := rfl
  grown _ := .refl _
  heap_eq _ _ := rfl
  blockOffsets_eq _ hNot := by
    have hLe : n ≤ Strategy.implicit.need n := by
      simp only [Strategy.need]
      omega
    exact (hNot (hLimit.trans hLe)).elim

theorem Represents.refused (hr : h.Represents bs) (hReady : h.ready = true)
    (hNone : (h.carve n).value.1 = none) : h.Refused n (h.carve n).value.2 := by
  obtain ⟨payload, s, cs, hCarve, _, hs, hReady', hEvolves⟩ := hr.carve hReady n
  have hGrows := hr.carve_grows hReady n
  have hAnchor := (hEvolves.region hReady).anchor_eq
  rw [hCarve] at hNone hGrows ⊢
  simp only at hNone hGrows ⊢
  subst hNone
  have hSize := hGrows.size_eq_of_none
  refine ⟨hEvolves.strategy_eq, hReady'.trans hReady.symm, ?_, hAnchor, hSize, ?_, ?_, ?_⟩
  · exact ((hr.anchored hReady).size_eq_iff (hs.anchored hReady') hAnchor).mp hSize
  · intro hStrategy
    cases hr with
    | bare => cases hReady
    | implicit _ => cases hStrategy
    | @explicit region _ _ hr =>
      simp only [Heap.carve, Journaled.value_bind] at hCarve
      obtain ⟨hAnswer, rfl⟩ := Prod.mk.inj hCarve
      exact Explicit.grown_of_refused hAnswer
  · intro hStrategy hLimit
    cases hr with
    | bare => cases hReady
    | @implicit span region _ hr =>
      have hNone := (Implicit.required?_eq_none_iff n).mpr hLimit
      simp only [Heap.carve, Journaled.value_bind, Implicit.value_allocate_none hNone] at hCarve
      exact (Prod.mk.inj hCarve).2.symm
    | explicit _ => cases hStrategy
  · intro hStrategy hLimit
    cases hr with
    | bare => cases hReady
    | @implicit span region _ hr =>
      obtain ⟨answer, t, ds, hValue, hOutcome, ht, _⟩ := hr.allocate n
      simp only [Heap.carve, Journaled.value_bind, hValue] at hCarve
      obtain ⟨rfl, rfl⟩ := Prod.mk.inj hCarve
      rw [Represents.blockOffsets_eq (.implicit ht), Represents.blockOffsets_eq (.implicit hr),
        hOutcome.eq_of_refused, if_neg hLimit, Implicit.map_block_mergeRuns hr.tiles]
    | explicit _ => cases hStrategy

theorem Refused.kept (h' : h.Refused n s) (hr : h.Represents bs) (hReady : h.ready = true)
    (hStrategy : h.strategy = .explicit) :
    s.memory = h.memory ∧ s.blocks = h.blocks ∧
      Explicit.freeList.oldestFirst s.region = Explicit.freeList.oldestFirst h.region ∧
      Explicit.freeList.newestFirst s.region = Explicit.freeList.newestFirst h.region := by
  have hGrown := h'.grown hStrategy
  have hReady' := h'.ready_eq
  have hStrategy' := h'.strategy_eq
  cases hr with
  | bare => cases hReady
  | implicit _ => cases hStrategy
  | explicit hr =>
    obtain ⟨engine, region, ready⟩ := s
    cases engine with
    | implicit span => cases hStrategy'
    | explicit =>
      obtain rfl : ready = true := hReady'
      have hs := hr.of_grown hGrown
      have hBlocks := (Represents.explicit hs).blockOffsets_eq.trans
        (Represents.explicit hr).blockOffsets_eq.symm
      exact ⟨hGrown.memory_eq, blocks_congr h'.anchor_eq hBlocks,
        hs.oldestFirst_eq.trans hr.oldestFirst_eq.symm,
        hs.newestFirst_eq.trans hr.newestFirst_eq.symm⟩

theorem Represents.filter_blocks (hr : h.Represents bs) : h.blocks.filter Block.allocated =
    (held bs).map fun b => { b with payload := h.region.address b.payload } := by
  rw [blocks, hr.blockOffsets_eq, List.filter_map]
  rfl

/-- A refusal may merge free blocks, but leaves those that are allocated as they are. -/
theorem Represents.filter_blocks_of_refused (hr : h.Represents bs)
    (hNone : (h.allocate n).value.1 = none) :
    (h.allocate n).value.2.blocks.filter Block.allocated = h.blocks.filter Block.allocated := by
  obtain ⟨payload, s, cs, hValue, hServed, hs, hEvolves⟩ := hr.allocate n
  rw [hValue] at hNone ⊢
  obtain rfl := Option.map_eq_none_iff.mp hNone
  cases hServed with
  | refused hHeld =>
    have hSame : held cs = held bs := by
      refine hHeld.eq_of_pairwise (fun b c hb hc hbc hcb => ?_) (hs.pairwise.filter _)
        (hr.pairwise.filter _)
      have hPos := hs.bounds (List.mem_of_mem_filter hb)
      have hPos' := hr.bounds (List.mem_of_mem_filter hc)
      omega
    rw [hs.filter_blocks, hr.filter_blocks, hSame]
    refine List.map_congr_left fun b hb => ?_
    have hReady := hr.ready_of_mem (List.mem_of_mem_filter hb)
    rw [Region.address, Region.address, (hEvolves.region hReady).anchor_eq]

end Heap

namespace Request

/-- The bytes that a request asks for, if it can be refused for want of them. -/
def demand? : Request → Option Nat
  | .allocate n => some n
  | .zeroAllocate count n => some (count * n)
  | .reallocate none n => some n
  | .reallocate (some _) n => if n = 0 then none else some n
  | _ => none

variable {q : Request} {h : Heap} {bs : List Block} {n : Nat}

theorem ends_of_demand (hDemand : q.demand? = some n) (p : Nat) : q.ends none p = false := by
  cases q with
  | reallocate pointer n =>
    cases pointer with
    | none => rfl
    | some source =>
      have hn : n ≠ 0 := by
        rintro rfl
        cases hDemand
      simp [ends, hn]
  | allocate n => rfl
  | zeroAllocate count n => rfl
  | _ => cases hDemand

theorem run_of_refused (hDemand : q.demand? = some n) (hNone : (q.run h).1 = none) :
    q.run h = (h.allocate n).value ∨ wordLimit ≤ n ∧ q.run h = (none, h) := by
  cases q with
  | allocate m =>
    obtain rfl := Option.some.inj hDemand
    exact .inl rfl
  | zeroAllocate count m =>
    obtain rfl := Option.some.inj hDemand
    rcases Nat.lt_or_ge (count * m) wordLimit with hLt | hLimit
    · cases hValue : (h.allocate (count * m)).value with
      | mk pointer t =>
        have hRun := Heap.value_zeroAllocate hLt hValue
        obtain rfl : pointer = none := (congrArg Prod.fst hRun).symm.trans hNone
        exact .inl hRun
    · exact .inr ⟨hLimit, Heap.value_zeroAllocate_of_le hLimit⟩
  | reallocate source m =>
    cases source with
    | none =>
      obtain rfl := Option.some.inj hDemand
      exact .inl rfl
    | some p =>
      obtain ⟨hm, hEq⟩ := Option.ite_none_left_eq_some.mp hDemand
      obtain rfl := Option.some.inj hEq
      cases hValue : (h.allocate m).value with
      | mk pointer t =>
        have hRun := Heap.value_reallocate (p := p) hm hValue
        obtain rfl : pointer = none := (congrArg Prod.fst hRun).symm.trans hNone
        exact .inl hRun
  | _ => cases hDemand

theorem refused (hr : h.Represents bs) (hReady : h.ready = true) (hDemand : q.demand? = some n)
    (hNone : (q.run h).1 = none) : h.Refused n (q.run h).2 := by
  rcases run_of_refused hDemand hNone with hRun | ⟨hLimit, hRun⟩
  · rw [hRun, Heap.value_allocate_of_ready hReady] at hNone ⊢
    exact hr.refused hReady (Option.map_eq_none_iff.mp hNone)
  · rw [hRun]
    exact .refl h hLimit

theorem filter_blocks_of_refused (hr : h.Represents bs) (hDemand : q.demand? = some n)
    (hNone : (q.run h).1 = none) :
    (q.run h).2.blocks.filter Block.allocated = h.blocks.filter Block.allocated := by
  rcases run_of_refused hDemand hNone with hRun | ⟨_, hRun⟩
  · rw [hRun] at hNone ⊢
    exact hr.filter_blocks_of_refused hNone
  · rw [hRun]

end Request

namespace Session

variable {strategy : Strategy} {arena : Arena} {s : Session} {q : Request} {qs : List Request}
  {n : Nat}

theorem Sound.live_perm_blocks {bs : List Block} (hs : s.Sound bs) :
    s.live.Perm ((held s.heap.blocks).map Block.payload) := by
  rw [held, hs.represents.filter_blocks, List.map_map]
  exact hs.live_perm

theorem live_step_of_refused (hDemand : q.demand? = some n) (hNone : s.answer q = none) :
    (s.step q).live = s.live := by
  have hEnds : ∀ p, q.ends (s.answer q) p = false := hNone ▸ Request.ends_of_demand hDemand
  show (s.answer q).toList ++ s.live.filter (fun p => !q.ends (s.answer q) p) = s.live
  rw [List.filter_eq_self.mpr fun p _ => by rw [hEnds p]; rfl, hNone]
  rfl

/-- A request for bytes that is refused takes nothing from the client or the arena. An explicit heap
is as before, and an implicit one may have merged its runs of free neighbours. -/
theorem heap_kept_of_refused (hRun : (start strategy arena).Run qs s)
    (hReady : s.heap.ready = true) (hDemand : q.demand? = some n) (hLawful : s.Lawful q)
    (hNone : s.answer q = none) :
    let t := s.step q
    t.heap.ready = true ∧ t.heap.arena.mark = s.heap.arena.mark ∧ t.heap.size = s.heap.size ∧
    t.live = s.live ∧
    (∀ p ∈ s.live, t.heap.usableSize p = s.heap.usableSize p ∧
      ∀ x, p ≤ x → x < p + s.heap.usableSize p →
        t.heap.memory.byte x = s.heap.memory.byte x) ∧
    (strategy = .explicit → t.heap.memory = s.heap.memory ∧ t.heap.blocks = s.heap.blocks ∧
      Explicit.freeList.oldestFirst t.heap.region = Explicit.freeList.oldestFirst s.heap.region ∧
      Explicit.freeList.newestFirst t.heap.region =
        Explicit.freeList.newestFirst s.heap.region) ∧
    (strategy = .implicit → if wordLimit ≤ strategy.need n then t.heap = s.heap
      else t.heap.blocks = Block.mergeRuns 8 s.heap.blocks) := by
  intro t
  obtain ⟨bs, hs, hStrategy⟩ := (sound_start strategy arena).run hRun
  rw [strategy_start] at hStrategy
  have hRefused : s.heap.Refused n t.heap := Request.refused hs.represents hReady hDemand hNone
  have hEnds : ∀ p, q.ends (s.answer q) p = false := hNone ▸ Request.ends_of_demand hDemand
  refine ⟨hRefused.ready_eq.trans hReady, hRefused.mark_eq, hRefused.size_eq,
    live_step_of_refused hDemand hNone, ?_, ?_, ?_⟩
  · intro p hp
    obtain ⟨_, hUsable, hBytes⟩ := hs.step_kept hLawful hp (hEnds p)
    refine ⟨hUsable, fun x hLow hHigh => hBytes x hLow hHigh ?_⟩
    cases q with
    | write => cases hDemand
    | _ => rfl
  · rintro rfl
    exact hRefused.kept hs.represents hReady hStrategy
  · rintro rfl
    split
    · next hLimit => exact hRefused.heap_eq hStrategy hLimit
    · next hLimit =>
      have hBlocks := hRefused.blockOffsets_eq hStrategy hLimit
      simp only [Heap.blocks, Region.address, hRefused.anchor_eq, hBlocks]
      exact (Block.mergeRuns_map 8 (s.heap.region.anchor + ·) _).symm

/-- A page is too small for 4000 more bytes, but the two free blocks become one all the same. That a
product is no word is found out earlier, and that a block cannot be moved changes nothing. -/
theorem heap_kept_of_refused_of_two :
    let s := (((((start .implicit Arena.page).step (.allocate 24)).step (.allocate 24)).step
      (.allocate 8)).step (.free (some 65600))).step (.free (some 65568))
    let t := s.step (.zeroAllocate 1000 4)
    let u := (start .explicit Arena.page).step (.allocate 24)
    s.heap.blockOffsets = [⟨16, 24, false⟩, ⟨48, 24, false⟩, ⟨80, 8, true⟩] ∧
    t.live = s.live ∧ t.heap.blocks = Block.mergeRuns 8 s.heap.blocks ∧
    (s.step (.zeroAllocate (2 ^ 63) 2)).heap = s.heap ∧
    (u.step (.reallocate (some 65600) 5000)).heap.memory = u.heap.memory := by
  intro s t u
  let r := (((start .implicit Arena.page).step (.allocate 24)).step (.allocate 24)).step
    (.allocate 8)
  have hStart : (start .implicit Arena.page).Run [.allocate 24, .allocate 24, .allocate 8] r :=
    .cons trivial (.cons trivial (.cons trivial (.nil _)))
  have hLive : r.live = [65632, 65600, 65568] := by
    rw [hStart.live_eq, ((simulated_start _ _).run hStart).1]
    decide
  have hSecond : r.Lawful (.free (some 65600)) := by simp [Lawful, hLive]
  have hFirst : (r.step (.free (some 65600))).Lawful (.free (some 65568)) := by
    simp [Lawful, hLive]
  have hRun : (start .implicit Arena.page).Run [.allocate 24, .allocate 24, .allocate 8,
      .free (some 65600), .free (some 65568)] s :=
    .cons trivial (.cons trivial (.cons trivial (.cons hSecond (.cons hFirst (.nil _)))))
  have hs := ((simulated_start _ _).run hRun).2
  have hBlocks : s.heap.blockOffsets = [⟨16, 24, false⟩, ⟨48, 24, false⟩, ⟨80, 8, true⟩] :=
    hs.describes.represents.blockOffsets_eq.trans (by decide)
  have hReady : s.heap.ready = true := hs.describes.isSome_eq.symm.trans (by decide)
  have hFree : ∀ count n, s.Lawful (.zeroAllocate count n) := fun _ _ => trivial
  have hFull : s.answer (.zeroAllocate 1000 4) = none :=
    (hs.step (hFree 1000 4)).1.trans (by decide)
  have hOverflow : s.answer (.zeroAllocate (2 ^ 63) 2) = none :=
    (hs.step (hFree (2 ^ 63) 2)).1.trans (by decide)
  have hAlone : (start .explicit Arena.page).Run [.allocate 24] u := .cons trivial (.nil _)
  have hu := ((simulated_start _ _).run hAlone).2
  have hReady' : u.heap.ready = true := hu.describes.isSome_eq.symm.trans (by decide)
  have hLawful : u.Lawful (.reallocate (some 65600) 5000) := by
    show 65600 ∈ u.live
    rw [hAlone.live_eq, ((simulated_start _ _).run hAlone).1]
    decide
  have hStuck : u.answer (.reallocate (some 65600) 5000) = none :=
    (hu.step hLawful).1.trans (by decide)
  obtain ⟨_, _, _, hSame, _, _, hMerged⟩ :=
    heap_kept_of_refused hRun hReady rfl (hFree 1000 4) hFull
  obtain ⟨_, _, _, _, _, _, hKept⟩ :=
    heap_kept_of_refused hRun hReady rfl (hFree (2 ^ 63) 2) hOverflow
  obtain ⟨_, _, _, _, _, hMemory, _⟩ := heap_kept_of_refused hAlone hReady' rfl hLawful hStuck
  exact ⟨hBlocks, hSame, hMerged rfl, hKept rfl, (hMemory rfl).1⟩

end Session

end BlockHeap
