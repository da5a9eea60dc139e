import BlockHeap.Proofs.Heap.Operations
import BlockHeap.Proofs.Ledger.Explicit
import BlockHeap.Proofs.Ledger.Implicit

/-!
# Ledgers describe heaps

A ledger describes a heap if it knows how much of the arena is left, where the heap is, and has the
books of its blocks. A description stays one when both serve the same request, and the answers
agree. The books are compared where the blocks change; for everything else it is enough that the
client only touches payloads that it holds.
-/

namespace BlockHeap

/-- What a ledger has on record of a heap: nothing without a layout, and else the anchor and the
books. -/
inductive Heap.Recorded : Heap → Option (Nat × Books) → Prop where
  | bare {engine : Engine} {region : Region} : Recorded ⟨engine, region, false⟩ none
  | implicit {span : Option Implicit.Span} {region : Region} {cs : List Chunk} :
      Implicit.Represents region span cs → Recorded ⟨.implicit span, region, true⟩
        (some (region.anchor, .implicit (Implicit.booksOf cs)))
  | explicit {region : Region} {cs : List Chunk} {ns : List Nat} :
      Explicit.Represents region cs ns → Recorded ⟨.explicit, region, true⟩
        (some (region.anchor, .explicit (Explicit.booksOf cs ns)))

structure Ledger.Describes (l : Ledger) (h : Heap) : Prop where
  strategy_eq : l.strategy = h.strategy
  mark_eq : l.mark = h.arena.mark
  limit_eq : l.limit = h.arena.limit
  recorded : h.Recorded l.heap

namespace Heap

variable {h s : Heap} {a : Nat} {b : Books} {c : Block} {bs : List Block}
  {record : Option (Nat × Books)}

theorem Recorded.isSome_eq (hr : h.Recorded record) : record.isSome = h.ready := by
  cases hr with
  | bare => rfl
  | implicit _ => rfl
  | explicit _ => rfl

theorem Recorded.anchor_eq (hr : h.Recorded (some (a, b))) : a = h.region.anchor := by
  cases hr with
  | implicit _ => rfl
  | explicit _ => rfl

theorem Recorded.represents (hr : h.Recorded record) : h.Represents (Books.recorded record) := by
  cases hr with
  | bare => exact .bare
  | implicit hr =>
    rw [Books.recorded, Books.blocks, Implicit.blocks_booksOf hr.tiles]
    exact .implicit hr
  | explicit hr =>
    rw [Books.recorded, Books.blocks, Explicit.blocks_booksOf hr.holds.tiles]
    exact .explicit hr

theorem Recorded.blocks_eq (hr : h.Recorded (some (a, b))) :
    h.blocks = b.blocks.map fun c => { c with payload := a + c.payload } := by
  rw [blocks, hr.represents.blockOffsets_eq, hr.anchor_eq]
  rfl

theorem Recorded.size_eq (hr : h.Recorded (some (a, b))) : b.size = h.size := by
  cases hr with
  | implicit hr => exact Implicit.size_booksOf hr.tiles
  | explicit hr =>
    have hSize := hr.size_ge
    rw [Books.size, Explicit.size_booksOf hr.holds.tiles, Explicit.overhead_eq]
    exact Nat.sub_add_cancel (by omega)

theorem Recorded.mark_eq (hr : h.Recorded (some (a, b))) : h.arena.mark = a + b.size := by
  rw [hr.anchor_eq, hr.size_eq]
  exact (hr.represents.anchored hr.isSome_eq.symm).mark_eq

theorem Recorded.of_bare (hr : h.Recorded record) (hReady : h.ready = false) : record = none := by
  cases hr with
  | bare => rfl
  | implicit _ => cases hReady
  | explicit _ => cases hReady

theorem Recorded.of_implicit (hr : h.Recorded record) (hReady : h.ready = true)
    (hStrategy : h.strategy = .implicit) :
    ∃ books, record = some (h.region.anchor, .implicit books) := by
  cases hr with
  | bare => cases hReady
  | implicit _ => exact ⟨_, rfl⟩
  | explicit _ => cases hStrategy

theorem Recorded.of_explicit (hr : h.Recorded record) (hReady : h.ready = true)
    (hStrategy : h.strategy = .explicit) :
    ∃ books, record = some (h.region.anchor, .explicit books) ∧
      Explicit.freeList.newestFirst h.region = books.newest := by
  cases hr with
  | bare => cases hReady
  | implicit _ => cases hStrategy
  | explicit hr => exact ⟨_, rfl, hr.newestFirst_eq⟩

theorem Recorded.mapMemory (hr : h.Recorded record) {f : Memory → Memory}
    (hf : h.memory.Agree (fun x => ¬ ∃ c ∈ held (Books.recorded record), c.At h.region.anchor x)
      (f h.memory)) : (h.mapMemory f).Recorded record := by
  have hKeeps := Region.keeps_mapMemory hf
  cases hr with
  | bare => exact .bare
  | implicit hr =>
    rw [Books.recorded, Books.blocks, Implicit.blocks_booksOf hr.tiles] at hKeeps
    exact .implicit (hr.of_client hKeeps)
  | explicit hr =>
    rw [Books.recorded, Books.blocks, Explicit.blocks_booksOf hr.holds.tiles] at hKeeps
    exact .explicit (hr.of_client hKeeps)

theorem Recorded.carve (hr : h.Recorded (some (a, b))) (n : Nat) :
    (h.carve n).value.1 = (b.allocate (h.arena.capacity - h.arena.size) n).1 ∧
      (h.carve n).value.2.Recorded
        (some (a, (b.allocate (h.arena.capacity - h.arena.size) n).2)) := by
  cases hr with
  | implicit hr =>
    obtain ⟨payload, s, ds, hValue, hOutcome, hs, hEvolves⟩ := hr.allocate n
    simp only [Heap.carve, Journaled.value_bind, hValue, Books.allocate, Heap.arena,
      hOutcome.books_eq hr.tiles]
    rw [← hEvolves.anchor_eq]
    exact ⟨rfl, .implicit hs⟩
  | @explicit region cs ns hr =>
    obtain ⟨payload, s, ds, ms, hValue, hOutcome, hs, hEvolves⟩ := hr.allocate n
    have hLeft : region.arena.capacity - region.arena.size < wordLimit := by
      have hEnd := region.arena.end_lt
      omega
    simp only [Heap.carve, Journaled.value_bind, hValue, Books.allocate, Heap.arena,
      hOutcome.books_eq hr hLeft]
    rw [← hEvolves.anchor_eq]
    exact ⟨rfl, .explicit hs⟩

theorem Recorded.release (hr : h.Recorded (some (a, b))) (hc : c ∈ held b.blocks) :
    (h.release c.payload).value.Recorded (some (a, b.free c.payload)) ∧
      (h.release c.payload).value.arena.mark = h.arena.mark := by
  cases hr with
  | @implicit span region cs hr =>
    rw [Books.blocks, Implicit.blocks_booksOf hr.tiles, held_map Implicit.allocated_block] at hc
    obtain ⟨d, hd, rfl⟩ := List.mem_map.mp hc
    obtain ⟨xs, ys, rfl⟩ := List.append_of_mem (List.mem_of_mem_filter hd)
    obtain ⟨hs, hEvolves⟩ := hr.free
    rw [Books.free, show (Implicit.block d).payload = d.offset + 8 from rfl,
      Implicit.free_booksOf hr.tiles]
    exact ⟨.implicit hs, rfl⟩
  | explicit hr =>
    rw [Books.blocks, Explicit.blocks_booksOf hr.holds.tiles,
      held_map Explicit.allocated_block] at hc
    obtain ⟨d, hd, rfl⟩ := List.mem_map.mp hc
    obtain ⟨hMem, hFlag⟩ := List.mem_filter.mp hd
    obtain ⟨xs, ys, rfl⟩ := List.append_of_mem hMem
    obtain ⟨ds, ms, hCoalesced, hs, hEvolves, hMark⟩ := hr.free hFlag
    rw [Books.free, show (Explicit.block d).payload = Explicit.payload d.offset from rfl,
      hr.free_booksOf hFlag hCoalesced, ← hEvolves.anchor_eq]
    exact ⟨.explicit hs, hMark⟩

theorem Evolves.limit_eq (hEvolves : h.Evolves bs s) (hReady : h.ready = true) :
    s.arena.limit = h.arena.limit := by
  have hRegion := hEvolves.region hReady
  rw [Arena.limit, Arena.limit, Heap.arena, Heap.arena, hRegion.base_eq, hRegion.capacity_eq]

/-- Laying out takes the bytes of empty books, and these are then on record. -/
theorem layOut_cases (h : Heap) : ∃ done r, h.layOut.value =
      (if done then .ok () else .error .exhausted, ⟨Engine.new h.strategy, r, done⟩) ∧
      h.region.LaidOut (Books.empty h.strategy).size done r ∧
      (done = true → Recorded ⟨Engine.new h.strategy, r, true⟩
        (some (r.anchor, Books.empty h.strategy))) := by
  cases hStrategy : h.strategy with
  | implicit =>
    have hLaidOut := Implicit.laidOut h.region
    cases hDone : (Implicit.layOut h.region).value with
    | mk done r =>
      have hValue := value_layOut h (show _ = (done, r) by rw [hStrategy]; exact hDone)
      rw [hStrategy] at hValue
      rw [hDone] at hLaidOut
      refine ⟨done, r, hValue, hLaidOut, fun hTrue => ?_⟩
      exact .implicit (Implicit.represents_layOut (hTrue ▸ hDone)).1
  | explicit =>
    have hLaidOut := Explicit.laidOut h.region
    cases hDone : (Explicit.layOut h.region).value with
    | mk done r =>
      have hValue := value_layOut h (show _ = (done, r) by rw [hStrategy]; exact hDone)
      rw [hStrategy] at hValue
      rw [hDone] at hLaidOut
      refine ⟨done, r, hValue, hLaidOut, fun hTrue => ?_⟩
      exact .explicit (Explicit.represents_layOut (hTrue ▸ hDone))

end Heap

namespace Ledger

open Heap

variable {l : Ledger} {h s : Heap} {a : Nat} {b : Books} {c : Block} {bs : List Block}

theorem Describes.represents (hl : l.Describes h) : h.Represents l.blocks :=
  hl.recorded.represents

theorem describes_start (strategy : Strategy) (arena : Arena) :
    (start strategy arena).Describes (Heap.new arena strategy) :=
  ⟨(Engine.strategy_new strategy).symm, rfl, rfl, .bare⟩

theorem describes_layOut (hStrategy : l.strategy = h.strategy) (hMark : l.mark = h.arena.mark)
    (hLimit : l.limit = h.arena.limit) : l.layOut.Describes h.layOut.value.2 := by
  obtain ⟨done, r, hValue, hLaidOut, hRecorded⟩ := h.layOut_cases
  have hEngine : h.strategy = (Engine.new h.strategy).strategy :=
    (Engine.strategy_new h.strategy).symm
  have hAnchor : (l.mark + 15) / 16 * 16 = h.region.arena.aligned := by
    rw [hMark]
    rfl
  have hEnd : l.limit = h.region.arena.limit := hLimit
  unfold layOut
  rw [hValue]
  simp only [hAnchor, hEnd, hStrategy]
  cases hLaidOut with
  | cramped hOver _ hKept hSame =>
    rw [if_pos hOver]
    exact ⟨hEngine, hMark.trans hKept.symm, hSame.symm, .bare⟩
  | short hRoom hOver _ hTaken hSame =>
    rw [if_neg hRoom.not_gt, if_pos hOver]
    exact ⟨hEngine, hTaken.symm, hSame.symm, .bare⟩
  | done hRoom hStart hTaken hSame =>
    have hAligned : h.region.arena.aligned ≤ h.region.arena.limit :=
      (Nat.le_add_right _ _).trans hRoom
    rw [if_neg hAligned.not_gt, if_neg hRoom.not_gt, ← hStart]
    rw [← hStart] at hTaken
    exact ⟨hEngine, hTaken.symm, hSame.symm, hRecorded rfl⟩

theorem Describes.isSome_eq (hl : l.Describes h) : l.heap.isSome = h.ready :=
  hl.recorded.isSome_eq

theorem Describes.prepare (hl : l.Describes h) : l.prepare.Describes h.prepare.value := by
  unfold Ledger.prepare Heap.prepare
  rw [hl.isSome_eq]
  cases h.ready with
  | true => exact hl
  | false => exact describes_layOut hl.strategy_eq hl.mark_eq hl.limit_eq

theorem Describes.left_eq (hl : l.Describes h) :
    l.limit - l.mark = h.arena.capacity - h.arena.size := by
  rw [hl.limit_eq, hl.mark_eq, Arena.limit, Arena.mark]
  omega

theorem Describes.of_evolves (hl : l.Describes h) (hReady : h.ready = true)
    (hEvolves : h.Evolves bs s) (hr : s.Recorded (some (a, b))) :
    Describes { l with mark := a + b.size, heap := some (a, b) } s where
  strategy_eq := hl.strategy_eq.trans hEvolves.strategy_eq.symm
  mark_eq := hr.mark_eq.symm
  limit_eq := hl.limit_eq.trans (hEvolves.limit_eq hReady).symm
  recorded := hr

theorem Describes.value_allocate (hl : l.Describes h) (n : Nat) :
    (h.allocate n).value.1 = (l.allocate n).1 ∧
      (l.allocate n).2.Describes (h.allocate n).value.2 := by
  have hPrepared := hl.prepare
  have hRecorded := hPrepared.recorded
  rw [Heap.value_allocate]
  cases hHeap : l.prepare.heap with
  | none =>
    rw [hHeap] at hRecorded
    have hReady : h.prepare.value.ready = false := hRecorded.isSome_eq.symm
    simp only [Ledger.allocate, hHeap, hReady, if_neg Bool.false_ne_true, true_and]
    exact hPrepared
  | some record =>
    obtain ⟨a, b⟩ := record
    rw [hHeap] at hRecorded
    have hReady : h.prepare.value.ready = true := hRecorded.isSome_eq.symm
    obtain ⟨hAnswer, hCarved⟩ := hRecorded.carve n
    obtain ⟨_, _, _, hValue, _, _, _, hEvolves⟩ := hRecorded.represents.carve hReady n
    have hCarving : h.prepare.value.Evolves b.blocks (h.prepare.value.carve n).value.2 := by
      rw [hValue]
      exact hEvolves
    simp only [Ledger.allocate, hHeap, hReady, if_true, hPrepared.left_eq]
    refine ⟨?_, hPrepared.of_evolves hReady hCarving hCarved⟩
    rw [hAnswer, hCarved.anchor_eq]
    rfl

/-- Both serve a request for bytes alike, and the client holds the block that is granted. -/
theorem Describes.allocate (hl : l.Describes h) (n : Nat) : ∃ payload s,
    (h.allocate n).value = (payload.map s.region.address, s) ∧
      (l.allocate n).1 = payload.map s.region.address ∧ (l.allocate n).2.Describes s ∧
      Served n l.blocks payload (l.allocate n).2.blocks ∧ h.Evolves l.blocks s := by
  obtain ⟨payload, s, cs, hValue, hServed, hs, hEvolves⟩ := hl.represents.allocate n
  obtain ⟨hAnswer, hl'⟩ := hl.value_allocate n
  rw [hValue] at hAnswer hl'
  have hBlocks : cs = (l.allocate n).2.blocks :=
    hs.blockOffsets_eq.symm.trans hl'.represents.blockOffsets_eq
  exact ⟨payload, s, hValue, hAnswer.symm, hl', hBlocks ▸ hServed, hEvolves⟩

theorem Describes.mapMemory (hl : l.Describes h) {f : Memory → Memory}
    (hf : h.memory.Agree (fun x => ¬ ∃ c ∈ held l.blocks, c.At h.region.anchor x) (f h.memory)) :
    l.Describes (h.mapMemory f) :=
  ⟨hl.strategy_eq, hl.mark_eq, hl.limit_eq, hl.recorded.mapMemory hf⟩

theorem Describes.mapMemory_held (hl : l.Describes h) (hc : c ∈ held l.blocks)
    {f : Memory → Memory} {count : Nat} (hCount : count ≤ c.size)
    (hf : h.memory.Agree (fun x => ¬ (h.region.address c.payload ≤ x ∧
      x < h.region.address c.payload + count)) (f h.memory)) : l.Describes (h.mapMemory f) :=
  hl.mapMemory ((hf.of_payload hCount).mono fun _ hx hIn => hx ⟨c, hc, hIn⟩)

theorem Describes.free (hl : l.Describes h) (hc : c ∈ held l.blocks) :
    (l.free (h.region.address c.payload)).Describes
      (h.free (some (h.region.address c.payload))).value := by
  have hr := hl.recorded
  have hReady := hl.represents.ready_of_mem (List.mem_of_mem_filter hc)
  obtain ⟨cs, _, _, hEvolves⟩ := hl.represents.free hc
  have hValue :
      (h.free (some (h.region.address c.payload))).value = (h.release c.payload).value := by
    simp only [Heap.free, Journaled.value_bind, offset_address]
  rw [hValue] at hEvolves ⊢
  unfold blocks at hc
  unfold Ledger.free
  cases hHeap : l.heap with
  | none =>
    rw [hHeap] at hc
    cases hc
  | some record =>
    obtain ⟨a, b⟩ := record
    rw [hHeap] at hc hr
    obtain ⟨hReleased, hMark⟩ := hr.release hc
    have hOffset : h.region.address c.payload - a = c.payload := by
      rw [hr.anchor_eq]
      exact offset_address h.region c.payload
    simp only [Option.map_some, hOffset]
    exact ⟨hl.strategy_eq.trans hEvolves.strategy_eq.symm, hl.mark_eq.trans hMark.symm,
      hl.limit_eq.trans (hEvolves.limit_eq hReady).symm, hReleased⟩

theorem Describes.zeroAllocate (hl : l.Describes h) (count n : Nat) :
    (h.zeroAllocate count n).value.1 = (l.serve (.zeroAllocate count n)).1 ∧
      (l.serve (.zeroAllocate count n)).2.Describes (h.zeroAllocate count n).value.2 := by
  unfold Heap.zeroAllocate Ledger.serve
  by_cases hLimit : wordLimit ≤ count * n
  · simp only [if_pos hLimit]
    exact ⟨rfl, hl⟩
  · obtain ⟨payload, s, hValue, hAnswer, hs, hServed, _⟩ := hl.allocate (count * n)
    simp only [if_neg hLimit, Journaled.value_bind, hValue, hAnswer]
    cases hServed with
    | refused _ => exact ⟨rfl, hs⟩
    | @granted _ c hEnough hHeld =>
      refine ⟨rfl, hs.mapMemory_held (hHeld.mem_iff.mpr List.mem_cons_self) hEnough ?_⟩
      exact Memory.agree_fill _ _ _ _

theorem Describes.reallocate (hl : l.Describes h) (hc : c ∈ held l.blocks) (n : Nat) :
    let p := some (h.region.address c.payload)
    (h.reallocate p n).value.1 = (l.serve (.reallocate p n)).1 ∧
      (l.serve (.reallocate p n)).2.Describes (h.reallocate p n).value.2 := by
  intro p
  unfold Heap.reallocate Ledger.serve
  by_cases hZero : n = 0
  · simp only [p, if_pos hZero]
    exact ⟨rfl, hl.free hc⟩
  · obtain ⟨payload, s, hValue, hAnswer, hs, hServed, hEvolves⟩ := hl.allocate n
    have hHere : h.region.address c.payload = s.region.address c.payload := by
      have hReady := hl.represents.ready_of_mem (List.mem_of_mem_filter hc)
      rw [Region.address, Region.address, (hEvolves.region hReady).anchor_eq]
    cases hServe : l.allocate n with
    | mk answer l' =>
      rw [hServe] at hAnswer hs hServed
      obtain rfl : answer = payload.map s.region.address := hAnswer
      simp only [p, if_neg hZero, Journaled.value_bind, hValue, hHere, hServe]
      cases hServed with
      | refused _ => exact ⟨rfl, hs⟩
      | @granted _ d hEnough hHeld =>
        have hCopied := hs.mapMemory_held (hHeld.mem_iff.mpr List.mem_cons_self)
          ((Nat.min_le_right (h.usableSize (s.region.address c.payload)) n).trans hEnough)
          (f := (·.copy (s.region.address c.payload) (s.region.address d.payload) _))
          (Memory.agree_copy _ _ _ _)
        exact ⟨rfl, hCopied.free (hHeld.mem_iff.mpr (List.mem_cons_of_mem _ hc))⟩

/-- Heaps that one ledger describes differ in nothing but their memory. -/
theorem Describes.agree (hl : l.Describes h) (hl' : l.Describes s) (hReady : h.ready = true) :
    s.blocks = h.blocks ∧ s.size = h.size ∧ s.arena.mark = h.arena.mark ∧
      (h.strategy = .explicit →
        Explicit.freeList.newestFirst s.region = Explicit.freeList.newestFirst h.region) := by
  have hr := hl.recorded
  have hr' := hl'.recorded
  have hBlocks : s.blockOffsets = h.blockOffsets :=
    hl'.represents.blockOffsets_eq.trans hl.represents.blockOffsets_eq.symm
  have hReady' : s.ready = true := hl'.isSome_eq.symm.trans (hl.isSome_eq.trans hReady)
  have hStrategy : s.strategy = h.strategy := hl'.strategy_eq.symm.trans hl.strategy_eq
  cases hHeap : l.heap with
  | none =>
    rw [hHeap] at hr
    exact Bool.noConfusion (hr.isSome_eq.trans hReady)
  | some record =>
    obtain ⟨a, b⟩ := record
    rw [hHeap] at hr hr'
    refine ⟨blocks_congr (hr'.anchor_eq.symm.trans hr.anchor_eq) hBlocks,
      hr'.size_eq.symm.trans hr.size_eq, hr'.mark_eq.trans hr.mark_eq.symm, fun hExplicit => ?_⟩
    obtain ⟨books, hBooks, hNewest⟩ := hr.of_explicit hReady hExplicit
    obtain ⟨books', hBooks', hNewest'⟩ := hr'.of_explicit hReady' (hStrategy.trans hExplicit)
    have hSame := (Prod.mk.inj (Option.some.inj (hBooks.symm.trans hBooks'))).2
    obtain rfl := Books.explicit.inj hSame
    exact hNewest'.trans hNewest.symm

end Ledger

end BlockHeap
