import BlockHeap.Proofs.Session.Grants
import BlockHeap.Proofs.Session.Refusal

/-!
# Conservation of bytes

Every byte of a heap is accounted for: it belongs to the payload of a block, to the overhead of a
block, or to the fixed bookkeeping of the strategy. What the statistics count is read off the list
of blocks, and what this list adds up to is read off the tiling that it comes from.
-/

namespace BlockHeap

def spare (bs : List Block) : List Block := bs.filter (!·.allocated)

theorem held_cons (b : Block) (bs : List Block) :
    held (b :: bs) = if b.allocated then b :: held bs else held bs := List.filter_cons

theorem spare_cons (b : Block) (bs : List Block) :
    spare (b :: bs) = if b.allocated then spare bs else b :: spare bs := by
  rw [spare, List.filter_cons]
  cases b.allocated with
  | true => rfl
  | false => rfl

theorem length_held_add_spare (bs : List Block) :
    bs.length = (held bs).length + (spare bs).length :=
  (List.filter_append_perm Block.allocated bs).length_eq.symm.trans List.length_append

theorem sum_overhead_add_size (k : Nat) (bs : List Block) : (bs.map fun b => k + b.size).sum =
    k * bs.length + ((held bs).map Block.size).sum + ((spare bs).map Block.size).sum := by
  induction bs with
  | nil => rfl
  | cons b bs ih =>
    rw [List.map_cons, List.sum_cons, ih, List.length_cons, Nat.mul_succ, held_cons, spare_cons]
    cases b.allocated with
    | true =>
      simp only [if_true, List.map_cons, List.sum_cons]
      omega
    | false =>
      simp only [Bool.false_eq_true, if_false, List.map_cons, List.sum_cons]
      omega

namespace Statistics

theorem foldl_record (s : Statistics) (bs : List Block) : bs.foldl record s =
    { blocks := s.blocks + bs.length
      allocatedBlocks := s.allocatedBlocks + (held bs).length
      freeBlocks := s.freeBlocks + (spare bs).length
      allocatedBytes := s.allocatedBytes + ((held bs).map Block.size).sum
      freeBytes := s.freeBytes + ((spare bs).map Block.size).sum
      largestFree := ((spare bs).map Block.size).foldl max s.largestFree } := by
  induction bs generalizing s with
  | nil => rfl
  | cons b bs ih =>
    rw [List.foldl_cons, ih, record]
    cases hFlag : b.allocated with
    | true => simp [held_cons, spare_cons, hFlag, Nat.add_assoc, Nat.add_comm 1]
    | false => simp [held_cons, spare_cons, hFlag, Nat.add_assoc, Nat.add_comm 1]

theorem ofBlocks_eq (bs : List Block) : ofBlocks bs =
    { blocks := bs.length
      allocatedBlocks := (held bs).length
      freeBlocks := (spare bs).length
      allocatedBytes := ((held bs).map Block.size).sum
      freeBytes := ((spare bs).map Block.size).sum
      largestFree := ((spare bs).map Block.size).max?.getD 0 } := by
  rw [ofBlocks, foldl_record]
  simp [List.foldl_max]

end Statistics

namespace Heap

/-- The walk over the blocks, given up after `fuel` of them. -/
def walk (h : Heap) (fuel : Nat) : List Block :=
  let found :=
    if !h.ready then []
    else
      match h.engine with
      | .implicit none => []
      | .implicit (some span) =>
        (Implicit.chunksFrom h.region span.last fuel span.first).map Implicit.block
      | .explicit => (Explicit.chunksFrom h.region fuel Explicit.prologue).map Explicit.block
  found.map fun b => { b with payload := h.region.address b.payload }

variable {h : Heap} {bs : List Block}

/-- The walk ends by itself once it has seen all of the blocks. -/
theorem Represents.walk_eq (hr : h.Represents bs) {fuel : Nat} (hFuel : h.blocks.length < fuel) :
    h.walk fuel = h.blocks := by
  rw [blocks, List.length_map, hr.blockOffsets_eq] at hFuel
  rw [blocks, hr.blockOffsets_eq]
  refine congrArg (List.map _) ?_
  cases hr with
  | bare => rfl
  | @implicit span region cs hr =>
    rw [List.length_map] at hFuel
    cases span with
    | none => exact hr.blocks_eq
    | some t => exact congrArg (List.map Implicit.block) (hr.chunksFrom_eq hFuel.le)
  | explicit hr =>
    rw [List.length_map] at hFuel
    exact congrArg (List.map Explicit.block)
      (Explicit.chunksFrom_eq hr.holds.tiles hr.holds.tagged hr.epilogue_tag hFuel)

theorem Represents.size_eq_sum (hr : h.Represents bs) (hReady : h.ready = true) :
    h.size = h.strategy.bookkeeping + (bs.map fun b => h.strategy.overhead + b.size).sum := by
  cases hr with
  | bare => cases hReady
  | @implicit span region cs hr =>
    have hExtent : 8 + Chunk.extent 0 (cs.map Chunk.tag) = region.size := hr.tiles.extent_eq
    refine hExtent.symm.trans (congrArg (8 + ·) ?_)
    rw [Chunk.extent, List.map_map, List.map_map]
    refine congrArg List.sum (List.map_congr_left fun c hc => ?_)
    have hSize := Chunk.size_of_wellSized (hr.tiles.wellSized hc)
    change 0 + c.size = 8 + (c.size - 8)
    omega
  | @explicit region cs ns hr =>
    have hExtent : 32 + Chunk.extent 16 (cs.map Chunk.tag) = region.size - 16 :=
      hr.holds.tiles.extent_eq
    have hLow := hr.size_ge
    have hSum : ((cs.map Explicit.block).map fun b => 16 + b.size).sum =
        Chunk.extent 16 (cs.map Chunk.tag) := by
      rw [Chunk.extent, List.map_map, List.map_map]
      rfl
    change region.size = 48 + ((cs.map Explicit.block).map fun b => 16 + b.size).sum
    omega

theorem Represents.payloads_increase (hr : h.Represents bs) :
    (h.blocks.map Block.payload).Pairwise (· < ·) := by
  rw [blocks, hr.blockOffsets_eq, List.map_map]
  refine List.pairwise_map.mpr (hr.pairwise.imp_of_mem fun {b c} hb _ hApart => ?_)
  have hBounds := hr.bounds hb
  simp only [Function.comp_apply, Region.address]
  omega

end Heap

namespace Session

variable {strategy : Strategy} {arena : Arena} {s : Session} {qs : List Request} {bs : List Block}

/-- After every run, the blocks that the walk finds are the ones that the statistics count, the
allocated ones are the live pointers, and all bytes of the heap are accounted for. -/
theorem blocks_account_for_size (hRun : (start strategy arena).Run qs s) :
    let bs := s.heap.blocks
    let stats := s.heap.statistics
    (∀ fuel, bs.length < fuel → s.heap.walk fuel = bs) ∧
    (bs.map Block.payload).Pairwise (· < ·) ∧
    s.live.Nodup ∧ s.live.Perm ((held bs).map Block.payload) ∧
    (∀ b ∈ bs, s.heap.usableSize b.payload = b.size) ∧
    stats.blocks = bs.length ∧
    stats.allocatedBlocks = (held bs).length ∧ stats.freeBlocks = (spare bs).length ∧
    stats.blocks = stats.allocatedBlocks + stats.freeBlocks ∧
    stats.allocatedBytes = ((held bs).map Block.size).sum ∧
    stats.freeBytes = ((spare bs).map Block.size).sum ∧
    stats.largestFree = ((spare bs).map Block.size).max?.getD 0 ∧
    (s.heap.ready = true → s.heap.size = strategy.bookkeeping + strategy.overhead * stats.blocks +
      stats.allocatedBytes + stats.freeBytes) := by
  intro bs stats
  obtain ⟨os, hs, hStrategy⟩ := (sound_start strategy arena).run hRun
  rw [strategy_start] at hStrategy
  have hStats : stats = _ := Statistics.ofBlocks_eq bs
  rw [hStats]
  refine ⟨fun fuel hFuel => hs.represents.walk_eq hFuel, hs.represents.payloads_increase, hs.nodup,
    hs.live_perm_blocks, fun b hb => hs.represents.usableSize_of_mem_blocks hb, rfl, rfl, rfl,
    length_held_add_spare bs, rfl, rfl, rfl, fun hReady => ?_⟩
  have hSize := hs.represents.size_eq_sum hReady
  have hSame : (bs.map fun b => strategy.overhead + b.size) =
      os.map fun b => strategy.overhead + b.size := by
    change (s.heap.blocks.map fun b => strategy.overhead + b.size) = _
    rw [Heap.blocks, hs.represents.blockOffsets_eq, List.map_map]
    rfl
  rw [hStrategy, ← hSame, sum_overhead_add_size, ← Nat.add_assoc, ← Nat.add_assoc] at hSize
  exact hSize

theorem blocks_account_for_size_of_three :
    let s := (((((start .explicit Arena.page).step (.allocate 24)).step (.allocate 40)).step
      (.allocate 8)).step (.free (some 65600))).step (.free (some 65648))
    s.heap.ready = true ∧ s.heap.blocks = [⟨65600, 96, false⟩, ⟨65712, 16, true⟩] ∧
    s.heap.walk 3 = s.heap.blocks ∧ s.live = [65712] ∧ s.heap.usableSize 65712 = 16 ∧
    s.heap.statistics.largestFree = 96 ∧ s.heap.size = 48 + 16 * 2 + 16 + 96 := by
  intro s
  let r := (((start .explicit Arena.page).step (.allocate 24)).step (.allocate 40)).step
    (.allocate 8)
  have hStart : (start .explicit Arena.page).Run [.allocate 24, .allocate 40, .allocate 8] r :=
    .cons trivial (.cons trivial (.cons trivial (.nil r)))
  have hLive : r.live = [65712, 65648, 65600] := by
    rw [hStart.live_eq, ((simulated_start _ _).run hStart).1]
    decide
  have hFirst : r.Lawful (.free (some 65600)) := by simp [Lawful, hLive]
  have hSecond : (r.step (.free (some 65600))).Lawful (.free (some 65648)) := by
    simp [Lawful, hLive]
  have hRun : (start .explicit Arena.page).Run [.allocate 24, .allocate 40, .allocate 8,
      .free (some 65600), .free (some 65648)] s :=
    .cons trivial (.cons trivial (.cons trivial (.cons hFirst (.cons hSecond (.nil s)))))
  have hs := ((simulated_start _ _).run hRun).2
  have hLedger : ((Ledger.start .explicit Arena.page).after [.allocate 24, .allocate 40,
      .allocate 8, .free (some 65600), .free (some 65648)]).heap = some (65552, .explicit
        ⟨[⟨96, false⟩, ⟨16, true⟩], [48]⟩) := by decide
  have hRecorded := hs.describes.recorded
  rw [hLedger] at hRecorded
  have hBlocks : s.heap.blocks = [⟨65600, 96, false⟩, ⟨65712, 16, true⟩] := hRecorded.blocks_eq
  have hReady : s.heap.ready = true := hRecorded.isSome_eq.symm
  obtain ⟨hWalk, _, _, hPerm, hUsable, hCount, _, _, _, hAllocated, hFree, hLargest, hSize⟩ :=
    blocks_account_for_size hRun
  have hTotal := hSize hReady
  rw [hCount, hAllocated, hFree, hBlocks] at hTotal
  rw [hBlocks] at hWalk hPerm hUsable hLargest
  refine ⟨hReady, hBlocks, (hWalk 3 (by decide)).trans hBlocks.symm, ?_, ?_, hLargest, hTotal⟩
  · exact List.perm_singleton.mp hPerm
  · exact hUsable ⟨65712, 16, true⟩ (by decide)

end Session

end BlockHeap
