import BlockHeap.Proofs.Explicit.Confluence
import BlockHeap.Proofs.Session.Exhaustion
import BlockHeap.Proofs.Session.Refusal
import BlockHeap.Proofs.Session.Verdict

/-!
# Order of releases

Freeing some of the live pointers of an explicit heap leaves the same blocks in whatever order it is
done, and the same nodes in the list, though not in the same places. What is left is said without an
order: the blocks of these pointers are marked free, and then each run becomes one block.
-/

namespace BlockHeap

/-- The block, marked free if its payload starts at one of these pointers. -/
def Block.release (gone : Nat → Bool) (b : Block) : Block :=
  ⟨b.payload, b.size, b.allocated && !gone b.payload⟩

namespace Explicit

theorem block_fuse {run : List Chunk} (h : run ≠ []) :
    block (Chunk.fuse overhead run) = Block.fuse 16 (run.map block) := by
  obtain ⟨c, cs, rfl⟩ := List.exists_cons_of_ne_nil h
  rw [List.map_cons, Block.fuse, List.map_map, List.any_map]
  rfl

theorem map_block_mergeRuns (cs : List Chunk) :
    (Chunk.mergeRuns overhead cs).map block = Block.mergeRuns 16 (cs.map block) :=
  Block.map_mergeRuns allocated_block fun _ hRun => block_fuse (ne_nil_of_mem_runs hRun)

theorem Represents.newestFirst_perm {r s : Region} {cs : List Chunk} {ns ms : List Nat}
    (h : Represents r cs ns) (h' : Represents s cs ms) :
    (freeList.newestFirst s).Perm (freeList.newestFirst r) := by
  rw [h.newestFirst_eq, h'.newestFirst_eq]
  have hNodes : ms.reverse.Perm (freeNodes cs) := (List.reverse_perm ms).trans h'.listed
  exact hNodes.trans (h.listed.symm.trans (List.reverse_perm ns).symm)

end Explicit

theorem Heap.Represents.adjacent_blocks {h : Heap} {bs : List Block} (hr : h.Represents bs) :
    h.blocks.IsChain fun b c => c.payload = b.payload + b.size + h.strategy.overhead := by
  rw [blocks, hr.blockOffsets_eq]
  refine (List.isChain_map _).mpr (hr.adjacent.imp fun b c hNext => ?_)
  simp only [Region.address]
  omega

theorem Heap.value_free_explicit (r : Region) (o : Nat) :
    ((⟨.explicit, r, true⟩ : Heap).free (some (r.address o))).value =
      ⟨.explicit, (Explicit.free r o).value, true⟩ := by
  simp only [Heap.free, Journaled.value_bind, offset_address]
  rfl

namespace Session

def releases (ps : List Nat) : List Request := ps.map fun p => .free (some p)

variable {s t u : Session} {cs : List Chunk} {gone : Nat → Bool} {p : Nat} {ps rs : List Nat}

def remaining (s : Session) (cs : List Chunk) (gone : Nat → Bool) : List Chunk :=
  Chunk.mergeRuns Explicit.overhead
    (cs.map (Chunk.release fun o => gone (s.heap.region.address (Explicit.payload o))))

/-- What freeing the pointers `gone` of `s` leaves, whose explicit heap has the chunks `cs`. -/
structure Released (s : Session) (cs : List Chunk) (gone : Nat → Bool) (t : Session) : Prop where
  represents : ∃ ms, Explicit.Represents t.heap.region (s.remaining cs gone) ms
  engine_eq : t.heap.engine = .explicit
  ready : t.heap.ready = true
  anchor_eq : t.heap.region.anchor = s.heap.region.anchor
  size_eq : t.heap.size = s.heap.size
  live_eq : t.live = s.live.filter fun p => !gone p
  sound : t.Sound ((s.remaining cs gone).map Explicit.block)

theorem Sound.exists_chunks {bs : List Block} (hs : s.Sound bs) (hReady : s.heap.ready = true)
    (hEngine : s.heap.engine = .explicit) :
    ∃ cs ns, bs = cs.map Explicit.block ∧ Explicit.Represents s.heap.region cs ns := by
  obtain ⟨cs, ns, hr⟩ := hs.represents_explicit hReady hEngine
  refine ⟨cs, ns, ?_, hr⟩
  obtain ⟨⟨engine, region, ready⟩, live⟩ := s
  obtain rfl : engine = .explicit := hEngine
  obtain rfl : ready = true := hReady
  exact hs.represents.blockOffsets_eq.symm.trans (Heap.Represents.explicit hr).blockOffsets_eq

theorem released_start {ns : List Nat} (hs : s.Sound (cs.map Explicit.block))
    (hr : Explicit.Represents s.heap.region cs ns) (hEngine : s.heap.engine = .explicit)
    (hReady : s.heap.ready = true) : s.Released cs (fun _ => false) s := by
  have hSame : s.remaining cs (fun _ => false) = cs := by
    rw [remaining, Chunk.map_release_of_not fun _ _ => rfl,
      Chunk.mergeRuns_of_separated _ hr.separated]
  constructor
  · exact ⟨ns, hSame.symm ▸ hr⟩
  · exact hEngine
  · exact hReady
  · rfl
  · rfl
  · exact (List.filter_eq_self.mpr fun _ _ => rfl).symm
  · rwa [hSame]

/-- Merging after every release comes to merging once. -/
theorem Released.remaining_eq (h : s.Released cs gone t) (c : Chunk) :
    Chunk.mergeRuns Explicit.overhead ((s.remaining cs gone).map (Chunk.release (· == c.offset))) =
      s.remaining cs fun x => gone x || x == pointerOf t.heap (Explicit.block c) := by
  have hOwn : ∀ o, (o == c.offset) = (s.heap.region.address (Explicit.payload o) ==
      pointerOf t.heap (Explicit.block c)) := by
    intro o
    rw [Bool.eq_iff_iff, beq_iff_eq, beq_iff_eq, pointerOf, Region.address, Region.address,
      h.anchor_eq]
    exact (Nat.add_left_cancel_iff.trans Nat.add_right_cancel_iff).symm
  rw [remaining, Chunk.mergeRuns_map_release, List.map_map, remaining]
  refine congrArg _ (List.map_congr_left fun d _ => ?_)
  rw [Function.comp_apply, Chunk.release_release]
  simp only [hOwn]

theorem Released.step (h : s.Released cs gone t) (hp : p ∈ t.live) :
    s.Released cs (fun x => gone x || x == p) (t.step (.free (some p))) := by
  obtain ⟨ms, hr⟩ := h.represents
  obtain ⟨b, hb, rfl⟩ := h.sound.exists_of_mem hp
  obtain ⟨bs, hSound, _⟩ := h.sound.step (q := .free (some (pointerOf t.heap b))) hp
  rw [held_map Explicit.allocated_block] at hb
  obtain ⟨c, hc, rfl⟩ := List.mem_map.mp hb
  obtain ⟨hMem, hFlag⟩ := List.mem_filter.mp hc
  obtain ⟨ms', hs, hAnchor, hSize⟩ := hr.free_merged hMem hFlag
  rw [h.remaining_eq] at hs
  have hHeap : (t.step (.free (some (pointerOf t.heap (Explicit.block c))))).heap =
      ⟨.explicit, (Explicit.free t.heap.region (Explicit.payload c.offset)).value, true⟩ := by
    have hEngine := h.engine_eq
    have hReady := h.ready
    obtain ⟨⟨engine, region, ready⟩, live⟩ := t
    obtain rfl : engine = .explicit := hEngine
    obtain rfl : ready = true := hReady
    exact Heap.value_free_explicit region _
  have hBlocks := hSound.represents.blockOffsets_eq
  rw [hHeap, (Heap.Represents.explicit hs).blockOffsets_eq] at hBlocks
  constructor
  · rw [hHeap]
    exact ⟨ms', hs⟩
  · rw [hHeap]
  · rw [hHeap]
  · rw [hHeap]
    exact hAnchor.trans h.anchor_eq
  · rw [hHeap]
    exact hSize.trans h.size_eq
  · rw [live_step_free, h.live_eq, List.filter_filter]
    refine List.filter_congr fun x _ => ?_
    rw [Bool.not_or, Bool.and_comm]
  · rwa [hBlocks]

theorem Released.run (h : s.Released cs gone t) (hNodup : ps.Nodup) (hLive : ∀ p ∈ ps, p ∈ t.live) :
    ∃ u, t.Run (releases ps) u ∧ s.Released cs (fun x => gone x || decide (x ∈ ps)) u := by
  induction ps generalizing gone t with
  | nil => exact ⟨t, .nil t, by simpa using h⟩
  | cons p ps ih =>
    obtain ⟨hFresh, hRest⟩ := List.nodup_cons.mp hNodup
    obtain ⟨hp, hps⟩ := List.forall_mem_cons.mp hLive
    have hKept : ∀ x ∈ ps, x ∈ (t.step (.free (some p))).live := by
      intro x hx
      have hNe : x ≠ p := fun hEq => hFresh (hEq ▸ hx)
      rw [live_step_free]
      exact List.mem_filter.mpr ⟨hps x hx, by simpa using hNe⟩
    obtain ⟨u, hRun, hu⟩ := ih (h.step hp) hRest hKept
    refine ⟨u, .cons hp hRun, ?_⟩
    have hGone : (fun x => gone x || decide (x ∈ p :: ps)) =
        fun x => (gone x || x == p) || decide (x ∈ ps) := by
      funext x
      rw [List.decide_mem_cons, Bool.or_assoc]
    rwa [hGone]

theorem Released.blocks_eq (h : s.Released cs gone t)
    (hr : s.heap.Represents (cs.map Explicit.block)) :
    t.heap.blocks = Block.mergeRuns 16 (s.heap.blocks.map (Block.release gone)) := by
  have hLeft : t.heap.blockOffsets = Block.mergeRuns 16 ((cs.map (Chunk.release fun o =>
      gone (s.heap.region.address (Explicit.payload o)))).map Explicit.block) :=
    h.sound.represents.blockOffsets_eq.trans (Explicit.map_block_mergeRuns _)
  rw [Heap.blocks, hLeft, ← Block.mergeRuns_map, Heap.blocks, hr.blockOffsets_eq]
  simp only [List.map_map, Region.address, h.anchor_eq]
  rfl

theorem Released.nodes_perm (ht : s.Released cs gone t) (hu : s.Released cs gone u) :
    (Explicit.freeList.newestFirst u.heap.region).Perm
      (Explicit.freeList.newestFirst t.heap.region) := by
  obtain ⟨ms, hr⟩ := ht.represents
  obtain ⟨ns, hr'⟩ := hu.represents
  exact hr.newestFirst_perm hr'

variable {arena : Arena} {qs : List Request}

/-- Live pointers of an explicit heap can be freed one after the other in any two orders, and either
leaves the same blocks, each maximal run of free neighbours being one of them. -/
theorem releases_confluent (hRun : (start .explicit arena).Run qs s) (hNodup : ps.Nodup)
    (hLive : ∀ p ∈ ps, p ∈ s.live) (hPerm : rs.Perm ps) :
    ∃ t u, s.Run (releases ps) t ∧ s.Run (releases rs) u ∧
      (s.heap.blocks.IsChain fun b c => c.payload = b.payload + b.size + 16) ∧
      t.heap.blocks = Block.mergeRuns 16 (s.heap.blocks.map (Block.release (· ∈ ps))) ∧
      u.heap.blocks = t.heap.blocks ∧ u.heap.statistics = t.heap.statistics ∧
      t.heap.size = s.heap.size ∧ u.heap.size = t.heap.size ∧
      u.heap.region.anchor = t.heap.region.anchor ∧
      (Explicit.freeList.newestFirst u.heap.region).Perm
        (Explicit.freeList.newestFirst t.heap.region) := by
  obtain ⟨bs, hs, hStrategy⟩ := (sound_start .explicit arena).run hRun
  have hEngine := engine_of_run hRun
  have hAdjacent := hs.represents.adjacent_blocks
  rw [hStrategy, strategy_start] at hAdjacent
  cases hReady : s.heap.ready with
  | false =>
    obtain rfl : ps = [] := by
      rw [hs.live_eq_nil hReady] at hLive
      exact List.eq_nil_iff_forall_not_mem.mpr fun p hp => List.not_mem_nil (hLive p hp)
    obtain rfl := List.perm_nil.mp hPerm
    have hNone : s.heap.blocks = [] := by
      rw [Heap.blocks, Heap.blockOffsets, hReady]
      rfl
    refine ⟨s, s, .nil s, .nil s, hAdjacent, ?_, rfl, rfl, rfl, rfl, rfl, List.Perm.refl _⟩
    rw [hNone]
    rfl
  | true =>
    obtain ⟨cs, ns, rfl, hr⟩ := hs.exists_chunks hReady hEngine
    have hStart := released_start hs hr hEngine hReady
    obtain ⟨t, hRunT, ht⟩ := hStart.run hNodup hLive
    obtain ⟨u, hRunU, hu⟩ := hStart.run (hPerm.nodup_iff.mpr hNodup)
      fun p hp => hLive p (hPerm.mem_iff.mp hp)
    have hSame : (fun x => false || decide (x ∈ rs)) = fun x => false || decide (x ∈ ps) := by
      funext x
      simp only [hPerm.mem_iff]
    rw [hSame] at hu
    simp only [Bool.false_or] at ht hu
    have hBlocks : u.heap.blocks = t.heap.blocks :=
      (hu.blocks_eq hs.represents).trans (ht.blocks_eq hs.represents).symm
    have hStatistics : u.heap.statistics = t.heap.statistics :=
      congrArg Statistics.ofBlocks hBlocks
    exact ⟨t, u, hRunT, hRunU, hAdjacent, ht.blocks_eq hs.represents, hBlocks, hStatistics,
      ht.size_eq, hu.size_eq.trans ht.size_eq.symm, hu.anchor_eq.trans ht.anchor_eq.symm,
      ht.nodes_perm hu⟩

theorem releases_confluent_of_three :
    let s := ((((start .explicit Arena.page).step (.allocate 24)).step (.allocate 24)).step
      (.allocate 24)).step (.allocate 8)
    ∃ t u, s.Run (releases [65648, 65600, 65696]) t ∧ s.Run (releases [65600, 65696, 65648]) u ∧
      t.heap.blocks = [⟨65600, 128, false⟩, ⟨65744, 16, true⟩] ∧
      u.heap.blocks = t.heap.blocks ∧ u.heap.statistics = t.heap.statistics ∧
      (Explicit.freeList.newestFirst u.heap.region).Perm
        (Explicit.freeList.newestFirst t.heap.region) := by
  intro s
  have hRun : (start .explicit Arena.page).Run
      [.allocate 24, .allocate 24, .allocate 24, .allocate 8] s :=
    .cons trivial (.cons trivial (.cons trivial (.cons trivial (.nil s))))
  have hs := (simulated_start _ _).run hRun
  have hLive : s.live = [65744, 65696, 65648, 65600] := by
    rw [hRun.live_eq, hs.1]
    decide
  have hBlocks : s.heap.blocks = [⟨65600, 32, true⟩, ⟨65648, 32, true⟩, ⟨65696, 32, true⟩,
      ⟨65744, 16, true⟩] := by
    have hLedger : ((Ledger.start .explicit Arena.page).after [.allocate 24, .allocate 24,
        .allocate 24, .allocate 8]).heap = some (65552, .explicit
          ⟨[⟨32, true⟩, ⟨32, true⟩, ⟨32, true⟩, ⟨16, true⟩], []⟩) := by decide
    have hRecorded := hs.2.describes.recorded
    rw [hLedger] at hRecorded
    exact hRecorded.blocks_eq
  have hMem : ∀ p ∈ [65648, 65600, 65696], p ∈ s.live := by simp [hLive]
  have hPerm : [65600, 65696, 65648].Perm [65648, 65600, 65696] := by decide
  obtain ⟨t, u, hFirst, hSecond, _, hLeft, hBlocks', hStatistics, _, _, _, hNodes⟩ :=
    releases_confluent hRun (by decide) hMem hPerm
  rw [hBlocks] at hLeft
  refine ⟨t, u, hFirst, hSecond, hLeft.trans ?_, hBlocks', hStatistics, hNodes⟩
  decide

end Session

end BlockHeap
