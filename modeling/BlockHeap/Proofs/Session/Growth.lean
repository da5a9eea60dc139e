import BlockHeap.Proofs.Chunk.Runs
import BlockHeap.Proofs.Session.Soundness

/-!
# Growth on need

An allocation is served from a run of free neighbours whenever one is large enough, merged or not;
otherwise the heap grows by exactly one new block, if the arena has the bytes; otherwise it stays as
it is. This is read off the outcome of an allocation under either strategy: the implicit one merges
all runs before it searches, and under the explicit one no run is longer than one block.
-/

namespace BlockHeap

namespace Strategy

def overhead : Strategy → Nat
  | .implicit => 8
  | .explicit => 16

/-- The bytes of a heap besides its blocks: the word before the first payload, or the sentinels of
the free list, the prologue and the epilogue. -/
def bookkeeping : Strategy → Nat
  | .implicit => 8
  | .explicit => 48

/-- The bytes of a new block for `n` bytes, overhead and all. -/
def need : Strategy → Nat → Nat
  | .implicit, n => (n + 8 + 15) / 16 * 16
  | .explicit, n => max ((n + 15) / 16 * 16) 16 + 16

end Strategy

/-- Some maximal run of free neighbours has at least `need` bytes, overhead and all. -/
def HasRun (overhead need : Nat) (bs : List Block) : Prop :=
  ∃ run ∈ runs Block.allocated bs, (∀ b ∈ run, b.allocated = false) ∧
    need ≤ (run.map fun b => overhead + b.size).sum

instance (overhead need : Nat) (bs : List Block) : Decidable (HasRun overhead need bs) :=
  inferInstanceAs (Decidable (∃ run ∈ _, _))

/-- What an allocation that takes `need` new bytes answers, and the size that the heap has then. -/
structure Grows (fits : Prop) (need left size : Nat) (answer : Option Nat) (size' : Nat) :
    Prop where
  reused : fits → answer.isSome = true ∧ size' = size
  appended : ¬ fits → need ≤ left → answer.isSome = true ∧ size' = size + need
  refused : ¬ fits → left < need → answer = none ∧ size' = size

variable {n need left size size' : Nat} {answer : Option Nat} {c : Chunk} {cs ds : List Chunk}
  {ns ms : List Nat}

theorem Grows.of_reused {fits : Prop} {payload : Nat} (hFits : fits) (hSize : size' = size) :
    Grows fits need left size (some payload) size' :=
  ⟨fun _ => ⟨rfl, hSize⟩, fun hNot => (hNot hFits).elim, fun hNot => (hNot hFits).elim⟩

theorem Grows.of_appended {fits : Prop} {payload : Nat} (hFits : ¬ fits) (hLeft : need ≤ left)
    (hSize : size' = size + need) : Grows fits need left size (some payload) size' :=
  ⟨fun h => (hFits h).elim, fun _ _ => ⟨rfl, hSize⟩, fun _ h => (hLeft.not_gt h).elim⟩

theorem Grows.of_refused {fits : Prop} (hFits : ¬ fits) (hLeft : left < need)
    (hSize : size' = size) : Grows fits need left size none size' :=
  ⟨fun h => (hFits h).elim, fun _ h => (hLeft.not_ge h).elim, fun _ _ => ⟨rfl, hSize⟩⟩

namespace Implicit

theorem need_eq (h : required? n = some need) : Strategy.implicit.need n = need :=
  (required?_eq_some_iff.mp h).1

theorem hasRun_iff {a b : Nat} (hTiles : Chunk.Tiles 0 a cs b) :
    HasRun 8 need (cs.map block) ↔ ∃ d ∈ Chunk.mergeRuns 0 cs, d.fits need = true := by
  have hRuns : runs Block.allocated (cs.map block) =
      (runs Chunk.allocated cs).map (List.map block) := runs_map allocated_block cs
  have hSum : ∀ run ∈ runs Chunk.allocated cs,
      ((run.map block).map fun b => 8 + b.size).sum = (run.map Chunk.size).sum := by
    intro run hRun
    rw [List.map_map]
    refine congrArg List.sum (List.map_congr_left fun c hc => ?_)
    have hSize := Chunk.size_of_wellSized (hTiles.wellSized (mem_of_mem_runs hRun hc))
    show 8 + (c.size - 8) = c.size
    omega
  rw [Chunk.exists_fits_mergeRuns_iff, HasRun, hRuns]
  constructor
  · rintro ⟨_, hMem, hFree, hLe⟩
    obtain ⟨run, hRun, rfl⟩ := List.mem_map.mp hMem
    rw [hSum run hRun] at hLe
    exact ⟨run, hRun, List.forall_mem_map.mp hFree, hLe⟩
  · rintro ⟨run, hRun, hFree, hLe⟩
    refine ⟨run.map block, List.mem_map_of_mem hRun, List.forall_mem_map.mpr hFree, ?_⟩
    rwa [hSum run hRun]

theorem le_of_hasRun {a b : Nat} (hTiles : Chunk.Tiles 0 a cs b)
    (h : HasRun 8 need (cs.map block)) : need ≤ b := by
  obtain ⟨d, hd, hFits⟩ := (hasRun_iff hTiles).mp h
  have hBounds := (hTiles.mergeRuns (by decide)).bounds hd
  have hLe := (Chunk.fits_iff.mp hFits).2
  omega

theorem Outcome.grows (h : Outcome n left size cs answer ds)
    (hTiles : Chunk.Tiles 0 start cs size) (hTiles' : Chunk.Tiles 0 start ds size')
    (hSize : size < wordLimit) (hLeft : left < wordLimit) :
    Grows (HasRun 8 (Strategy.implicit.need n) (cs.map block)) (Strategy.implicit.need n) left size
      answer size' := by
  have hMerged := hTiles.mergeRuns (by decide)
  cases h with
  | unrepresentable hNone =>
    have hLarge : wordLimit ≤ Strategy.implicit.need n := (required?_eq_none_iff n).mp hNone
    have hFits : ¬ HasRun 8 (Strategy.implicit.need n) (cs.map block) := fun h =>
      (hSize.trans_le hLarge).not_ge (le_of_hasRun hTiles h)
    exact .of_refused hFits (hLeft.trans_le hLarge) (hTiles'.unique hTiles)
  | @reused need xs c ys hRequired hSplit _ hFits =>
    rw [need_eq hRequired, hasRun_iff hTiles, hSplit]
    rw [hSplit] at hMerged
    refine .of_reused ⟨c, by simp, hFits⟩ (hTiles'.unique ?_)
    exact hMerged.carve (by decide) (required?_pos hRequired) (Chunk.fits_iff.mp hFits).2
  | @appended need hRequired hNot hRoom =>
    rw [need_eq hRequired, hasRun_iff hTiles]
    refine .of_appended (by simpa using hNot) hRoom (hTiles'.unique ?_)
    exact Chunk.tiles_append_cons.mpr
      ⟨hMerged, (Tag.wellSized_iff _).mpr (required?_pos hRequired), rfl⟩
  | exhausted hRequired hNot hRoom =>
    rw [need_eq hRequired, hasRun_iff hTiles]
    exact .of_refused (by simpa using hNot) hRoom (hTiles'.unique hMerged)

end Implicit

namespace Explicit

theorem need_eq (h : required? n = some need) : Strategy.explicit.need n = need + 16 :=
  congrArg (· + 16) (required?_eq_some_iff.mp h).1

theorem hasRun_iff (hSeparated : Chunk.Separated cs) :
    HasRun 16 (need + 16) (cs.map block) ↔ ∃ d ∈ cs, d.fits need = true := by
  have hRuns : runs Block.allocated (cs.map block) =
      (runs Chunk.allocated cs).map (List.map block) := runs_map allocated_block cs
  rw [HasRun, hRuns, Chunk.runs_of_separated hSeparated]
  simp [Chunk.fits_iff, block, Nat.add_comm 16]

theorem le_of_hasRun {b : Nat} (hTiles : Chunk.Tiles overhead prologue cs b)
    (hSeparated : Chunk.Separated cs) (h : HasRun 16 need (cs.map block)) : need ≤ b := by
  have hLow := hTiles.le
  rw [prologue_eq] at hLow
  rcases Nat.le_total need 16 with hSmall | hLarge
  · omega
  · obtain ⟨k, rfl⟩ := Nat.exists_eq_add_of_le' hLarge
    obtain ⟨d, hd, hFits⟩ := (hasRun_iff hSeparated).mp h
    have hBounds := bounds_of_mem hTiles hd
    have hLe := (Chunk.fits_iff.mp hFits).2
    omega

theorem Outcome.grows (h : Outcome n left size cs ns answer ds ms)
    (hTiles : Chunk.Tiles overhead prologue cs (size - overhead))
    (hTiles' : Chunk.Tiles overhead prologue ds (size' - overhead))
    (hSeparated : Chunk.Separated cs) (hLow : 16 ≤ size) (hLow' : 16 ≤ size')
    (hSize : size < wordLimit) (hLeft : left < wordLimit) :
    Grows (HasRun 16 (Strategy.explicit.need n) (cs.map block)) (Strategy.explicit.need n) left size
      answer size' := by
  have hSame : Chunk.Tiles overhead prologue ds (size - overhead) → size' = size := by
    intro h
    have hEnd := hTiles'.unique h
    rw [overhead_eq] at hEnd
    omega
  cases h with
  | unrepresentable hNone =>
    have hLarge : wordLimit ≤ Strategy.explicit.need n :=
      ((required?_eq_none_iff n).mp hNone).trans (Nat.le_add_right _ 16)
    have hFits : ¬ HasRun 16 (Strategy.explicit.need n) (cs.map block) := fun h =>
      (hSize.trans_le hLarge).not_ge ((le_of_hasRun hTiles hSeparated h).trans (Nat.sub_le _ _))
    exact .of_refused hFits (hLeft.trans_le hLarge) (hSame hTiles)
  | @reused need xs ys c older newer hRequired hSplit _ hFits _ =>
    subst hSplit
    rw [need_eq hRequired, hasRun_iff hSeparated]
    refine .of_reused ⟨c, by simp, hFits⟩ (hSame ?_)
    exact hTiles.carve (by decide) (required?_pos hRequired) (Chunk.fits_iff.mp hFits).2
  | @appended need hRequired hNot hRoom =>
    rw [need_eq hRequired, hasRun_iff hSeparated]
    refine .of_appended (by simpa using hNot) hRoom ?_
    have hEnd := hTiles'.unique (Chunk.tiles_append_cons.mpr
      ⟨hTiles, (Tag.wellSized_iff _).mpr (required?_pos hRequired), rfl⟩)
    rw [Chunk.stop_mk, overhead_eq] at hEnd
    omega
  | exhausted hRequired hNot hRoom =>
    rw [need_eq hRequired, hasRun_iff hSeparated]
    exact .of_refused (by simpa using hNot) hRoom (hSame hTiles)

end Explicit

namespace Heap

variable {h : Heap} {bs : List Block}

theorem Represents.le_of_hasRun (hr : h.Represents bs) (hReady : h.ready = true)
    (hRun : HasRun h.strategy.overhead need bs) : need ≤ h.size := by
  cases hr with
  | bare => cases hReady
  | implicit hr => exact Implicit.le_of_hasRun hr.tiles hRun
  | explicit hr =>
    exact (Explicit.le_of_hasRun hr.holds.tiles hr.separated hRun).trans (Nat.sub_le _ _)

/-- A heap with a layout carves a new block from a free run, or grows by it, or stays as it is. -/
theorem Represents.carve_grows (hr : h.Represents bs) (hReady : h.ready = true) (n : Nat) :
    Grows (HasRun h.strategy.overhead (h.strategy.need n) bs) (h.strategy.need n)
      (h.arena.capacity - h.arena.size) h.size (h.carve n).value.1 (h.carve n).value.2.size := by
  have hEnd := h.arena.end_lt
  have hLeft : h.arena.capacity - h.arena.size < wordLimit := by omega
  have hSize : h.size < wordLimit := (Nat.le_add_right _ 16).trans_lt (hr.anchored hReady).size_lt
  cases hr with
  | bare => cases hReady
  | @implicit span region cs hr =>
    obtain ⟨payload, s, ds, hValue, hOutcome, hs, _⟩ := hr.allocate n
    simp only [Heap.carve, Journaled.value_bind, hValue]
    exact hOutcome.grows hr.tiles hs.tiles hSize hLeft
  | @explicit region cs ns hr =>
    obtain ⟨payload, s, ds, ms, hValue, hOutcome, hs, _⟩ := hr.allocate n
    have hLow := hr.size_ge
    have hLow' := hs.size_ge
    simp only [Heap.carve, Journaled.value_bind, hValue]
    exact hOutcome.grows hr.holds.tiles hs.holds.tiles hr.separated
      (by omega) (show 16 ≤ s.size by omega) hSize hLeft

theorem Represents.adjacent (hr : h.Represents bs) :
    bs.IsChain fun b c => c.payload = b.payload + b.size + h.strategy.overhead := by
  cases hr with
  | bare => exact List.isChain_nil
  | implicit hr =>
    refine (List.isChain_map _).mpr (hr.tiles.isChain.imp_of_mem_imp fun c d hc _ hNext => ?_)
    have hSize := Chunk.size_of_wellSized (hr.tiles.wellSized hc)
    show d.offset + 8 = c.offset + 8 + (c.size - 8) + 8
    rw [hNext, Chunk.stop]
    omega
  | explicit hr =>
    refine (List.isChain_map _).mpr (hr.holds.tiles.isChain.imp fun c d hNext => ?_)
    show d.offset + 16 = c.offset + 16 + c.size + 16
    rw [hNext, Chunk.stop, Explicit.overhead_eq]

end Heap

namespace Session

variable {strategy : Strategy} {arena : Arena} {s : Session} {qs : List Request}

/-- After every run, an allocation takes exactly the new block from the arena if no run of free
neighbours is large enough for it and the arena is, and nothing otherwise. -/
theorem allocate_grows_on_need (hRun : (start strategy arena).Run qs s)
    (hReady : s.heap.ready = true) (n : Nat) :
    let bs := s.heap.blockOffsets
    let need := strategy.need n
    let left := s.heap.arena.capacity - s.heap.arena.size
    let answer := (s.heap.allocate n).value.1
    let h := (s.heap.allocate n).value.2
    (bs.IsChain fun b c => c.payload = b.payload + b.size + strategy.overhead) ∧
    (HasRun strategy.overhead need bs →
      answer.isSome = true ∧ h.size = s.heap.size ∧ h.arena.mark = s.heap.arena.mark) ∧
    (¬ HasRun strategy.overhead need bs → need ≤ left →
      answer.isSome = true ∧ h.size = s.heap.size + need ∧
        h.arena.mark = s.heap.arena.mark + need) ∧
    (¬ HasRun strategy.overhead need bs → left < need →
      answer = none ∧ h.size = s.heap.size ∧ h.arena.mark = s.heap.arena.mark) ∧
    (wordLimit ≤ need → ¬ HasRun strategy.overhead need bs ∧ left < need) := by
  intro bs need left answer h
  obtain ⟨_, hs, hStrategy⟩ := (sound_start strategy arena).run hRun
  rw [strategy_start] at hStrategy
  have hr : s.heap.Represents s.heap.blockOffsets :=
    hs.represents.blockOffsets_eq.symm ▸ hs.represents
  obtain ⟨payload, t, cs, hCarve, _, ht, hReady', hEvolves⟩ := hr.carve hReady n
  obtain ⟨hReused, hAppended, hRefused⟩ := hr.carve_grows hReady n
  have hAdjacent := hr.adjacent
  have hFits : HasRun s.heap.strategy.overhead need s.heap.blockOffsets → need ≤ s.heap.size :=
    hr.le_of_hasRun hReady
  rw [hStrategy] at hReused hAppended hRefused hAdjacent hFits
  rw [hCarve] at hReused hAppended hRefused
  have hValue : (s.heap.allocate n).value = (payload.map t.region.address, t) := by
    rw [Heap.value_allocate, Heap.value_prepare_of_ready hReady, if_pos hReady, hCarve]
  have hHeap : h = t := congrArg Prod.snd hValue
  have hAnswer : answer = payload.map t.region.address := congrArg Prod.fst hValue
  have hMark : ∀ k, t.size = s.heap.size + k → t.arena.mark = s.heap.arena.mark + k := by
    intro k hk
    have hOld := (hr.anchored hReady).mark_eq
    have hNew := (ht.anchored hReady').mark_eq
    have hAnchor := (hEvolves.region hReady).anchor_eq
    unfold Heap.size Heap.arena at *
    omega
  rw [hHeap, hAnswer]
  refine ⟨hAdjacent, fun hRun => ?_, fun hNone hLeft => ?_, fun hNone hLeft => ?_, fun hLarge => ?_⟩
  · obtain ⟨hSome, hSize⟩ := hReused hRun
    exact ⟨by simpa using hSome, hSize, hMark 0 hSize⟩
  · obtain ⟨hSome, hSize⟩ := hAppended hNone hLeft
    exact ⟨by simpa using hSome, hSize, hMark need hSize⟩
  · obtain ⟨hNull, hSize⟩ := hRefused hNone hLeft
    exact ⟨by simpa using hNull, hSize, hMark 0 hSize⟩
  · have hSize := (hr.anchored hReady).size_lt
    have hEnd := s.heap.arena.end_lt
    refine ⟨fun hRun => ?_, by omega⟩
    have hLe := hFits hRun
    unfold Heap.size at hLe
    omega

/-- Two free blocks before an allocated one are enough for a request of 48 bytes, which needs the
bytes of both. For 64 bytes the heap grows, and for 4000 the page is too small. -/
theorem allocate_grows_on_need_of_two :
    let s := (((((start .implicit Arena.page).step (.allocate 24)).step (.allocate 24)).step
      (.allocate 8)).step (.free (some 65600))).step (.free (some 65568))
    s.heap.ready = true ∧ HasRun 8 64 s.heap.blockOffsets ∧ ¬ HasRun 8 80 s.heap.blockOffsets ∧
    (s.heap.allocate 48).value.1.isSome = true ∧
    (s.heap.allocate 48).value.2.size = s.heap.size ∧
    (s.heap.allocate 64).value.1.isSome = true ∧
    (s.heap.allocate 64).value.2.size = s.heap.size + 80 ∧
    (s.heap.allocate 4000).value.1 = none ∧
    (s.heap.allocate 4000).value.2.size = s.heap.size := by
  intro s
  let t := (((start .implicit Arena.page).step (.allocate 24)).step (.allocate 24)).step
    (.allocate 8)
  obtain ⟨hSecond, hFirst, hReady, hFits, hNone, hRoom, hNone', hFull⟩ :
      t.Lawful (.free (some 65600)) ∧
      (t.step (.free (some 65600))).Lawful (.free (some 65568)) ∧
      s.heap.ready = true ∧ HasRun 8 64 s.heap.blockOffsets ∧ ¬ HasRun 8 80 s.heap.blockOffsets ∧
      Strategy.implicit.need 64 ≤ s.heap.arena.capacity - s.heap.arena.size ∧
      ¬ HasRun 8 (Strategy.implicit.need 4000) s.heap.blockOffsets ∧
      s.heap.arena.capacity - s.heap.arena.size < Strategy.implicit.need 4000 := by
    decide +kernel
  have hRun : (start .implicit Arena.page).Run [.allocate 24, .allocate 24, .allocate 8,
      .free (some 65600), .free (some 65568)] s :=
    .cons trivial (.cons trivial (.cons trivial (.cons hSecond (.cons hFirst (.nil _)))))
  obtain ⟨hSome, hSize, _⟩ := (allocate_grows_on_need hRun hReady 48).2.1 hFits
  obtain ⟨hSome', hSize', _⟩ := (allocate_grows_on_need hRun hReady 64).2.2.1 hNone hRoom
  obtain ⟨hNull, hSame, _⟩ := (allocate_grows_on_need hRun hReady 4000).2.2.2.1 hNone' hFull
  exact ⟨hReady, hFits, hNone, hSome, hSize, hSome', hSize', hNull, hSame⟩

end Session

end BlockHeap
