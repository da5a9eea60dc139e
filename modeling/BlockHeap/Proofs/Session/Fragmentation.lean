import BlockHeap.Proofs.Session.Reallocation

/-!
# Fragmentation inside blocks

How much larger than its request a block may be. Sizes are multiples of 16, so a block for which a
free one is taken is the size of the request rounded up, or else all of the free block; this happens
when what would be left of it has no room for its own overhead and 16 bytes. Nothing changes the
size of a block from then on, as long as it is held.
-/

namespace BlockHeap

/-- `k` bytes may be used of a new block for `n` bytes. An explicit heap adds 16 to them when it
takes a free block that is not worth splitting, so not if the block is `fresh`. -/
def Strategy.Allots (n : Nat) (fresh : Prop) (k : Nat) : Strategy → Prop
  | .implicit => k = (n + 8 + 15) / 16 * 16 - 8
  | .explicit =>
    let least := max ((n + 15) / 16 * 16) 16
    (k = least ∨ k = least + 16) ∧ (fresh → k = least)

variable {gap k n need left size payload : Nat} {strategy : Strategy} {fresh fresh' : Prop}
  {c : Chunk} {cs ds : List Chunk} {ns ms : List Nat}

theorem Strategy.Allots.le (h : strategy.Allots n fresh k) : n ≤ k ∧ 8 ≤ k := by
  cases strategy with
  | implicit =>
    rw [Allots] at h
    omega
  | explicit =>
    obtain ⟨hEither, _⟩ := h
    omega

theorem Strategy.Allots.mono (h : strategy.Allots n fresh k) (hImp : fresh' → fresh) :
    strategy.Allots n fresh' k := by
  cases strategy with
  | implicit => exact h
  | explicit => exact ⟨h.1, fun hFresh => h.2 (hImp hFresh)⟩

theorem Chunk.exists_mem_carve (gap : Nat) (hGap : gap % 16 = 0) (hNeed : need % 16 = 0)
    (hc : c.size % 16 = 0) (hLe : need ≤ c.size) : ∃ d ∈ carve gap need c, d.allocated = true ∧
      d.offset = c.offset ∧ d.size % 16 = 0 ∧ need ≤ d.size ∧ d.size ≤ need + gap := by
  rw [carve]
  split
  · next hSmall =>
    have hHigh : c.size ≤ need + gap := by omega
    exact ⟨_, List.mem_singleton_self _, rfl, rfl, hc, hLe, hHigh⟩
  · exact ⟨_, List.mem_cons_self, rfl, rfl, hNeed, le_rfl, Nat.le_add_right _ _⟩

theorem Implicit.Outcome.exists_granted (h : Outcome n left size cs (some payload) ds)
    (hTiles : Chunk.Tiles 0 start cs size) : ∃ d ∈ ds, d.allocated = true ∧
      (block d).payload = payload ∧ d.size = (n + 8 + 15) / 16 * 16 := by
  cases h with
  | @reused need xs c ys hRequired hSplit _ hFits =>
    have hMerged := hTiles.mergeRuns (by decide)
    rw [hSplit] at hMerged
    have hSize := Chunk.size_of_wellSized (hMerged.wellSized (c := c) (by simp))
    obtain ⟨d, hd, hFlag, hOffset, _, hLow, hHigh⟩ := Chunk.exists_mem_carve 0 (by decide)
      (required?_pos hRequired).2 hSize.2 (Chunk.fits_iff.mp hFits).2
    refine ⟨d, by simp [hd], hFlag, congrArg (· + wordSize) hOffset, ?_⟩
    rw [(required?_eq_some_iff.mp hRequired).1]
    omega
  | @appended need hRequired _ _ =>
    obtain ⟨rfl, _⟩ := required?_eq_some_iff.mp hRequired
    exact ⟨_, List.mem_append_right _ (List.mem_singleton_self _), rfl, rfl, rfl⟩

/-- An explicit heap hands out as many bytes as are needed, or 16 more, and these only if some free
block is large enough. -/
theorem Explicit.Outcome.exists_granted (h : Outcome n left size cs ns (some payload) ds ms)
    {e : Nat} (hTiles : Chunk.Tiles overhead prologue cs e) (hLow : 16 ≤ size) :
    ∃ d ∈ ds, d.allocated = true ∧ (block d).payload = payload ∧
      Strategy.explicit.Allots n (∀ f ∈ cs, f.fits (max ((n + 15) / 16 * 16) 16) = false)
        d.size := by
  cases h with
  | @reused need xs ys c older newer hRequired hSplit _ hFits _ =>
    subst hSplit
    have hSize := Chunk.size_of_wellSized (hTiles.wellSized (c := c) (by simp))
    have hMod := (required?_pos hRequired).2
    obtain ⟨d, hd, hFlag, hOffset, hMod', hLow, hHigh⟩ := Chunk.exists_mem_carve
      overhead (by decide) hMod hSize.2 (Chunk.fits_iff.mp hFits).2
    obtain ⟨rfl, _⟩ := required?_eq_some_iff.mp hRequired
    rw [overhead_eq] at hHigh
    refine ⟨d, by simp [hd], hFlag, congrArg Explicit.payload hOffset, by omega, fun hNone => ?_⟩
    exact Bool.noConfusion ((hNone c (by simp)).symm.trans hFits)
  | @appended need hRequired _ _ =>
    obtain ⟨rfl, _⟩ := required?_eq_some_iff.mp hRequired
    refine ⟨_, List.mem_append_right _ (List.mem_singleton_self _), rfl, ?_, .inl rfl,
      fun _ => rfl⟩
    exact Nat.sub_add_cancel hLow

namespace Heap

variable {h s : Heap} {bs : List Block}

theorem Represents.carve_allots (hr : h.Represents bs) (hReady : h.ready = true)
    (hCarve : (h.carve n).value = (some payload, s)) :
    h.strategy.Allots n (¬ HasRun h.strategy.overhead (h.strategy.need n) bs)
      (s.usableSize (s.region.address payload)) := by
  cases hr with
  | bare => cases hReady
  | @implicit span region cs hr =>
    obtain ⟨answer, t, ds, hValue, hOutcome, ht, _⟩ := hr.allocate n
    simp only [Heap.carve, Journaled.value_bind, hValue] at hCarve
    obtain ⟨rfl, rfl⟩ := Prod.mk.inj hCarve
    obtain ⟨d, hd, _, rfl, hSize⟩ := hOutcome.exists_granted hr.tiles
    have hUsable := (Represents.implicit ht).usableSize_eq (List.mem_map_of_mem hd)
    exact hUsable.trans (congrArg (· - 8) hSize)
  | @explicit region cs ns hr =>
    obtain ⟨answer, t, ds, ms, hValue, hOutcome, ht, _⟩ := hr.allocate n
    simp only [Heap.carve, Journaled.value_bind, hValue] at hCarve
    obtain ⟨rfl, rfl⟩ := Prod.mk.inj hCarve
    have hLow := hr.size_ge
    obtain ⟨d, hd, _, rfl, hAllots⟩ := hOutcome.exists_granted hr.holds.tiles (by omega)
    rw [(Represents.explicit ht).usableSize_eq (List.mem_map_of_mem hd)]
    refine hAllots.mono fun hNone c hc => Bool.eq_false_iff.mpr fun hFits => hNone ?_
    exact (Explicit.hasRun_iff hr.separated).mpr ⟨c, hc, hFits⟩

theorem not_hasRun_nil (overhead need : Nat) : ¬ HasRun overhead need [] := by
  rintro ⟨run, hRun, _⟩
  cases hRun

theorem Represents.allocate_allots (hr : h.Represents bs) {p : Nat}
    (hValue : (h.allocate n).value = (some p, s)) :
    h.strategy.Allots n (s.arena.mark ≠ h.arena.mark) (s.usableSize p) := by
  obtain ⟨hPrepared, hEvolves⟩ := hr.prepare
  rw [value_allocate] at hValue
  cases hReady : h.prepare.value.ready with
  | false =>
    rw [hReady] at hValue
    cases hValue
  | true =>
    obtain ⟨answer, t, cs, hCarve, _, ht, hReady', hEvolves'⟩ := hPrepared.carve hReady n
    rw [if_pos hReady, hCarve] at hValue
    obtain ⟨hAnswer, rfl⟩ := Prod.mk.inj hValue
    obtain ⟨payload, rfl, rfl⟩ := Option.map_eq_some_iff.mp hAnswer
    have hAllots := hPrepared.carve_allots hReady hCarve
    rw [hEvolves.strategy_eq] at hAllots
    refine hAllots.mono fun hGrew hRun => ?_
    cases hOld : h.ready with
    | false =>
      cases hr with
      | bare => exact not_hasRun_nil _ _ hRun
      | implicit _ => cases hOld
      | explicit _ => cases hOld
    | true =>
      rw [value_prepare_of_ready hOld] at hCarve hEvolves'
      have hGrows := hr.carve_grows hOld n
      rw [hCarve] at hGrows
      have hAnchor := (hEvolves'.region hOld).anchor_eq
      exact hGrew (((hr.anchored hOld).size_eq_iff (ht.anchored hReady') hAnchor).mp
        (hGrows.reused hRun).2)

end Heap

namespace Session

variable {arena : Arena} {s t u : Session} {q : Request} {qs rs : List Request} {bs : List Block}
  {l : Ledger} {m p source : Nat}

theorem Sound.exists_mem_blocks (hs : s.Sound bs) (hp : p ∈ s.live) :
    ∃ b ∈ s.heap.blocks, b.payload = p := by
  obtain ⟨b, hb, rfl⟩ := hs.exists_of_mem hp
  refine ⟨{ b with payload := s.heap.region.address b.payload }, ?_, rfl⟩
  rw [Heap.blocks, hs.represents.blockOffsets_eq]
  exact List.mem_map_of_mem (List.mem_of_mem_filter hb)

theorem Sound.allocate_allots (hs : s.Sound bs) (hAnswer : s.answer (.allocate n) = some p) :
    s.heap.strategy.Allots n ((s.step (.allocate n)).heap.arena.mark ≠ s.heap.arena.mark)
      ((s.step (.allocate n)).heap.usableSize p) :=
  hs.represents.allocate_allots (run_allocate hAnswer)

theorem Sound.zeroAllocate_allots (hs : s.Sound bs)
    (hGranted : s.answer (.zeroAllocate m n) = some p) :
    s.heap.strategy.Allots (m * n)
      ((s.step (.zeroAllocate m n)).heap.arena.mark ≠ s.heap.arena.mark)
      ((s.step (.zeroAllocate m n)).heap.usableSize p) := by
  obtain ⟨hLt, hAnswer⟩ := answer_zeroAllocate hGranted
  obtain ⟨_, hLive, hEnough⟩ := hs.allocate_granted hAnswer
  obtain ⟨cs, ht, _⟩ := hs.step (q := .allocate (m * n)) trivial
  have hp : p ∈ (s.step (.allocate (m * n))).live := hLive ▸ List.mem_cons_self
  obtain ⟨_, hUsable⟩ := ht.mapMemory (f := (·.fill p (m * n) 0)) hp hEnough
    (Memory.agree_fill _ _ _ _)
  rw [step_zeroAllocate hLt hAnswer, hUsable p hp]
  exact hs.allocate_allots hAnswer

theorem Simulated.mark_step_free (h : s.Simulated l) (hp : p ∈ s.live) :
    (s.step (.free (some p))).heap.arena.mark = s.heap.arena.mark :=
  (h.step (q := .free (some p)) hp).2.describes.mark_eq.symm.trans h.describes.mark_eq

theorem Simulated.reallocate_allots (h : s.Simulated l) (hSource : source ∈ s.live) (hn : n ≠ 0)
    (hGranted : s.answer (.reallocate (some source) n) = some p) :
    s.heap.strategy.Allots n
      ((s.step (.reallocate (some source) n)).heap.arena.mark ≠ s.heap.arena.mark)
      ((s.step (.reallocate (some source) n)).heap.usableSize p) := by
  have hAnswer := (s.answer_reallocate source hn).symm.trans hGranted
  obtain ⟨hNew, hLive, _⟩ := h.sound.allocate_granted hAnswer
  obtain ⟨_, hNext⟩ := h.step (q := .allocate n) trivial
  obtain ⟨hKept, _⟩ := h.sound.step_kept (q := .allocate n) trivial hSource rfl
  have hp : p ∈ (s.step (.allocate n)).live := hLive ▸ List.mem_cons_self
  have hOther : p ≠ source := fun hEq => hNew (hEq ▸ hSource)
  obtain ⟨_, hUsable, _⟩ := hNext.sound.step_kept (q := .free (some source)) hKept hp (by
    simpa [Request.ends] using hOther)
  obtain ⟨hBlocks, _, hMark, _⟩ := h.reallocate hSource hn hAnswer
  obtain ⟨cs, ht, _⟩ := h.sound.step (q := .reallocate (some source) n) hSource
  obtain ⟨ds, hu, _⟩ := hNext.sound.step (q := .free (some source)) hKept
  have hMoved := (h.sound.reallocate_granted hSource hn hGranted).1
  obtain ⟨b, hb, rfl⟩ := ht.exists_mem_blocks (hMoved ▸ List.mem_cons_self)
  rw [hMark, hNext.mark_step_free hKept, ht.represents.usableSize_of_mem_blocks hb,
    ← hu.represents.usableSize_of_mem_blocks (hBlocks ▸ hb), hUsable]
  exact h.sound.allocate_allots hAnswer

theorem Simulated.allots (h : s.Simulated l) (hLawful : s.Lawful q)
    (hAnswer : s.answer q = some p) : ∃ n, q.demand? = some n ∧
      s.heap.strategy.Allots n ((s.step q).heap.arena.mark ≠ s.heap.arena.mark)
        ((s.step q).heap.usableSize p) := by
  cases q with
  | layOut => cases hAnswer
  | allocate n => exact ⟨n, rfl, h.sound.allocate_allots hAnswer⟩
  | zeroAllocate m n => exact ⟨m * n, rfl, h.sound.zeroAllocate_allots hAnswer⟩
  | free pointer => cases hAnswer
  | reallocate source n =>
    cases source with
    | none => exact ⟨n, rfl, h.sound.allocate_allots hAnswer⟩
    | some source =>
      cases n with
      | zero => cases hAnswer
      | succ n => exact ⟨n + 1, rfl, h.reallocate_allots hLawful n.succ_ne_zero hAnswer⟩
  | write a bytes => cases hAnswer

/-- The pointer `p` lives on through these requests. -/
def Retains (p : Nat) : Session → List Request → Prop
  | _, [] => True
  | s, q :: qs => q.ends (s.answer q) p = false ∧ Retains p (s.step q) qs

theorem Sound.run_retained (hs : s.Sound bs) (hRun : s.Run rs u) (hp : p ∈ s.live)
    (hRetains : Retains p s rs) : p ∈ u.live ∧ u.heap.usableSize p = s.heap.usableSize p := by
  induction hRun generalizing bs with
  | nil s => exact ⟨hp, rfl⟩
  | @cons s t q qs hLawful _ ih =>
    obtain ⟨hEnds, hRest⟩ := hRetains
    obtain ⟨cs, hStep, _⟩ := hs.step hLawful
    obtain ⟨hLive, hUsable, _⟩ := hs.step_kept hLawful hp hEnds
    obtain ⟨hLast, hEq⟩ := ih hStep hLive hRest
    exact ⟨hLast, hEq.trans hUsable⟩

/-- Whenever a pointer is answered, its usable size is the number of bytes that were asked for,
rounded up as the strategy does, and stays as it is for as long as the pointer lives. -/
theorem usableSize_of_granted (hRun : (start strategy arena).Run qs s) (hLawful : s.Lawful q)
    (hAnswer : s.answer q = some p) :
    let t := s.step q
    ∃ n, q.demand? = some n ∧ p ∈ t.live ∧
      strategy.Allots n (t.heap.arena.mark ≠ s.heap.arena.mark) (t.heap.usableSize p) ∧
      n ≤ t.heap.usableSize p ∧ 8 ≤ t.heap.usableSize p ∧
      ∀ rs u, t.Run rs u → Retains p t rs →
        p ∈ u.live ∧ u.heap.usableSize p = t.heap.usableSize p := by
  intro t
  obtain ⟨_, hs⟩ := (simulated_start strategy arena).run hRun
  obtain ⟨_, _, hStrategy⟩ := (sound_start strategy arena).run hRun
  obtain ⟨n, hDemand, hAllots⟩ := hs.allots hLawful hAnswer
  rw [hStrategy, strategy_start] at hAllots
  have hLive : p ∈ t.live := by
    refine List.mem_append_left _ ?_
    rw [hAnswer]
    exact List.mem_singleton_self p
  obtain ⟨hEnough, hLeast⟩ := hAllots.le
  exact ⟨n, hDemand, hLive, hAllots, hEnough, hLeast, fun rs u hRest hRetains =>
    (hs.step hLawful).2.sound.run_retained hRest hLive hRetains⟩

/-- A free block of 48 bytes serves a request for 24 as a whole: without the 32 that are needed,
what is left is as large as the overhead alone. It stays as it is when its neighbour is freed. -/
theorem usableSize_of_granted_of_whole :
    let s := (((start .explicit Arena.page).step (.allocate 48)).step (.allocate 8)).step
      (.free (some 65600))
    let t := s.step (.allocate 24)
    let u := t.step (.free (some 65664))
    s.answer (.allocate 24) = some 65600 ∧ t.heap.usableSize 65600 = 48 ∧
      u.heap.usableSize 65600 = 48 := by
  intro s t u
  let r := ((start .explicit Arena.page).step (.allocate 48)).step (.allocate 8)
  have hStart : (start .explicit Arena.page).Run [.allocate 48, .allocate 8] r :=
    .cons trivial (.cons trivial (.nil r))
  have hLive : r.live = [65664, 65600] := by
    rw [hStart.live_eq, ((simulated_start _ _).run hStart).1]
    decide
  have hFirst : r.Lawful (.free (some 65600)) := by simp [Lawful, hLive]
  have hRun : (start .explicit Arena.page).Run [.allocate 48, .allocate 8, .free (some 65600)] s :=
    .cons trivial (.cons trivial (.cons hFirst (.nil s)))
  have hs := ((simulated_start _ _).run hRun).2
  have hAllocate : s.Lawful (.allocate 24) := trivial
  obtain ⟨hSame, ht⟩ := hs.step hAllocate
  have hAnswer : s.answer (.allocate 24) = some 65600 := hSame.trans (by decide)
  have hBlocks : t.heap.blocks = [⟨65600, 48, true⟩, ⟨65664, 16, true⟩] := by
    have hLedger : (((Ledger.start .explicit Arena.page).after [.allocate 48, .allocate 8,
        .free (some 65600)]).serve (.allocate 24)).2.heap = some (65552, .explicit
          ⟨[⟨48, true⟩, ⟨16, true⟩], []⟩) := by decide
    have hRecorded := ht.describes.recorded
    rw [hLedger] at hRecorded
    exact hRecorded.blocks_eq
  have hMem : (⟨65600, 48, true⟩ : Block) ∈ t.heap.blocks := by simp [hBlocks]
  have hUsable := ht.sound.represents.usableSize_of_mem_blocks hMem
  have hOther : 65664 ∈ t.live := by
    have hLeft : s.live = [65664] := by
      change (r.step (.free (some 65600))).live = [65664]
      rw [live_step_free, hLive]
      rfl
    rw [(hs.sound.allocate_granted hAnswer).2.1, hLeft]
    decide
  have hRest : t.Run [.free (some 65664)] u := .cons hOther (.nil u)
  obtain ⟨n, _, _, _, _, _, hKept⟩ := usableSize_of_granted hRun hAllocate hAnswer
  exact ⟨hAnswer, hUsable, (hKept _ u hRest ⟨rfl, trivial⟩).2.trans hUsable⟩

end Session

end BlockHeap
