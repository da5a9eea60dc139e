import BlockHeap.Proofs.Session.Grants
import BlockHeap.Proofs.Session.Refusal

/-!
# Reallocation

A block is moved by allocating another one, copying the bytes that both have room for, and releasing
it. The heap is then that of the allocation and the release alone: the ledger, which has no bytes on
record, does not see the copy.
-/

namespace BlockHeap

namespace Session

variable {strategy : Strategy} {arena : Arena} {s : Session} {qs : List Request} {n p q : Nat}

theorem step_reallocate_zero (s : Session) (p : Nat) :
    s.step (.reallocate (some p) 0) = s.step (.free (some p)) := by
  have hRun : (Request.reallocate (some p) 0).run s.heap = (Request.free (some p)).run s.heap := rfl
  rw [step_of_run hRun, step_of_run rfl]
  simp [Request.ends]

theorem Sound.reallocate_refused {bs : List Block} (hs : s.Sound bs) (hp : p ∈ s.live) (hn : n ≠ 0)
    (hNone : s.answer (.allocate n) = none) :
    s.step (.reallocate (some p) n) = s.step (.allocate n) ∧ p ∈ (s.step (.allocate n)).live ∧
      (s.step (.allocate n)).heap.usableSize p = s.heap.usableSize p ∧
      ∀ x, p ≤ x → x < p + s.heap.usableSize p →
        (s.step (.allocate n)).heap.memory.byte x = s.heap.memory.byte x := by
  have hRun : (Request.reallocate (some p) n).run s.heap = (none, (s.step (.allocate n)).heap) :=
    Heap.value_reallocate hn (Prod.ext hNone rfl)
  have hHeap : (s.step (.reallocate (some p) n)).heap = (s.step (.allocate n)).heap :=
    (congrArg Prod.snd hRun :)
  have hDemand : (Request.reallocate (some p) n).demand? = some n := if_neg hn
  have hLive := live_step_of_refused hDemand (congrArg Prod.fst hRun)
  have hLive' := live_step_of_refused (q := .allocate n) rfl hNone
  obtain ⟨hKept, hUsable, hBytes⟩ := hs.step_kept (q := .allocate n) trivial hp rfl
  refine ⟨?_, hKept, hUsable, fun x hLow hHigh => hBytes x hLow hHigh rfl⟩
  exact Session.mk.injEq _ _ _ _ ▸ ⟨hHeap, hLive.trans hLive'.symm⟩

/-- The heap that a block has been moved in, and the one that it has been released in after another
one was allocated, have the same ledger. -/
theorem Simulated.reallocate {l : Ledger} (h : s.Simulated l) (hp : p ∈ s.live) (hn : n ≠ 0)
    (hAnswer : s.answer (.allocate n) = some q) :
    let t := s.step (.reallocate (some p) n)
    let u := (s.step (.allocate n)).step (.free (some p))
    t.heap.blocks = u.heap.blocks ∧ t.heap.size = u.heap.size ∧
      t.heap.arena.mark = u.heap.arena.mark ∧
      (s.heap.strategy = .explicit → Explicit.freeList.newestFirst t.heap.region =
        Explicit.freeList.newestFirst u.heap.region) := by
  intro t u
  obtain ⟨hSame, hNext⟩ := h.step (q := .allocate n) trivial
  obtain ⟨hKept, _⟩ := h.sound.step_kept (q := .allocate n) trivial hp rfl
  obtain ⟨_, hFreed⟩ := hNext.step (q := .free (some p)) hKept
  obtain ⟨_, hMoved⟩ := h.step (q := .reallocate (some p) n) hp
  have hGrant : (l.allocate n).1 = some q := hSame.symm.trans hAnswer
  rw [Ledger.serve_reallocate hn, hGrant] at hMoved
  obtain ⟨_, _, hStrategy⟩ := h.sound.step (q := .reallocate (some p) n) hp
  have hReady : t.heap.ready = true := by
    have hGranted := (s.answer_reallocate p hn).trans hAnswer
    have hLive := (h.sound.reallocate_granted hp hn hGranted).1
    obtain ⟨b, hb, _⟩ := hMoved.sound.exists_of_mem (hLive.symm ▸ List.mem_cons_self)
    exact hMoved.sound.represents.ready_of_mem (List.mem_of_mem_filter hb)
  obtain ⟨hBlocks, hSize, hMark, hNewest⟩ := hMoved.describes.agree hFreed.describes hReady
  exact ⟨hBlocks.symm, hSize.symm, hMark.symm, fun hExplicit =>
    (hNewest (hStrategy.trans hExplicit)).symm⟩

/-- After every run, to reallocate a live block to no bytes is to free it; to any other size is to
allocate, and if that is granted, to copy what both have room for and to free the old block. What is
then allocated on the heap is what is live. -/
theorem reallocate_moves (hRun : (start strategy arena).Run qs s) (n : Nat) :
    (s.step (.reallocate none n) = s.step (.allocate n) ∧
      s.answer (.reallocate none n) = s.answer (.allocate n)) ∧
    ∀ p ∈ s.live,
      (s.step (.reallocate (some p) 0) = s.step (.free (some p)) ∧
        s.answer (.reallocate (some p) 0) = none ∧
        (s.step (.free (some p))).live = s.live.filter (fun other => !(other == p)) ∧
        (s.step (.free (some p))).live.Perm
          ((held (s.step (.free (some p))).heap.blocks).map Block.payload)) ∧
      (n ≠ 0 →
        let t := s.step (.reallocate (some p) n)
        let u := (s.step (.allocate n)).step (.free (some p))
        s.answer (.reallocate (some p) n) = s.answer (.allocate n) ∧
        (s.answer (.allocate n) = none →
          t = s.step (.allocate n) ∧ p ∈ t.live ∧ t.heap.usableSize p = s.heap.usableSize p ∧
          ∀ x, p ≤ x → x < p + s.heap.usableSize p →
            t.heap.memory.byte x = s.heap.memory.byte x) ∧
        ∀ q, s.answer (.allocate n) = some q →
          q ∉ s.live ∧ t.live = q :: s.live.filter (fun other => !(other == p)) ∧
          t.live.Perm ((held t.heap.blocks).map Block.payload) ∧
          n ≤ t.heap.usableSize q ∧
          (∀ i < min (s.heap.usableSize p) n,
            t.heap.memory.byte (q + i) = s.heap.memory.byte (p + i)) ∧
          t.heap.blocks = u.heap.blocks ∧ t.heap.size = u.heap.size ∧
          t.heap.arena.mark = u.heap.arena.mark ∧
          (strategy = .explicit → Explicit.freeList.newestFirst t.heap.region =
            Explicit.freeList.newestFirst u.heap.region)) := by
  obtain ⟨_, hSim⟩ := (simulated_start strategy arena).run hRun
  obtain ⟨_, hs, hStrategy⟩ := (sound_start strategy arena).run hRun
  rw [strategy_start] at hStrategy
  refine ⟨⟨rfl, rfl⟩, fun p hp => ⟨?_, fun hn => ?_⟩⟩
  · obtain ⟨_, hFreed, _⟩ := hs.step (q := .free (some p)) hp
    exact ⟨s.step_reallocate_zero p, rfl, s.live_step_free p, hFreed.live_perm_blocks⟩
  intro t u
  refine ⟨s.answer_reallocate p hn, fun hNone => ?_, fun q hAnswer => ?_⟩
  · obtain ⟨hStep, hKept⟩ := hs.reallocate_refused hp hn hNone
    have hEq : t = s.step (.allocate n) := hStep
    rw [hEq]
    exact ⟨rfl, hKept⟩
  · have hGranted := (s.answer_reallocate p hn).trans hAnswer
    obtain ⟨hMoved, hEnough, hCopied⟩ := hs.reallocate_granted hp hn hGranted
    obtain ⟨_, hNext, _⟩ := hs.step (q := .reallocate (some p) n) hp
    obtain ⟨hBlocks, hSize, hMark, hNewest⟩ := hSim.reallocate hp hn hAnswer
    exact ⟨(hs.allocate_granted hAnswer).1, hMoved, hNext.live_perm_blocks, hEnough, hCopied,
      hBlocks, hSize, hMark, fun hExplicit => hNewest (hStrategy.trans hExplicit)⟩

theorem reallocate_moves_of_one :
    let s := ((start .explicit Arena.page).step (.allocate 24)).step (.write 65600 [1, 2, 3])
    let t := s.step (.reallocate (some 65600) 40)
    s.answer (.reallocate (some 65600) 40) = some 65648 ∧ t.live = [65648] ∧
    (held t.heap.blocks).map Block.payload = [65648] ∧ t.heap.memory.byte 65650 = 3 ∧
    t.heap.blocks = ((s.step (.allocate 40)).step (.free (some 65600))).heap.blocks ∧
    s.step (.reallocate (some 65600) 0) = s.step (.free (some 65600)) := by
  intro s t
  have hStart := simulated_start .explicit Arena.page
  have hFirst : (start .explicit Arena.page).answer (.allocate 24) = some 65600 :=
    (hStart.step (q := .allocate 24) trivial).1.trans (by decide)
  obtain ⟨_, hLive, hEnough⟩ := hStart.sound.allocate_granted hFirst
  obtain ⟨_, hr⟩ := hStart.step (q := .allocate 24) trivial
  have hp : 65600 ∈ ((start .explicit Arena.page).step (.allocate 24)).live :=
    hLive ▸ List.mem_cons_self
  have hWrite : ((start .explicit Arena.page).step (.allocate 24)).Lawful
      (.write 65600 [1, 2, 3]) :=
    ⟨65600, hp, le_rfl, Nat.add_le_add_left ((by decide : 3 ≤ 24).trans hEnough) _⟩
  have hRun : (start .explicit Arena.page).Run [.allocate 24, .write 65600 [1, 2, 3]] s :=
    .cons trivial (.cons hWrite (.nil _))
  obtain ⟨hp', hUsable, _⟩ := hr.sound.step_kept hWrite hp rfl
  have hSecond : s.answer (.allocate 40) = some 65648 :=
    ((hr.step hWrite).2.step (q := .allocate 40) trivial).1.trans (by decide)
  obtain ⟨hZero, hMoves⟩ := (reallocate_moves hRun 40).2 65600 hp'
  obtain ⟨hAnswer, _, hMoved⟩ := hMoves (by decide)
  obtain ⟨_, hTaken, hPerm, _, hCopied, hBlocks, _⟩ := hMoved 65648 hSecond
  have hLive' : t.live = [65648] := by
    refine hTaken.trans ?_
    show 65648 :: (((start .explicit Arena.page).step (.allocate 24)).live.filter _).filter _ = _
    rw [hLive]
    rfl
  rw [hLive'] at hPerm
  refine ⟨hAnswer.trans hSecond, hLive', (List.singleton_perm.mp hPerm).symm, ?_, hBlocks, hZero.1⟩
  · rw [hCopied 2 (by rw [hUsable]; omega)]
    exact (Memory.byte_write _ _ _ _).trans rfl

end Session

end BlockHeap
