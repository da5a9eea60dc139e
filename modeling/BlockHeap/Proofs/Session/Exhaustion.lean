import BlockHeap.Proofs.Session.Refinement

/-!
# Exhausted arenas

A heap that could not be laid out anew is left without a layout, and is from then on as good as a
heap that nothing has been asked of: the two answer all requests alike. What tells them apart is the
size that is on record of an earlier region, which is forgotten only once a new one is anchored.
-/

namespace BlockHeap

def Arena.scrap : Arena :=
  { Arena.page with capacity := 9, size := 0, end_lt := by decide, size_le := by decide }

namespace Heap

/-- Heaps that are the same, or else have no layout, and differ in nothing but the regions that are
left of earlier layouts. These have the sizes `m` and `n`. -/
inductive Alike (m n : Nat) : Heap → Heap → Prop where
  | same (h : Heap) : Alike m n h h
  | bare {engine : Engine} {r s : Region} : r.arena = s.arena → r.size = m → s.size = n →
      Alike m n ⟨engine, r, false⟩ ⟨engine, s, false⟩

variable {h s : Heap} {k m n : Nat}

theorem layOut_congr (strategy : Strategy) {r s : Region} (h : r.arena = s.arena) :
    Region.SameOrLeft r s
      (match strategy with | .implicit => Implicit.layOut r | .explicit => Explicit.layOut r).value
      (match strategy with
        | .implicit => Implicit.layOut s
        | .explicit => Explicit.layOut s).value := by
  cases strategy with
  | implicit => exact Implicit.layOut_congr h
  | explicit => exact Explicit.layOut_congr h

theorem Alike.layOut (h' : Alike m n h s) :
    h.layOut.value.1 = s.layOut.value.1 ∧ Alike m n h.layOut.value.2 s.layOut.value.2 := by
  cases h' with
  | same => exact ⟨rfl, .same _⟩
  | @bare engine r s hArena hr hs =>
    rcases layOut_congr engine.strategy hArena with hSame | ⟨a, hLeft, hLeft'⟩
    · cases hDone : (match engine.strategy with
        | .implicit => Implicit.layOut s
        | .explicit => Explicit.layOut s).value with
      | mk done t =>
        rw [value_layOut ⟨engine, r, false⟩ (hSame.trans hDone),
          value_layOut ⟨engine, s, false⟩ hDone]
        exact ⟨rfl, .same _⟩
    · rw [value_layOut ⟨engine, r, false⟩ hLeft, value_layOut ⟨engine, s, false⟩ hLeft']
      exact ⟨rfl, .bare rfl hr hs⟩

theorem alike_new {strategy : Strategy} (hEngine : h.engine = Engine.new strategy)
    (hReady : h.ready = false) : Alike h.size 0 h (new h.arena strategy) := by
  obtain ⟨engine, region, ready⟩ := h
  obtain rfl : engine = Engine.new strategy := hEngine
  obtain rfl : ready = false := hReady
  exact .bare rfl rfl rfl

theorem Alike.symm (h' : Alike m n h s) : Alike n m s h := by
  cases h' with
  | same => exact .same _
  | bare hArena hm hn => exact .bare hArena.symm hn hm

theorem Alike.ready_eq (h' : Alike m n h s) : h.ready = s.ready := by
  cases h' with
  | same => rfl
  | bare _ _ _ => rfl

theorem Alike.prepare (h' : Alike m n h s) : Alike m n h.prepare.value s.prepare.value := by
  unfold Heap.prepare
  rw [h'.ready_eq]
  cases s.ready with
  | true => exact h'
  | false => exact h'.layOut.2

theorem Alike.shown (h' : Alike m n h s) : h.strategy = s.strategy ∧ h.ready = s.ready ∧
    h.arena = s.arena ∧ h.blocks = s.blocks ∧ h.statistics = s.statistics ∧
    h.check.value = s.check.value ∧ h.layOut.value.1 = s.layOut.value.1 ∧
    (h.size = s.size ∨ h.ready = false ∧ h.size = m ∧ s.size = n) := by
  have hLayOut := h'.layOut.1
  cases h' with
  | same => exact ⟨rfl, rfl, rfl, rfl, rfl, rfl, rfl, .inl rfl⟩
  | bare hArena hm hn => exact ⟨rfl, rfl, hArena, rfl, rfl, rfl, hLayOut, .inr ⟨rfl, hm, hn⟩⟩

/-- Bytes are granted only by heaps that are the same. -/
theorem Alike.allocate (h' : Alike m n h s) (k : Nat) :
    (h.allocate k).value = (s.allocate k).value ∨ ∃ t u, (h.allocate k).value = (none, t) ∧
      (s.allocate k).value = (none, u) ∧ Alike m n t u := by
  have hPrepared := h'.prepare
  rw [value_allocate, value_allocate]
  generalize h.prepare.value = t at hPrepared ⊢
  generalize s.prepare.value = u at hPrepared ⊢
  cases hPrepared with
  | same => exact .inl rfl
  | bare hArena hr hs => exact .inr ⟨_, _, rfl, rfl, .bare hArena hr hs⟩

theorem Alike.zeroAllocate (h' : Alike m n h s) (count k : Nat) :
    (h.zeroAllocate count k).value.1 = (s.zeroAllocate count k).value.1 ∧
      Alike m n (h.zeroAllocate count k).value.2 (s.zeroAllocate count k).value.2 := by
  rcases Nat.lt_or_ge (count * k) wordLimit with hLt | hLimit
  · rcases h'.allocate (count * k) with hSame | ⟨t, u, ht, hu, hAlike⟩
    · rw [value_zeroAllocate hLt hSame, value_zeroAllocate hLt rfl]
      exact ⟨rfl, .same _⟩
    · rw [value_zeroAllocate hLt ht, value_zeroAllocate hLt hu]
      exact ⟨rfl, hAlike⟩
  · rw [value_zeroAllocate_of_le hLimit, value_zeroAllocate_of_le hLimit]
    exact ⟨rfl, h'⟩

end Heap

namespace Session

structure Alike (m n : Nat) (s t : Session) : Prop where
  live_eq : s.live = t.live
  heap : s.heap.Alike m n t.heap

variable {strategy : Strategy} {arena : Arena} {s t u : Session} {q : Request}
  {qs rs : List Request} {bs : List Block} {m n : Nat}

theorem Sound.live_eq_nil (hs : s.Sound bs) (hReady : s.heap.ready = false) : s.live = [] := by
  refine List.eq_nil_iff_forall_not_mem.mpr fun p hp => ?_
  obtain ⟨b, hb, _⟩ := hs.exists_of_mem hp
  have hReady' := hs.represents.ready_of_mem (List.mem_of_mem_filter hb)
  exact Bool.noConfusion (hReady.symm.trans hReady')

theorem Alike.symm (h : s.Alike m n t) : t.Alike n m s := ⟨h.live_eq.symm, h.heap.symm⟩

theorem Lawful.run_alike {h h' : Heap} (hLawful : Lawful ⟨h, []⟩ q) (hAlike : h.Alike m n h') :
    Lawful ⟨h', []⟩ q ∧ (q.run h).1 = (q.run h').1 ∧ Heap.Alike m n (q.run h).2 (q.run h').2 := by
  have hAllocate : ∀ k, (h.allocate k).value.1 = (h'.allocate k).value.1 ∧
      Heap.Alike m n (h.allocate k).value.2 (h'.allocate k).value.2 := by
    intro k
    rcases hAlike.allocate k with hSame | ⟨t, u, ht, hu, hAlike'⟩
    · rw [hSame]
      exact ⟨rfl, .same _⟩
    · rw [ht, hu]
      exact ⟨rfl, hAlike'⟩
  cases q with
  | layOut => exact ⟨trivial, rfl, hAlike.layOut.2⟩
  | allocate k => exact ⟨trivial, hAllocate k⟩
  | zeroAllocate count k => exact ⟨trivial, hAlike.zeroAllocate count k⟩
  | free pointer =>
    cases pointer with
    | none => exact ⟨trivial, rfl, hAlike⟩
    | some p => cases hLawful
  | reallocate pointer k =>
    cases pointer with
    | none => exact ⟨trivial, hAllocate k⟩
    | some p => cases hLawful
  | write a bytes =>
    obtain ⟨p, hp, _⟩ := hLawful
    cases hp

theorem Alike.step (h : s.Alike m n t) (hs : s.Sound bs) (hLawful : s.Lawful q) :
    t.Lawful q ∧ s.answer q = t.answer q ∧ (s.step q).Alike m n (t.step q) := by
  obtain ⟨heap, live⟩ := s
  obtain ⟨heap', live'⟩ := t
  obtain ⟨rfl : live = live', hHeap⟩ := h
  cases hHeap with
  | same => exact ⟨hLawful, rfl, rfl, .same _⟩
  | bare hArena hr hu =>
    obtain rfl : live = [] := hs.live_eq_nil rfl
    obtain ⟨hLawful', hAnswer, hAlike⟩ := hLawful.run_alike (.bare hArena hr hu)
    refine ⟨hLawful', hAnswer, ?_, hAlike⟩
    simp only [Session.step, Session.answer, hAnswer]

theorem Alike.run (h : s.Alike m n t) (hs : s.Sound bs) (hRun : s.Run rs u) :
    ∃ v, t.Run rs v ∧ s.answers rs = t.answers rs ∧ u.Alike m n v := by
  induction hRun generalizing t bs with
  | nil s => exact ⟨t, .nil t, rfl, h⟩
  | cons hLawful _ ih =>
    obtain ⟨hLawful', hAnswer, hNext⟩ := h.step hs hLawful
    obtain ⟨cs, hStep, _⟩ := hs.step hLawful
    obtain ⟨v, hRest, hAnswers, hEnd⟩ := ih hNext hStep
    refine ⟨v, .cons hLawful' hRest, ?_, hEnd⟩
    rw [answers, answers, hAnswer, hAnswers]

/-- When a heap cannot be laid out, at most the bytes up to the next aligned address are taken. From
there on it answers and shows the same as a new one over that arena, but for its size. -/
theorem layOut_exhausted (hRun : (start strategy arena).Run qs s)
    (hFailed : s.heap.layOut.value.1 = .error .exhausted) :
    let t := s.step .layOut
    let new := start strategy t.heap.arena
    s.heap.arena.mark ≤ t.heap.arena.mark ∧ t.heap.arena.mark ≤ s.heap.arena.aligned ∧
    t.live = [] ∧ t.heap.ready = false ∧ t.heap.blocks = [] ∧ t.heap.statistics = {} ∧
    t.heap.check.value = .ok () ∧
    t.heap.size = (if s.heap.arena.limit < s.heap.arena.aligned then s.heap.size else 0) ∧
    (∀ rs u, t.Run rs u → ∃ v, new.Run rs v ∧ t.answers rs = new.answers rs ∧ u.live = v.live ∧
      u.heap.strategy = v.heap.strategy ∧ u.heap.ready = v.heap.ready ∧
      u.heap.arena = v.heap.arena ∧ u.heap.blocks = v.heap.blocks ∧
      u.heap.statistics = v.heap.statistics ∧ u.heap.check.value = v.heap.check.value ∧
      u.heap.layOut.value.1 = v.heap.layOut.value.1 ∧
      (u.heap.size = v.heap.size ∨
        u.heap.ready = false ∧ u.heap.size = t.heap.size ∧ v.heap.size = 0)) ∧
    ∀ rs v, new.Run rs v → ∃ u, t.Run rs u := by
  intro t new
  obtain ⟨_, hs, hStrategy⟩ := (sound_start strategy arena).run hRun
  rw [strategy_start] at hStrategy
  obtain ⟨done, r, hValue, hLaidOut, _⟩ := s.heap.layOut_cases
  cases done with
  | true =>
    rw [hValue] at hFailed
    cases hFailed
  | false =>
    have hHeap : t.heap = ⟨Engine.new strategy, r, false⟩ :=
      hStrategy ▸ congrArg Prod.snd hValue
    have ht : t.Sound [] := Sound.layOut s
    have hReady : t.heap.ready = false := congrArg Heap.ready hHeap
    have hLive : t.live = [] := ht.live_eq_nil hReady
    have hAlike : t.Alike t.heap.size 0 new :=
      ⟨hLive, Heap.alike_new (congrArg Heap.engine hHeap) hReady⟩
    have hBlocks : t.heap.blocks = [] := by
      rw [hHeap]
      rfl
    have hCheck : t.heap.check.value = .ok () := by
      rw [hHeap]
      rfl
    obtain ⟨hLow, hHigh, hSize⟩ := hLaidOut.refused
    have hArena : t.heap.arena = r.arena := congrArg Heap.arena hHeap
    have hSize' : t.heap.size = r.size := congrArg Heap.size hHeap
    rw [← hArena] at hLow hHigh
    rw [← hSize'] at hSize
    refine ⟨hLow, hHigh, hLive, hReady, hBlocks, congrArg Statistics.ofBlocks hBlocks, hCheck,
      hSize, fun rs u hRest => ?_, fun rs v hRest => ?_⟩
    · obtain ⟨v, hRest', hAnswers, hEnd⟩ := hAlike.run ht hRest
      exact ⟨v, hRest', hAnswers, hEnd.live_eq, hEnd.heap.shown⟩
    · obtain ⟨u, hRest', _⟩ := hAlike.symm.run (sound_start strategy _) hRest
      exact ⟨u, hRest'⟩

/-- Of nine bytes the first layout takes eight, and the next one cannot even be anchored. The heap
has no layout then, but a size; a new one over the same arena has none. -/
theorem size_of_exhausted :
    let s := (start .implicit Arena.scrap).step .layOut
    let t := s.step .layOut
    (start .implicit Arena.scrap).Run [.layOut] s ∧
    s.heap.layOut.value.1 = .error .exhausted ∧ t.heap.ready = false ∧
    t.heap.size = 8 ∧ (start .implicit t.heap.arena).heap.size = 0 :=
  ⟨.cons trivial (.nil _), rfl, rfl, rfl, rfl⟩

/-- A request for one byte is refused, as it is by a new heap. -/
theorem layOut_exhausted_of_nine :
    let s := (start .implicit Arena.scrap).step .layOut
    let t := s.step .layOut
    s.heap.layOut.value.1 = .error .exhausted ∧ t.heap.arena.mark ≤ s.heap.arena.aligned ∧
    t.heap.blocks = [] ∧
    t.answers [.allocate 1] = (start .implicit t.heap.arena).answers [.allocate 1] := by
  have hRun : (start .implicit Arena.scrap).Run [.layOut]
      ((start .implicit Arena.scrap).step .layOut) := .cons trivial (.nil _)
  have hFailed : ((start .implicit Arena.scrap).step .layOut).heap.layOut.value.1 =
      .error .exhausted := rfl
  obtain ⟨_, hHigh, _, _, hBlocks, _, _, _, hAfter, _⟩ := layOut_exhausted hRun hFailed
  obtain ⟨_, _, hAnswers, _⟩ := hAfter [.allocate 1] _ (.cons trivial (.nil _))
  exact ⟨hFailed, hHigh, hBlocks, hAnswers⟩

end Session

end BlockHeap
