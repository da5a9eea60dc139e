import BlockHeap.Proofs.Heap.Operations
import BlockHeap.Proofs.Session.Basic

/-!
# Soundness of sessions

The invariant of all runs: the heap has blocks, and the live pointers are the addresses of those
that are allocated. `Outcome` collects what one lawful request does to a sound session, in terms of
the blocks `ds` that its client is left with: they are where they were, and have the bytes that they
had.
-/

namespace BlockHeap

namespace Session

def pointerOf (h : Heap) (b : Block) : Nat := h.region.address b.payload

structure Sound (s : Session) (bs : List Block) : Prop where
  represents : s.heap.Represents bs
  live_perm : s.live.Perm ((held bs).map (pointerOf s.heap))

structure Outcome (s : Session) (q : Request) (bs ds cs : List Block) : Prop where
  sound : (s.step q).Sound cs
  strategy_eq : (s.step q).heap.strategy = s.heap.strategy
  left_perm : (s.live.filter fun p => !q.ends (s.answer q) p).Perm
    ((held ds).map (pointerOf s.heap))
  left_old : ∀ b ∈ held ds, b ∈ held bs
  left_new : ∀ b ∈ held ds, b ∈ held cs
  anchor_eq : ∀ b ∈ held ds, (s.step q).heap.region.anchor = s.heap.region.anchor
  byte_eq : ∀ b ∈ held ds, ∀ x, b.At s.heap.region.anchor x → q.writes x = false →
    (s.step q).heap.memory.byte x = s.heap.memory.byte x

variable {s t : Session} {h : Heap} {q : Request} {b : Block} {bs cs ds : List Block} {n p : Nat}

theorem Sound.exists_of_mem (hs : s.Sound bs) (hp : p ∈ s.live) :
    ∃ b ∈ held bs, p = pointerOf s.heap b := by
  obtain ⟨b, hb, rfl⟩ := List.mem_map.mp (hs.live_perm.mem_iff.mp hp)
  exact ⟨b, hb, rfl⟩

/-- A heap that keeps its promises while serving a request makes a session go on soundly. -/
theorem Sound.outcome (hs : s.Sound bs) {payload : Option Nat}
    (hRun : q.run s.heap = (payload.map h.region.address, h)) (hServed : Served n ds payload cs)
    (hr : h.Represents cs) (hEvolves : s.heap.Evolves ds h)
    (hLeft : (s.live.filter fun p => !q.ends (payload.map h.region.address) p).Perm
      ((held ds).map (pointerOf s.heap)))
    (hOld : ∀ b ∈ held ds, b ∈ held bs) :
    s.Outcome q bs ds cs := by
  have hAnswer : s.answer q = payload.map h.region.address := congrArg Prod.fst hRun
  have hHeap : (s.step q).heap = h := congrArg Prod.snd hRun
  have hEvolved : ∀ b ∈ held ds, s.heap.region.Evolves ds h.region := fun b hb =>
    hEvolves.region (hs.represents.ready_of_mem (List.mem_of_mem_filter (hOld b hb)))
  have hSame : (held ds).map (pointerOf h) = (held ds).map (pointerOf s.heap) :=
    List.map_congr_left fun b hb => by
      rw [pointerOf, pointerOf, Region.address, Region.address, (hEvolved b hb).anchor_eq]
  have hLive : (s.step q).live.Perm
      ((payload.map h.region.address).toList ++ (held ds).map (pointerOf h)) := by
    rw [hSame]
    show ((s.answer q).toList ++ s.live.filter fun p => !q.ends (s.answer q) p).Perm _
    rw [hAnswer]
    exact hLeft.append_left _
  have hHeld : ((payload.map h.region.address).toList ++ (held ds).map (pointerOf h)).Perm
      ((held cs).map (pointerOf h)) := by
    cases hServed with
    | refused hHeld => exact (hHeld.map (pointerOf h)).symm
    | granted _ hHeld => exact (hHeld.map (pointerOf h)).symm
  refine ⟨⟨hHeap ▸ hr, ?_⟩, ?_, ?_, hOld, ?_, ?_, ?_⟩
  · rw [hHeap]
    exact hLive.trans hHeld
  · rw [hHeap]
    exact hEvolves.strategy_eq
  · rwa [hAnswer]
  · intro b hb
    cases hServed with
    | refused hHeld => exact hHeld.mem_iff.mpr hb
    | granted _ hHeld => exact hHeld.mem_iff.mpr (List.mem_cons_of_mem _ hb)
  · intro b hb
    rw [hHeap]
    exact (hEvolved b hb).anchor_eq
  · intro b hb x hx _
    rw [hHeap]
    exact (hEvolved b hb).agree x (.inr (.inr ⟨b, hb, hx⟩))

theorem Sound.live_filter (hs : s.Sound bs) (hHeld : (held bs).Perm (b :: held ds)) :
    (s.live.filter fun p => !(p == pointerOf s.heap b)).Perm
      ((held ds).map (pointerOf s.heap)) := by
  have hLive := (hs.live_perm.trans (hHeld.map _)).filter fun p => !(p == pointerOf s.heap b)
  have hOther : ∀ p ∈ (held ds).map (pointerOf s.heap), (!(p == pointerOf s.heap b)) = true := by
    intro p hp
    obtain ⟨c, hc, rfl⟩ := List.mem_map.mp hp
    have hApart := (List.pairwise_cons.mp (hs.represents.disjoint hHeld)).1 c hc
    have hb : b ∈ held bs := hHeld.mem_iff.mpr List.mem_cons_self
    have hBounds := hs.represents.bounds (List.mem_of_mem_filter hb)
    have hc' : c ∈ held bs := hHeld.mem_iff.mpr (List.mem_cons_of_mem _ hc)
    have hBounds' := hs.represents.bounds (List.mem_of_mem_filter hc')
    simp only [pointerOf, Region.address, Bool.not_eq_true', beq_eq_false_iff_ne]
    omega
  rw [List.map_cons, List.filter_cons, if_neg (by simp), List.filter_eq_self.mpr hOther] at hLive
  exact hLive

theorem Sound.live_filter_none (hs : s.Sound bs) {answer : Option Nat}
    (hEnds : ∀ p, q.ends answer p = false) :
    (s.live.filter fun p => !q.ends answer p).Perm ((held bs).map (pointerOf s.heap)) := by
  rw [List.filter_eq_self.mpr fun p _ => by simp [hEnds p]]
  exact hs.live_perm

theorem Sound.allocate (hs : s.Sound bs) (n : Nat) : ∃ cs, s.Outcome (.allocate n) bs bs cs := by
  obtain ⟨payload, h, cs, hValue, hServed, hr, hEvolves⟩ := hs.represents.allocate n
  exact ⟨cs, hs.outcome hValue hServed hr hEvolves
    (hs.live_filter_none fun _ => rfl) fun _ hb => hb⟩

theorem Sound.zeroAllocate (hs : s.Sound bs) (count n : Nat) :
    ∃ cs, s.Outcome (.zeroAllocate count n) bs bs cs := by
  obtain ⟨payload, h, cs, hValue, hServed, hr, hEvolves⟩ := hs.represents.zeroAllocate count n
  exact ⟨cs, hs.outcome hValue hServed hr hEvolves
    (hs.live_filter_none fun _ => rfl) fun _ hb => hb⟩

theorem Sound.free (hs : s.Sound bs) {pointer : Option Nat} (hLawful : s.Lawful (.free pointer)) :
    ∃ ds cs, s.Outcome (.free pointer) bs ds cs := by
  cases pointer with
  | none =>
    exact ⟨bs, bs, hs.outcome (by rfl) (.nothing bs) hs.represents
      (Heap.Evolves.refl bs _) (hs.live_filter_none fun _ => rfl) fun _ hb => hb⟩
  | some p =>
    obtain ⟨b, hb, rfl⟩ := hs.exists_of_mem hLawful
    obtain ⟨cs, hHeld, hr, hEvolves⟩ := hs.represents.free hb
    exact ⟨cs, cs, hs.outcome (by rfl) (.nothing cs) hr hEvolves
      (hs.live_filter hHeld) fun c hc => hHeld.mem_iff.mpr (List.mem_cons_of_mem _ hc)⟩

theorem Sound.reallocate (hs : s.Sound bs) {pointer : Option Nat} {n : Nat}
    (hLawful : s.Lawful (.reallocate pointer n)) :
    ∃ ds cs, s.Outcome (.reallocate pointer n) bs ds cs := by
  cases pointer with
  | none =>
    obtain ⟨payload, h, cs, hValue, hServed, hr, hEvolves⟩ := hs.represents.allocate n
    exact ⟨bs, cs, hs.outcome hValue hServed hr hEvolves
      (hs.live_filter_none fun _ => rfl) fun _ hb => hb⟩
  | some p =>
    obtain ⟨b, hb, rfl⟩ := hs.exists_of_mem hLawful
    by_cases hZero : n = 0
    · subst hZero
      obtain ⟨cs, hHeld, hr, hEvolves⟩ := hs.represents.free hb
      refine ⟨cs, cs, hs.outcome (by rfl) (.nothing cs) hr hEvolves ?_
        fun c hc => hHeld.mem_iff.mpr (List.mem_cons_of_mem _ hc)⟩
      simpa [Request.ends] using hs.live_filter hHeld
    · obtain ⟨payload, h, cs, ds, hValue, hServed, hr, hEvolves, hLeft⟩ :=
        hs.represents.reallocate hb hZero
      cases payload with
      | none =>
        obtain rfl : ds = bs := hLeft
        refine ⟨ds, cs, hs.outcome hValue hServed hr hEvolves
          (hs.live_filter_none fun p => ?_) fun _ hc => hc⟩
        simp [Request.ends, hZero]
      | some payload =>
        have hHeld : (held bs).Perm (b :: held ds) := hLeft
        refine ⟨ds, cs, hs.outcome hValue hServed hr hEvolves ?_ fun c hc =>
          hHeld.mem_iff.mpr (List.mem_cons_of_mem _ hc)⟩
        simpa [Request.ends] using hs.live_filter hHeld

theorem Sound.agree_write (hs : s.Sound bs) {a : Nat} {bytes : List UInt8}
    (hLawful : s.Lawful (.write a bytes)) :
    s.heap.memory.Agree (fun x => ¬ ∃ c ∈ held bs, c.At s.heap.region.anchor x)
      (s.heap.memory.write a bytes) := by
  obtain ⟨p, hp, hStart, hEnd⟩ := hLawful
  obtain ⟨b, hb, rfl⟩ := hs.exists_of_mem hp
  have hUsable := hs.represents.usableSize_eq (List.mem_of_mem_filter hb)
  intro x hx
  have hOutside : ¬ b.At s.heap.region.anchor x := fun hIn => hx ⟨b, hb, hIn⟩
  unfold pointerOf Region.address at *
  unfold Block.At at hOutside
  by_cases hBefore : x < a
  · exact Memory.byte_write_of_lt _ hBefore
  · exact Memory.byte_write_of_le _ (by omega)

theorem Sound.write (hs : s.Sound bs) {a : Nat} {bytes : List UInt8}
    (hLawful : s.Lawful (.write a bytes)) :
    s.Outcome (.write a bytes) bs bs bs := by
  have hWritten := hs.agree_write hLawful
  have hEnds : ∀ p, Request.ends none p (.write a bytes) = false := fun _ => rfl
  have hLeft := hs.live_filter_none hEnds
  refine ⟨⟨hs.represents.mapMemory hWritten, hLeft⟩, rfl, hLeft, fun _ hc => hc, fun _ hc => hc,
    fun _ _ => rfl, ?_⟩
  intro c _ x _ hNot
  show (s.heap.memory.write a bytes).byte x = s.heap.memory.byte x
  by_cases hBefore : x < a
  · exact Memory.byte_write_of_lt _ hBefore
  · refine Memory.byte_write_of_le _ ?_
    simp only [Request.writes, Bool.and_eq_false_iff, decide_eq_false_iff_not] at hNot
    omega

theorem Sound.outcome_of_lawful (hs : s.Sound bs) (hLawful : s.Lawful q) (hNot : q ≠ .layOut) :
    ∃ ds cs, s.Outcome q bs ds cs := by
  cases q with
  | layOut => exact (hNot rfl).elim
  | allocate n => exact ⟨bs, hs.allocate n⟩
  | zeroAllocate count n => exact ⟨bs, hs.zeroAllocate count n⟩
  | free pointer => exact hs.free hLawful
  | reallocate pointer n => exact hs.reallocate hLawful
  | write a bytes => exact ⟨bs, bs, hs.write hLawful⟩

theorem Sound.layOut (s : Session) : (s.step .layOut).Sound [] := by
  refine ⟨s.heap.represents_layOut.1, ?_⟩
  have hNone : (s.live.filter fun p => !Request.ends none p .layOut) = [] :=
    List.filter_eq_nil_iff.mpr fun _ _ => by simp [Request.ends]
  show ([] ++ s.live.filter fun p => !Request.ends none p .layOut).Perm []
  rw [hNone]
  exact List.Perm.refl _

theorem Sound.step (hs : s.Sound bs) (hLawful : s.Lawful q) :
    ∃ cs, (s.step q).Sound cs ∧ (s.step q).heap.strategy = s.heap.strategy := by
  by_cases hLayOut : q = .layOut
  · subst hLayOut
    exact ⟨[], Sound.layOut s, s.heap.represents_layOut.2⟩
  · obtain ⟨ds, cs, hOutcome⟩ := hs.outcome_of_lawful hLawful hLayOut
    exact ⟨cs, hOutcome.sound, hOutcome.strategy_eq⟩

theorem Sound.run {qs : List Request} (hs : s.Sound bs) (hRun : s.Run qs t) :
    ∃ cs, t.Sound cs ∧ t.heap.strategy = s.heap.strategy := by
  induction hRun generalizing bs with
  | nil s => exact ⟨bs, hs, rfl⟩
  | cons hLawful _ ih =>
    obtain ⟨cs, hStep, hStrategy⟩ := hs.step hLawful
    obtain ⟨ds, hEnd, hEq⟩ := ih hStep
    exact ⟨ds, hEnd, hEq.trans hStrategy⟩

theorem sound_start (strategy : Strategy) (arena : Arena) : (start strategy arena).Sound [] :=
  ⟨.bare, List.Perm.refl _⟩

theorem strategy_start (strategy : Strategy) (arena : Arena) :
    (start strategy arena).heap.strategy = strategy :=
  Engine.strategy_new strategy

end Session

end BlockHeap
