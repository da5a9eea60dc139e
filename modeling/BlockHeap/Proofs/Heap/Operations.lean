import BlockHeap.Proofs.Heap.Blocks

/-!
# Operations of a heap

What each operation answers, which blocks the client holds afterwards, and which bytes stay as they
are. Nothing here depends on the strategy any more, except that both keep these promises.
-/

namespace BlockHeap

/-- A request for `n` bytes is refused, or a new block is granted; the client keeps what it
holds. -/
inductive Served (n : Nat) (bs : List Block) : Option Nat → List Block → Prop where
  | refused {cs : List Block} : (held cs).Perm (held bs) → Served n bs none cs
  | granted {cs : List Block} {b : Block} : n ≤ b.size → (held cs).Perm (b :: held bs) →
      Served n bs (some b.payload) cs

theorem Served.nothing (bs : List Block) : Served 0 bs none bs := .refused (List.Perm.refl _)

variable {n left size : Nat} {cs ds : List Chunk} {ns ms : List Nat} {answer : Option Nat}

theorem Implicit.Outcome.served (h : Implicit.Outcome n left size cs answer ds) :
    Served n (cs.map Implicit.block) answer (ds.map Implicit.block) := by
  cases h with
  | unrepresentable _ => exact .refused (List.Perm.refl _)
  | @reused need xs c ys hNeed hSplit _ hFits =>
    obtain ⟨hFlag, hLe⟩ := Chunk.fits_iff.mp hFits
    obtain ⟨k, hk, hCarved⟩ := Chunk.filter_carve 0 hLe
    obtain ⟨hEnough, _, _⟩ := Implicit.required?_eq_some hNeed
    refine .granted (b := Implicit.block ⟨c.offset, k, true⟩) ?_ ?_
    · show n ≤ k - wordSize
      omega
    · rw [held_map Implicit.allocated_block, held_map Implicit.allocated_block,
        ← Chunk.filter_mergeRuns 0 cs, hSplit]
      simp only [List.filter_append, hCarved, List.filter_cons, hFlag, List.map_append,
        List.append_assoc]
      exact List.perm_middle
  | @appended need hNeed _ _ =>
    obtain ⟨hEnough, _, _⟩ := Implicit.required?_eq_some hNeed
    refine .granted (b := Implicit.block ⟨size, need, true⟩) ?_ ?_
    · show n ≤ need - wordSize
      omega
    · rw [held_map Implicit.allocated_block, held_map Implicit.allocated_block, List.filter_append,
        Chunk.filter_mergeRuns 0 cs, List.map_append]
      exact List.perm_append_singleton _ _
  | exhausted _ _ _ =>
    refine .refused (List.Perm.of_eq ?_)
    rw [held_map Implicit.allocated_block, held_map Implicit.allocated_block,
      Chunk.filter_mergeRuns]

theorem Explicit.Outcome.served (h : Explicit.Outcome n left size cs ns answer ds ms)
    (hSize : 16 ≤ size) :
    Served n (cs.map Explicit.block) answer (ds.map Explicit.block) := by
  cases h with
  | unrepresentable _ => exact .refused (List.Perm.refl _)
  | @reused need xs ys c older newer hNeed hSplit _ hFits _ =>
    obtain ⟨hFlag, hLe⟩ := Chunk.fits_iff.mp hFits
    obtain ⟨k, hk, hCarved⟩ := Chunk.filter_carve Explicit.overhead hLe
    obtain ⟨hEnough, _⟩ := Explicit.required?_eq_some hNeed
    refine .granted (b := Explicit.block ⟨c.offset, k, true⟩) (hEnough.trans hk) ?_
    rw [held_map Explicit.allocated_block, held_map Explicit.allocated_block, hSplit]
    simp only [List.filter_append, hCarved, List.filter_cons, hFlag, List.map_append,
      List.append_assoc]
    exact List.perm_middle
  | @appended need hNeed _ _ =>
    obtain ⟨hEnough, _⟩ := Explicit.required?_eq_some hNeed
    have hPayload : (Explicit.block ⟨size - Explicit.overhead, need, true⟩).payload = size :=
      Nat.sub_add_cancel hSize
    rw [← hPayload]
    refine .granted hEnough ?_
    rw [held_map Explicit.allocated_block, held_map Explicit.allocated_block, List.filter_append,
      List.map_append, hPayload]
    exact List.perm_append_singleton _ _
  | exhausted _ _ _ => exact .refused (List.Perm.refl _)

namespace Heap

/-- A heap with a layout keeps it, and all bytes that are foreign to it with these blocks. -/
structure Evolves (bs : List Block) (h s : Heap) : Prop where
  strategy_eq : s.strategy = h.strategy
  ready : h.ready = true → s.ready = true
  region : h.ready = true → h.region.Evolves bs s.region

variable {h s t : Heap} {b c : Block} {bs cs ds : List Block}

theorem Evolves.trans (hs : h.Evolves bs s) (ht : s.Evolves cs t)
    (hSub : ∀ b ∈ held bs, b ∈ held cs) :
    h.Evolves bs t where
  strategy_eq := ht.strategy_eq.trans hs.strategy_eq
  ready hReady := ht.ready (hs.ready hReady)
  region hReady := (hs.region hReady).trans (ht.region (hs.ready hReady)) hSub

theorem Evolves.refl (bs : List Block) (h : Heap) : h.Evolves bs h :=
  ⟨rfl, id, fun _ => Region.Evolves.refl bs _⟩

theorem Represents.carve (hr : h.Represents bs) (hReady : h.ready = true) (n : Nat) :
    ∃ payload s cs, (h.carve n).value = (payload, s) ∧ Served n bs payload cs ∧
      s.Represents cs ∧ s.ready = true ∧ h.Evolves bs s := by
  cases hr with
  | bare => cases hReady
  | @implicit span region cs hr =>
    obtain ⟨payload, s, ds, hValue, hOutcome, hs, hEvolves⟩ := hr.allocate n
    refine ⟨payload, ⟨.implicit (Implicit.spanOf ds), s, true⟩, _, ?_, hOutcome.served,
      .implicit hs, rfl, rfl, id, fun _ => hEvolves⟩
    simp only [Heap.carve, Journaled.value_bind, hValue]
    rfl
  | @explicit region cs ns hr =>
    obtain ⟨payload, s, ds, ms, hValue, hOutcome, hs, hEvolves⟩ := hr.allocate n
    have hSize := hr.size_ge
    refine ⟨payload, ⟨.explicit, s, true⟩, _, ?_, hOutcome.served (by omega), .explicit hs, rfl,
      rfl, id, fun _ => hEvolves⟩
    simp only [Heap.carve, Journaled.value_bind, hValue]
    rfl

theorem Represents.release (hr : h.Represents bs) (hb : b ∈ held bs) : ∃ cs,
    (held bs).Perm (b :: held cs) ∧ (h.release b.payload).value.Represents cs ∧
      h.Evolves cs (h.release b.payload).value := by
  cases hr with
  | bare => cases hb
  | @implicit span region cs hr =>
    rw [held_map Implicit.allocated_block] at hb ⊢
    obtain ⟨c, hc, rfl⟩ := List.mem_map.mp hb
    obtain ⟨hMem, hFlag⟩ := List.mem_filter.mp hc
    obtain ⟨xs, ys, rfl⟩ := List.append_of_mem hMem
    obtain ⟨hs, hEvolves⟩ := hr.free
    refine ⟨_, ?_, .implicit hs, rfl, id, fun _ => hEvolves⟩
    rw [held_map Implicit.allocated_block]
    simp only [List.filter_append, List.filter_cons, hFlag, List.map_append]
    exact List.perm_middle
  | @explicit region cs ns hr =>
    rw [held_map Explicit.allocated_block] at hb ⊢
    obtain ⟨c, hc, rfl⟩ := List.mem_map.mp hb
    obtain ⟨hMem, hFlag⟩ := List.mem_filter.mp hc
    obtain ⟨xs, ys, rfl⟩ := List.append_of_mem hMem
    obtain ⟨ds, ms, hCoalesced, hs, hEvolves, _⟩ := hr.free hFlag
    refine ⟨_, ?_, .explicit hs, rfl, id, fun _ => hEvolves⟩
    rw [held_map Explicit.allocated_block, hCoalesced.filter_eq rfl]
    simp only [List.filter_append, List.filter_cons, hFlag, List.map_append]
    exact List.perm_middle

theorem value_layOut (h : Heap) {done : Bool} {r : Region}
    (hDone : (match h.strategy with
      | .implicit => Implicit.layOut h.region
      | .explicit => Explicit.layOut h.region).value = (done, r)) :
    h.layOut.value =
      (if done then .ok () else .error .exhausted, ⟨Engine.new h.strategy, r, done⟩) := by
  unfold layOut
  cases hStrategy : h.strategy with
  | implicit =>
    simp only [hStrategy] at hDone
    simp only [Journaled.value_bind, hDone]
    cases done <;> rfl
  | explicit =>
    simp only [hStrategy] at hDone
    simp only [Journaled.value_bind, hDone]
    cases done <;> rfl

theorem represents_layOut (h : Heap) :
    h.layOut.value.2.Represents [] ∧ h.layOut.value.2.strategy = h.strategy := by
  cases hDone : (match h.strategy with
    | .implicit => Implicit.layOut h.region
    | .explicit => Explicit.layOut h.region).value with
  | mk done r =>
    rw [value_layOut h hDone]
    refine ⟨?_, Engine.strategy_new _⟩
    cases done with
    | false => exact .bare
    | true =>
      cases hStrategy : h.strategy with
      | implicit =>
        rw [hStrategy] at hDone
        exact .implicit (Implicit.represents_layOut hDone).1
      | explicit =>
        rw [hStrategy] at hDone
        exact .explicit (Explicit.represents_layOut hDone)

theorem agree_layOut (h : Heap) : h.memory.Agree
    (fun x => x < h.arena.aligned ∨ h.layOut.value.2.arena.mark ≤ x) h.layOut.value.2.memory := by
  cases hDone : (match h.strategy with
    | .implicit => Implicit.layOut h.region
    | .explicit => Explicit.layOut h.region).value with
  | mk done r =>
    rw [value_layOut h hDone]
    cases hStrategy : h.strategy with
    | implicit =>
      rw [hStrategy] at hDone
      obtain rfl : (Implicit.layOut h.region).value.2 = r := congrArg Prod.snd hDone
      exact fun x _ => congrArg (·.byte x) (Implicit.memory_layOut h.region)
    | explicit =>
      rw [hStrategy] at hDone
      obtain rfl : (Explicit.layOut h.region).value.2 = r := congrArg Prod.snd hDone
      exact Explicit.agree_layOut h.region

theorem base_layOut (hReady : h.layOut.value.2.ready = true) :
    h.layOut.value.2.arena.base = h.arena.base := by
  cases hDone : (match h.strategy with
    | .implicit => Implicit.layOut h.region
    | .explicit => Explicit.layOut h.region).value with
  | mk done r =>
    rw [value_layOut h hDone] at hReady ⊢
    obtain rfl : done = true := hReady
    cases hStrategy : h.strategy with
    | implicit =>
      rw [hStrategy] at hDone
      exact Implicit.base_layOut hDone
    | explicit =>
      rw [hStrategy] at hDone
      exact Explicit.base_layOut hDone

theorem Represents.prepare (hr : h.Represents bs) :
    h.prepare.value.Represents bs ∧ h.Evolves bs h.prepare.value := by
  unfold Heap.prepare
  cases hReady : h.ready with
  | true => exact ⟨hr, Evolves.refl bs h⟩
  | false =>
    obtain ⟨hLaidOut, hStrategy⟩ := h.represents_layOut
    have hBlocks : bs = [] := by
      cases hr with
      | bare => rfl
      | implicit _ => cases hReady
      | explicit _ => cases hReady
    subst hBlocks
    exact ⟨hLaidOut, hStrategy, by simp [hReady], by simp [hReady]⟩

/-- An allocation is a carving of the heap that has been prepared for it, if this has succeeded. -/
theorem value_allocate (h : Heap) (n : Nat) : (h.allocate n).value =
    if h.prepare.value.ready then
      ((h.prepare.value.carve n).value.1.map (h.prepare.value.carve n).value.2.region.address,
        (h.prepare.value.carve n).value.2)
    else (none, h.prepare.value) := by
  unfold allocate
  rw [Journaled.value_bind, Journaled.value_ite]
  cases h.prepare.value.ready with
  | false => rfl
  | true =>
    obtain ⟨⟨payload, s⟩, events⟩ := h.prepare.value.carve n
    cases payload with
    | none => rfl
    | some payload => rfl

theorem value_prepare_of_ready (hReady : h.ready = true) : h.prepare.value = h := by
  rw [prepare, if_pos hReady, Journaled.value_pure]

theorem value_prepare_of_bare (hReady : h.ready = false) : h.prepare.value = h.layOut.value.2 := by
  rw [prepare, hReady, if_neg Bool.false_ne_true, Journaled.value_bind]
  rfl

theorem value_allocate_of_ready (hReady : h.ready = true) (n : Nat) : (h.allocate n).value =
    ((h.carve n).value.1.map (h.carve n).value.2.region.address, (h.carve n).value.2) := by
  rw [value_allocate, value_prepare_of_ready hReady, if_pos hReady]

theorem allocate_of_bare (hReady : h.ready = false) (n : Nat) :
    h.layOut.value.2.ready = false ∧ (h.allocate n).value = (none, h.layOut.value.2) ∨
      h.layOut.value.2.ready = true ∧
        (h.allocate n).value = (h.layOut.value.2.allocate n).value := by
  rw [value_allocate, value_prepare_of_bare hReady]
  cases hDone : h.layOut.value.2.ready with
  | false => exact .inl ⟨rfl, rfl⟩
  | true =>
    rw [value_allocate_of_ready hDone]
    exact .inr ⟨rfl, rfl⟩

theorem value_zeroAllocate_of_le {count n : Nat} (hLimit : wordLimit ≤ count * n) :
    (h.zeroAllocate count n).value = (none, h) := by
  rw [zeroAllocate, if_pos hLimit]
  rfl

theorem value_zeroAllocate {count n : Nat} {pointer : Option Nat} (hLt : count * n < wordLimit)
    (hValue : (h.allocate (count * n)).value = (pointer, s)) :
    (h.zeroAllocate count n).value =
      (pointer, pointer.elim s fun a => s.mapMemory (·.fill a (count * n) 0)) := by
  rw [zeroAllocate, if_neg hLt.not_ge, Journaled.value_bind, hValue]
  cases pointer with
  | none => rfl
  | some address => rfl

theorem value_reallocate {n p : Nat} {pointer : Option Nat} (hn : n ≠ 0)
    (hValue : (h.allocate n).value = (pointer, s)) :
    (h.reallocate (some p) n).value = (pointer, pointer.elim s fun q =>
      ((s.mapMemory (·.copy p q (min (h.usableSize p) n))).free (some p)).value) := by
  simp only [reallocate, if_neg hn, Journaled.value_bind, hValue]
  cases pointer with
  | none => rfl
  | some target => rfl

theorem Represents.allocate (hr : h.Represents bs) (n : Nat) : ∃ payload s cs,
    (h.allocate n).value = (payload.map s.region.address, s) ∧ Served n bs payload cs ∧
      s.Represents cs ∧ h.Evolves bs s := by
  obtain ⟨hPrepared, hEvolves⟩ := hr.prepare
  rw [value_allocate]
  cases hReady : h.prepare.value.ready with
  | false =>
    exact ⟨none, h.prepare.value, bs, rfl, .refused (List.Perm.refl _), hPrepared, hEvolves⟩
  | true =>
    obtain ⟨payload, s, cs, hValue, hServed, hs, _, hEvolves'⟩ := hPrepared.carve hReady n
    rw [hValue]
    exact ⟨payload, s, cs, rfl, hServed, hs, hEvolves.trans hEvolves' fun _ hb => hb⟩

theorem offset_address (r : Region) (o : Nat) : r.offset (r.address o) = o :=
  Nat.add_sub_cancel_left _ _

theorem Represents.free (hr : h.Represents bs) (hb : b ∈ held bs) : ∃ cs,
    (held bs).Perm (b :: held cs) ∧
      (h.free (some (h.region.address b.payload))).value.Represents cs ∧
      h.Evolves cs (h.free (some (h.region.address b.payload))).value := by
  have hValue :
      (h.free (some (h.region.address b.payload))).value = (h.release b.payload).value := by
    simp only [Heap.free, Journaled.value_bind, offset_address]
  rw [hValue]
  exact hr.release hb

theorem Evolves.mono (hs : h.Evolves cs s) (hSub : ∀ b ∈ held bs, b ∈ held cs) : h.Evolves bs s :=
  (Evolves.refl bs h).trans hs hSub

theorem Represents.mapMemory_granted (hr : h.Represents cs)
    (hHeld : (held cs).Perm (b :: held bs)) {f : Memory → Memory}
    (hf : h.memory.Agree (fun x => ¬ b.At h.region.anchor x) (f h.memory)) :
    (h.mapMemory f).Represents cs ∧ h.Evolves bs (h.mapMemory f) := by
  have hMem : b ∈ held cs := hHeld.mem_iff.mpr List.mem_cons_self
  refine ⟨hr.mapMemory (hf.mono fun x hx hIn => hx ⟨b, hMem, hIn⟩), rfl, id, fun _ => ?_⟩
  have hBounds := hr.bounds (List.mem_of_mem_filter hMem)
  have hApart := (List.pairwise_cons.mp (hr.disjoint hHeld)).1
  have hSize : h.size = h.region.size := rfl
  refine Region.Keeps.evolves (Region.keeps_mapMemory (hf.mono fun x hx hIn => ?_)) le_rfl
  unfold Block.At at hIn
  rcases hx with hx | hx | ⟨c, hc, hx⟩
  · omega
  · omega
  · have hDisjoint := hApart c hc
    unfold Block.At at hx
    omega

theorem Represents.zeroAllocate (hr : h.Represents bs) (count n : Nat) : ∃ payload s cs,
    (h.zeroAllocate count n).value = (payload.map s.region.address, s) ∧
      Served (count * n) bs payload cs ∧ s.Represents cs ∧ h.Evolves bs s := by
  unfold Heap.zeroAllocate
  by_cases hLimit : wordLimit ≤ count * n
  · rw [if_pos hLimit]
    exact ⟨none, h, bs, rfl, .refused (List.Perm.refl _), hr, Evolves.refl bs h⟩
  · rw [if_neg hLimit]
    obtain ⟨payload, s, cs, hValue, hServed, hs, hEvolves⟩ := hr.allocate (count * n)
    rw [Journaled.value_bind, hValue]
    cases hServed with
    | refused hHeld => exact ⟨none, s, cs, rfl, .refused hHeld, hs, hEvolves⟩
    | @granted _ b hEnough hHeld =>
      obtain ⟨hFilled, hEvolves'⟩ := hs.mapMemory_granted hHeld
        (f := (·.fill (s.region.address b.payload) (count * n) 0))
        ((Memory.agree_fill _ _ _ _).of_payload hEnough)
      exact ⟨some b.payload, _, cs, rfl, .granted hEnough hHeld, hFilled,
        hEvolves.trans hEvolves' fun _ hb => hb⟩

theorem held_erase (bs : List Block) (b : Block) : held ((held bs).erase b) = (held bs).erase b :=
  List.filter_eq_self.mpr fun _ hc => (List.mem_filter.mp (List.mem_of_mem_erase hc)).2

/-- Bytes are moved from one block to another one, which has just been granted, and the first is
freed. -/
theorem Represents.move (hr : h.Represents cs) (hHeld : (held cs).Perm (c :: held bs))
    (hb : b ∈ held bs) {count : Nat} (hCount : count ≤ c.size) :
    let s := (h.mapMemory (·.copy (h.region.address b.payload) (h.region.address c.payload)
      count)).free (some (h.region.address b.payload))
    ∃ ds, (held ds).Perm (c :: (held bs).erase b) ∧ s.value.Represents ds ∧
      h.Evolves ((held bs).erase b) s.value := by
  intro s
  obtain ⟨hCopied, hEvolves⟩ := hr.mapMemory_granted hHeld
    (f := (·.copy (h.region.address b.payload) (h.region.address c.payload) count))
    ((Memory.agree_copy _ _ _ _).of_payload hCount)
  obtain ⟨ds, hFreed, hds, hEvolvesFree⟩ := hCopied.free
    (hHeld.mem_iff.mpr (List.mem_cons_of_mem _ hb))
  have hSwap : (b :: held ds).Perm (b :: c :: (held bs).erase b) :=
    (hFreed.symm.trans hHeld).trans
      (((List.perm_cons_erase hb).cons c).trans (List.Perm.swap b c _))
  have hLeft : (held ds).Perm (c :: (held bs).erase b) := hSwap.cons_inv
  refine ⟨ds, hLeft, hds, (hEvolves.mono fun d hd => ?_).trans hEvolvesFree fun d hd => ?_⟩
  · rw [held_erase] at hd
    exact List.mem_of_mem_erase hd
  · rw [held_erase] at hd
    exact hLeft.mem_iff.mpr (List.mem_cons_of_mem _ hd)

/-- Reallocation either leaves the client with what it holds, or grants a block in place of
another. -/
theorem Represents.reallocate (hr : h.Represents bs) (hb : b ∈ held bs) {n : Nat} (hn : n ≠ 0) :
    ∃ payload s cs ds, (h.reallocate (some (h.region.address b.payload)) n).value =
        (payload.map s.region.address, s) ∧
      Served n ds payload cs ∧ s.Represents cs ∧ h.Evolves ds s ∧
      if payload.isSome then (held bs).Perm (b :: held ds) else ds = bs := by
  obtain ⟨payload, s, cs, hValue, hServed, hs, hEvolves⟩ := hr.allocate n
  unfold Heap.reallocate
  simp only [if_neg hn]
  rw [Journaled.value_bind, hValue]
  cases hServed with
  | refused hHeld => exact ⟨none, s, cs, bs, rfl, .refused hHeld, hs, hEvolves, rfl⟩
  | @granted _ c hEnough hHeld =>
    have hAddress : h.region.address b.payload = s.region.address b.payload := by
      have hAnchor := (hEvolves.region (hr.ready_of_mem (List.mem_of_mem_filter hb))).anchor_eq
      rw [Region.address, Region.address, hAnchor]
    rw [hAddress]
    have hCount : min (h.usableSize (s.region.address b.payload)) n ≤ c.size :=
      (Nat.min_le_right _ _).trans hEnough
    obtain ⟨ds, hLeft, hds, hEvolvesMove⟩ := hs.move hHeld hb hCount
    have hReady := hs.ready_of_mem (List.mem_of_mem_filter (hHeld.mem_iff.mpr List.mem_cons_self))
    have hAnchor := (hEvolvesMove.region hReady).anchor_eq
    refine ⟨some c.payload, _, ds, (held bs).erase b, ?_, .granted hEnough ?_, hds, ?_, ?_⟩
    · exact Prod.ext (congrArg (fun a => some (a + c.payload)) hAnchor.symm) rfl
    · rwa [held_erase]
    · refine (hEvolves.mono fun d hd => ?_).trans hEvolvesMove fun _ hd => hd
      rw [held_erase] at hd
      exact List.mem_of_mem_erase hd
    · show (held bs).Perm (b :: held ((held bs).erase b))
      rw [held_erase]
      exact List.perm_cons_erase hb

end Heap

end BlockHeap
