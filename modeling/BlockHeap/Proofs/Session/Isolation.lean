import BlockHeap.Proofs.Session.Exhaustion
import BlockHeap.Proofs.Session.Growth

/-!
# Isolation of heaps

A heap that has been laid out starts at the first aligned address from the mark of its arena on, and
from then on ends at the mark. Whatever is asked of it, only bytes between the two change. Since the
mark never falls, the heap that is laid out next lies above it, and what has been handed out before
stays as it was left.
-/

namespace BlockHeap

namespace Heap

variable {h s : Heap} {a : Nat} {cs : List Block}

theorem layOut_of_ready (hReady : h.layOut.value.2.ready = true) :
    h.layOut.value.2.region.anchor = h.arena.aligned ∧
      h.layOut.value.2.arena.mark = h.arena.aligned + h.strategy.bookkeeping := by
  obtain ⟨done, r, hValue, hLaidOut, _⟩ := h.layOut_cases
  rw [hValue] at hReady ⊢
  obtain rfl : done = true := hReady
  have hBytes : (Books.empty h.strategy).size = h.strategy.bookkeeping := by
    cases h.strategy <;> rfl
  rw [hBytes] at hLaidOut
  cases hLaidOut with
  | done _ hAnchor hMark _ => exact ⟨hAnchor, hMark⟩

theorem mark_le_layOut (h : Heap) : h.arena.mark ≤ h.layOut.value.2.arena.mark := by
  obtain ⟨done, r, hValue, hLaidOut, _⟩ := h.layOut_cases
  rw [hValue]
  have hAligned := h.arena.mark_le_aligned
  cases done with
  | false => exact hLaidOut.refused.1
  | true =>
    cases hLaidOut with
    | done _ _ hMark _ => exact (hAligned.trans (Nat.le_add_right _ _)).trans hMark.ge

theorem layOut_ok_iff (h : Heap) : h.layOut.value.1 = .ok () ↔ h.layOut.value.2.ready = true := by
  obtain ⟨done, r, hValue, _⟩ := h.layOut_cases
  rw [hValue]
  cases done <;> simp

/-- All that the heap may still write to lies from the address `a` on. -/
structure Above (a : Nat) (h : Heap) : Prop where
  le_mark : a ≤ h.arena.mark
  le_anchor : h.ready = true → a ≤ h.region.anchor

theorem Above.layOut (hAbove : h.Above a) : h.layOut.value.2.Above a ∧
    h.memory.Agree (· < a) h.layOut.value.2.memory := by
  have hAligned := hAbove.le_mark.trans h.arena.mark_le_aligned
  refine ⟨⟨hAbove.le_mark.trans h.mark_le_layOut, fun hReady => ?_⟩, ?_⟩
  · rwa [(layOut_of_ready hReady).1]
  · exact h.agree_layOut.mono fun x hx => .inl (hx.trans_le hAligned)

theorem Evolves.isolated (hEvolves : h.Evolves [] s) (hReady : h.ready = true)
    (hs : s.Represents cs) : s.ready = true ∧ s.region.anchor = h.region.anchor ∧
      h.memory.Agree (fun x => x < h.region.anchor ∨ s.arena.mark ≤ x) s.memory := by
  have hReady' := hEvolves.ready hReady
  have hRegion := hEvolves.region hReady
  have hEnd := (hs.anchored hReady').mark_eq
  refine ⟨hReady', hRegion.anchor_eq, hRegion.agree.mono fun x hx => ?_⟩
  rw [hRegion.anchor_eq] at hEnd
  rcases hx with hLow | hHigh
  · exact .inl hLow
  · exact .inr (.inl (hEnd.ge.trans hHigh))

end Heap

namespace Session

variable {s u : Session} {q : Request} {rs : List Request} {bs : List Block} {a : Nat}

/-- A request other than for a layout changes the heap only where it may: it may grow it, and write
to its bytes. -/
theorem Sound.evolves (hs : s.Sound bs) (hLawful : s.Lawful q) (hNot : q ≠ .layOut) :
    s.heap.Evolves [] (s.step q).heap := by
  have hNone : ∀ {cs : List Block}, ∀ b ∈ held [], b ∈ held cs := fun _ hb => nomatch hb
  cases q with
  | layOut => exact (hNot rfl).elim
  | allocate n =>
    obtain ⟨_, h, _, hValue, _, _, hEvolves⟩ := hs.represents.allocate n
    have hHeap : (s.step (.allocate n)).heap = h := congrArg Prod.snd hValue
    exact hHeap ▸ hEvolves.mono hNone
  | zeroAllocate m n =>
    obtain ⟨_, h, _, hValue, _, _, hEvolves⟩ := hs.represents.zeroAllocate m n
    have hHeap : (s.step (.zeroAllocate m n)).heap = h := congrArg Prod.snd hValue
    exact hHeap ▸ hEvolves.mono hNone
  | free pointer =>
    cases pointer with
    | none => exact Heap.Evolves.refl [] s.heap
    | some p =>
      obtain ⟨b, hb, rfl⟩ := hs.exists_of_mem hLawful
      obtain ⟨_, _, _, hEvolves⟩ := hs.represents.free hb
      exact hEvolves.mono hNone
  | reallocate pointer n =>
    cases pointer with
    | none =>
      obtain ⟨_, h, _, hValue, _, _, hEvolves⟩ := hs.represents.allocate n
      have hHeap : (s.step (.reallocate none n)).heap = h := congrArg Prod.snd hValue
      exact hHeap ▸ hEvolves.mono hNone
    | some p =>
      obtain ⟨b, hb, rfl⟩ := hs.exists_of_mem hLawful
      cases n with
      | zero =>
        obtain ⟨_, _, _, hEvolves⟩ := hs.represents.free hb
        exact hEvolves.mono hNone
      | succ n =>
        obtain ⟨_, h, _, _, hValue, _, _, hEvolves, _⟩ :=
          hs.represents.reallocate hb n.succ_ne_zero
        have hHeap : (s.step (.reallocate (some (pointerOf s.heap b)) (n + 1))).heap = h :=
          congrArg Prod.snd hValue
        exact hHeap ▸ hEvolves.mono hNone
  | write address bytes =>
    have hKeeps : s.heap.region.Keeps (Foreign s.heap.region.anchor s.heap.size [])
        (s.heap.region.mapMemory (·.write address bytes)) := by
      apply Region.keeps_mapMemory
      apply Memory.Agree.mono (hs.agree_write hLawful)
      rintro x hForeign ⟨b, hb, hIn⟩
      have hBounds := hs.represents.bounds (List.mem_of_mem_filter hb)
      unfold Block.At at hIn
      rcases hForeign with hLow | hHigh | ⟨_, hNone, _⟩
      · omega
      · omega
      · cases hNone
    exact ⟨rfl, id, fun _ => hKeeps.evolves le_rfl⟩

theorem Sound.step_isolated (hs : s.Sound bs) (hLawful : s.Lawful q) (hNot : q ≠ .layOut)
    (hReady : s.heap.ready = true) : (s.step q).heap.ready = true ∧
      (s.step q).heap.region.anchor = s.heap.region.anchor ∧ s.heap.memory.Agree
        (fun x => x < s.heap.region.anchor ∨ (s.step q).heap.arena.mark ≤ x)
        (s.step q).heap.memory := by
  obtain ⟨cs, hStep, _⟩ := hs.step hLawful
  exact (hs.evolves hLawful hNot).isolated hReady hStep.represents

theorem Sound.run_isolated (hs : s.Sound bs) (hRun : s.Run rs u) (hNot : .layOut ∉ rs)
    (hReady : s.heap.ready = true) : u.heap.ready = true ∧
      u.heap.region.anchor = s.heap.region.anchor ∧ ∃ cs, u.Sound cs := by
  induction hRun generalizing bs with
  | nil s => exact ⟨hReady, rfl, bs, hs⟩
  | cons hLawful _ ih =>
    obtain ⟨hHead, hTail⟩ := List.ne_and_not_mem_of_not_mem_cons hNot
    obtain ⟨hReady', hAnchor, _⟩ := hs.step_isolated hLawful hHead.symm hReady
    obtain ⟨cs, hStep, _⟩ := hs.step hLawful
    obtain ⟨hEnd, hSame, hSound⟩ := ih hStep hTail hReady'
    exact ⟨hEnd, hSame.trans hAnchor, hSound⟩

theorem Sound.step_of_bare (hs : s.Sound bs) (hLawful : s.Lawful q) (hNot : q ≠ .layOut)
    (hReady : s.heap.ready = false) : (s.step q).heap = s.heap ∨
      (s.step q).heap = (s.step .layOut).heap ∨ (s.step .layOut).heap.ready = true ∧
        (s.step .layOut).Lawful q ∧ (s.step q).heap = ((s.step .layOut).step q).heap := by
  obtain ⟨h, live⟩ := s
  obtain rfl : live = [] := hs.live_eq_nil hReady
  have hTried := Heap.allocate_of_bare hReady
  cases q with
  | layOut => exact (hNot rfl).elim
  | allocate n =>
    rcases hTried n with ⟨_, hFailed⟩ | ⟨hDone, hSame⟩
    · exact .inr (.inl (congrArg Prod.snd hFailed))
    · exact .inr (.inr ⟨hDone, trivial, congrArg Prod.snd hSame⟩)
  | zeroAllocate count n =>
    rcases Nat.lt_or_ge (count * n) wordLimit with hLt | hLimit
    · rcases hTried (count * n) with ⟨_, hFailed⟩ | ⟨hDone, hSame⟩
      · exact .inr (.inl (congrArg Prod.snd (Heap.value_zeroAllocate hLt hFailed)))
      · have hSame' := (Heap.value_zeroAllocate hLt hSame).trans
          (Heap.value_zeroAllocate hLt rfl).symm
        exact .inr (.inr ⟨hDone, trivial, congrArg Prod.snd hSame'⟩)
    · exact .inl (congrArg Prod.snd (Heap.value_zeroAllocate_of_le hLimit))
  | free pointer =>
    cases pointer with
    | none => exact .inl rfl
    | some p => cases hLawful
  | reallocate pointer n =>
    cases pointer with
    | none =>
      rcases hTried n with ⟨_, hFailed⟩ | ⟨hDone, hSame⟩
      · exact .inr (.inl (congrArg Prod.snd hFailed))
      · exact .inr (.inr ⟨hDone, trivial, congrArg Prod.snd hSame⟩)
    | some p => cases hLawful
  | write address bytes =>
    obtain ⟨p, hp, _⟩ := hLawful
    cases hp

theorem Sound.above_of_ready (hs : s.Sound bs) (hAbove : s.heap.Above a) (hLawful : s.Lawful q)
    (hNot : q ≠ .layOut) (hReady : s.heap.ready = true) :
    (s.step q).heap.Above a ∧ s.heap.memory.Agree (· < a) (s.step q).heap.memory := by
  obtain ⟨hReady', hAnchor, hAgree⟩ := hs.step_isolated hLawful hNot hReady
  obtain ⟨cs, hStep, _⟩ := hs.step hLawful
  have hLow := hAbove.le_anchor hReady
  have hEnd := (hStep.represents.anchored hReady').mark_eq
  rw [hAnchor] at hEnd
  refine ⟨⟨?_, fun _ => hAnchor.symm ▸ hLow⟩, hAgree.mono fun x hx => .inl (hx.trans_le hLow)⟩
  exact (hLow.trans (Nat.le_add_right _ _)).trans hEnd.ge

/-- A heap above an address stays above it, whatever is asked of it, and does not write below. -/
theorem Sound.step_above (hs : s.Sound bs) (hAbove : s.heap.Above a) (hLawful : s.Lawful q) :
    (s.step q).heap.Above a ∧ s.heap.memory.Agree (· < a) (s.step q).heap.memory := by
  by_cases hNot : q = .layOut
  · subst hNot
    exact hAbove.layOut
  · cases hReady : s.heap.ready with
    | true => exact hs.above_of_ready hAbove hLawful hNot hReady
    | false =>
      obtain ⟨hAbove', hAgree⟩ := hAbove.layOut
      rcases hs.step_of_bare hLawful hNot hReady with hSame | hSame | ⟨hDone, hLawful', hSame⟩
      · rw [hSame]
        exact ⟨hAbove, .refl _ _⟩
      · rw [hSame]
        exact ⟨hAbove', hAgree⟩
      · rw [hSame]
        obtain ⟨hEnd, hAgree'⟩ := (Sound.layOut s).above_of_ready hAbove' hLawful' hNot hDone
        exact ⟨hEnd, hAgree.trans hAgree'⟩

theorem Sound.run_above (hs : s.Sound bs) (hAbove : s.heap.Above a) (hRun : s.Run rs u) :
    s.heap.memory.Agree (· < a) u.heap.memory := by
  induction hRun generalizing bs with
  | nil s => exact .refl _ _
  | cons hLawful _ ih =>
    obtain ⟨hAbove', hAgree⟩ := hs.step_above hAbove hLawful
    obtain ⟨cs, hStep, _⟩ := hs.step hLawful
    exact hAgree.trans (ih hStep hAbove')

/-- A layout starts at the first aligned address from the mark on. From then on no request changes a
byte outside of the heap, nor one below it, be it for another layout. -/
theorem layOut_isolates (s : Session) (hDone : s.heap.layOut.value.1 = .ok ()) :
    let t := s.step .layOut
    let a := t.heap.region.anchor
    (s.heap.arena.mark ≤ a ∧ a % 16 = 0 ∧ ∀ b, s.heap.arena.mark ≤ b → b % 16 = 0 → a ≤ b) ∧
    t.heap.arena.mark = a + s.heap.strategy.bookkeeping ∧
    t.heap.size = s.heap.strategy.bookkeeping ∧
    t.heap.ready = true ∧ t.heap.blocks = [] ∧ t.live = [] ∧
    (∀ x, x < a ∨ t.heap.arena.mark ≤ x → t.heap.memory.byte x = s.heap.memory.byte x) ∧
    (∀ rs u, t.Run rs u → .layOut ∉ rs →
      u.heap.ready = true ∧ u.heap.region.anchor = a ∧ u.heap.arena.mark = a + u.heap.size ∧
      ∀ q, u.Lawful q → q ≠ .layOut → ∀ x, x < a ∨ (u.step q).heap.arena.mark ≤ x →
        (u.step q).heap.memory.byte x = u.heap.memory.byte x) ∧
    (∀ rs u, t.Run rs u → ∀ x < a, u.heap.memory.byte x = s.heap.memory.byte x) ∧
    (s.heap.ready = false → ∀ n, (s.heap.allocate n).value = (t.heap.allocate n).value) := by
  intro t a
  have hReady : t.heap.ready = true := s.heap.layOut_ok_iff.mp hDone
  obtain ⟨hAnchor, hMark⟩ := Heap.layOut_of_ready hReady
  have hAnchor' : a = s.heap.arena.aligned := hAnchor
  have hMark' : t.heap.arena.mark = a + s.heap.strategy.bookkeeping := by rwa [hAnchor']
  have hLow := s.heap.arena.mark_le_aligned
  have ht : t.Sound [] := Sound.layOut s
  have hEnd := (ht.represents.anchored hReady).mark_eq
  have hBlocks : t.heap.blocks = [] := by rw [Heap.blocks, ht.represents.blockOffsets_eq]; rfl
  have hAgree : s.heap.memory.Agree (fun x => x < a ∨ t.heap.arena.mark ≤ x) t.heap.memory := by
    rw [hAnchor']
    exact s.heap.agree_layOut
  have hAbove : t.heap.Above a := ⟨hMark' ▸ Nat.le_add_right _ _, fun _ => le_rfl⟩
  refine ⟨⟨hAnchor' ▸ hLow, ?_, fun b hb hAligned => ?_⟩, hMark', ?_, hReady, hBlocks, ?_, hAgree,
    fun rs u hRun hNot => ?_, fun rs u hRun x hx => ?_, fun hBare n => ?_⟩
  · rw [hAnchor', Arena.aligned]
    exact Nat.mul_mod_left _ _
  · rw [hAnchor', Arena.aligned]
    omega
  · exact Nat.add_left_cancel (hEnd.symm.trans hMark')
  · exact List.perm_nil.mp ht.live_perm
  · obtain ⟨hReady', hSame, cs, hu⟩ := ht.run_isolated hRun hNot hReady
    have hSame' : a = u.heap.region.anchor := hSame.symm
    rw [hSame']
    refine ⟨hReady', rfl, (hu.represents.anchored hReady').mark_eq, fun q hLawful hOther => ?_⟩
    exact (hu.step_isolated hLawful hOther hReady').2.2
  · exact (ht.run_above hAbove hRun x hx).trans (hAgree x (.inl hx))
  · rcases Heap.allocate_of_bare hBare n with ⟨hRefused, _⟩ | ⟨_, hSame⟩
    · exact Bool.noConfusion (hRefused.symm.trans hReady)
    · exact hSame

theorem layOut_isolates_of_written :
    let s := ((start .implicit Arena.page).step (.allocate 24)).step (.write 65568 [7])
    let t := s.step .layOut
    (start .implicit Arena.page).Run [.allocate 24, .write 65568 [7]] s ∧
    s.heap.layOut.value.1 = .ok () ∧ s.heap.arena.mark = 65592 ∧ t.heap.region.anchor = 65600 ∧
    t.heap.arena.mark = 65608 ∧ (t.step (.allocate 100)).heap.memory.byte 65568 = 7 := by
  intro s t
  let r := (start .implicit Arena.page).step (.allocate 24)
  have hStart : (start .implicit Arena.page).Run [.allocate 24] r := .cons trivial (.nil r)
  have hLive : r.live = [65568] := by
    rw [hStart.live_eq, ((simulated_start _ _).run hStart).1]
    decide
  have hr := ((simulated_start _ _).run hStart).2
  have hBooks : ((Ledger.start .implicit Arena.page).after [.allocate 24]).heap =
      some (65552, .implicit ⟨[⟨32, true⟩]⟩) := by decide
  have hRecorded := hr.describes.recorded
  rw [hBooks] at hRecorded
  have hBlocks : r.heap.blocks = [⟨65568, 24, true⟩] := hRecorded.blocks_eq
  have hUsable := hRecorded.represents.usableSize_of_mem_blocks (b := ⟨65568, 24, true⟩)
    (hBlocks ▸ List.mem_singleton_self _)
  have hLawful : r.Lawful (.write 65568 [7]) := by
    refine ⟨65568, hLive ▸ List.mem_singleton_self _, le_rfl, ?_⟩
    rw [hUsable]
    decide
  have hRun : (start .implicit Arena.page).Run [.allocate 24, .write 65568 [7]] s :=
    .cons trivial (.cons hLawful (.nil s))
  have hl := ((simulated_start _ _).run hRun).2.describes
  have hLedger : (Ledger.start .implicit Arena.page).after [.allocate 24, .write 65568 [7]] =
      ⟨.implicit, 65592, 69632, some (65552, .implicit ⟨[⟨32, true⟩]⟩)⟩ := by decide
  rw [hLedger] at hl
  have hMark : s.heap.arena.mark = 65592 := hl.mark_eq.symm
  have hLaidOut := Ledger.describes_layOut hl.strategy_eq hl.mark_eq hl.limit_eq
  have hDone := s.heap.layOut_ok_iff.mpr hLaidOut.recorded.isSome_eq.symm
  obtain ⟨⟨hLow, hAligned, hLeast⟩, hEnd, _, _, _, _, _, _, hKept, _⟩ := layOut_isolates s hDone
  rw [hMark] at hLow hLeast
  have hHigh : t.heap.region.anchor ≤ 65600 := hLeast 65600 (by decide) (by decide)
  have hAnchor : t.heap.region.anchor = 65600 := by
    change 65592 ≤ t.heap.region.anchor at hLow
    change t.heap.region.anchor % 16 = 0 at hAligned
    omega
  rw [hAnchor, ← hl.strategy_eq] at hEnd
  have hBelow : 65568 < t.heap.region.anchor := by omega
  have hSame := hKept [.allocate 100] _ (.cons trivial (.nil _)) 65568 hBelow
  have hWritten := Memory.byte_write r.heap.memory 65568 65568 [7]
  exact ⟨hRun, hDone, hMark, hAnchor, hEnd, hSame.trans hWritten⟩

end Session

end BlockHeap
