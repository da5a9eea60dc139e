import BlockHeap.Proofs.Heap.Matching
import BlockHeap.Proofs.Ledger.Abreast
import BlockHeap.Proofs.Session.Exhaustion
import BlockHeap.Proofs.Session.Verdict
import BlockHeap.Proofs.Session.Watched

/-!
# Sessions abreast

Two sessions are abreast if their ledgers are, and if their clients hold pointers at the same
distances. While both serve the same requests at these distances they stay so, and their heaps match
in all that can be seen of them and in every word that they keep for themselves. What a client
writes makes no difference.
-/

namespace BlockHeap

namespace Heap

variable {h : Heap} {n : Nat} {bs : List Block}

theorem size_layOut_of_bare (hBare : h.layOut.value.2.ready = false) :
    h.layOut.value.2.size = if h.arena.limit < h.arena.aligned then h.size else 0 := by
  obtain ⟨done, r, hValue, hLaidOut, _⟩ := h.layOut_cases
  rw [hValue] at hBare ⊢
  obtain rfl : done = false := hBare
  exact hLaidOut.refused.2.2

theorem size_allocate_of_bare (hReady : h.ready = false)
    (hBare : (h.allocate n).value.2.ready = false) : (h.allocate n).value.2.size =
      if h.arena.limit < h.arena.aligned then h.size else 0 := by
  rcases allocate_of_bare hReady n with ⟨hRefused, hSame⟩ | ⟨hDone, hSame⟩
  · rw [hSame]
    exact size_layOut_of_bare hRefused
  · obtain ⟨_, s, _, hValue, _, _, hEvolves⟩ := h.represents_layOut.1.allocate n
    rw [hSame, hValue] at hBare
    exact Bool.noConfusion (hBare.symm.trans (hEvolves.ready hDone))

end Heap

namespace Ledger

variable {l : Ledger} {q : Request}

theorem isSome_allocate (hSome : l.heap.isSome = true) (n : Nat) :
    (l.allocate n).2.heap.isSome = true := by
  have hPrepared : l.prepare = l := if_pos hSome
  obtain ⟨record, hHeap⟩ := Option.isSome_iff_exists.mp hSome
  simp only [allocate, hPrepared, hHeap]
  rfl

theorem isSome_serve (hSome : l.heap.isSome = true) (hNot : q ≠ .layOut) :
    (l.serve q).2.heap.isSome = true := by
  have hFree : ∀ (m : Ledger) p, (m.free p).heap.isSome = m.heap.isSome := fun m p =>
    Option.isSome_map ..
  cases q with
  | layOut => exact (hNot rfl).elim
  | allocate n => exact isSome_allocate hSome n
  | zeroAllocate count n =>
    unfold serve
    simp only
    split
    · exact hSome
    · exact isSome_allocate hSome _
  | free pointer =>
    cases pointer with
    | none => exact hSome
    | some p => exact (hFree l p).trans hSome
  | reallocate pointer n =>
    cases pointer with
    | none => exact isSome_allocate hSome n
    | some p =>
      by_cases hZero : n = 0
      · subst hZero
        exact (hFree l p).trans hSome
      · have hNext := isSome_allocate hSome n
        rw [serve_reallocate hZero]
        cases (l.allocate n).1 with
        | none => exact hNext
        | some target => exact (hFree _ p).trans hNext
  | write a bytes => exact hSome

end Ledger

namespace Session

variable {s : Session} {q : Request} {l : Ledger}

theorem Simulated.size_step (h : s.Simulated l) (hLawful : s.Lawful q)
    (hBare : (s.step q).heap.ready = false) : (s.step q).heap.size =
      if q.laysOut s.heap.ready = true then
        if s.heap.arena.limit < s.heap.arena.aligned then s.heap.size else 0
      else s.heap.size := by
  by_cases hLayOut : q = .layOut
  · subst hLayOut
    exact Heap.size_layOut_of_bare hBare
  have hReady : s.heap.ready = false := by
    refine Bool.eq_false_iff.mpr fun hReady => ?_
    have hKept := Ledger.isSome_serve (h.describes.isSome_eq.trans hReady) hLayOut
    rw [(h.step hLawful).2.describes.isSome_eq, hBare] at hKept
    cases hKept
  have hNone : ∀ p, p ∉ s.live := by simp [h.sound.live_eq_nil hReady]
  rw [hReady]
  cases q with
  | layOut => exact (hLayOut rfl).elim
  | allocate n => exact Heap.size_allocate_of_bare hReady hBare
  | zeroAllocate count n =>
    rcases Nat.lt_or_ge (count * n) wordLimit with hLt | hLimit
    · have hSame : (s.step (.zeroAllocate count n)).heap.ready =
            (s.heap.allocate (count * n)).value.2.ready ∧
          (s.step (.zeroAllocate count n)).heap.size =
            (s.heap.allocate (count * n)).value.2.size := by
        show (s.heap.zeroAllocate count n).value.2.ready = _ ∧
          (s.heap.zeroAllocate count n).value.2.size = _
        rcases hValue : (s.heap.allocate (count * n)).value with ⟨pointer, t⟩
        rw [Heap.value_zeroAllocate hLt hValue]
        cases pointer <;> exact ⟨rfl, rfl⟩
      have hLaysOut : (Request.zeroAllocate count n).laysOut false = true := decide_eq_true hLt
      rw [hSame.2, hLaysOut, if_pos rfl]
      exact Heap.size_allocate_of_bare hReady (hSame.1.symm.trans hBare)
    · have hLaysOut : (Request.zeroAllocate count n).laysOut false = false :=
        decide_eq_false hLimit.not_gt
      show (s.heap.zeroAllocate count n).value.2.size = _
      rw [hLaysOut, Heap.value_zeroAllocate_of_le hLimit]
      rfl
  | free pointer =>
    cases pointer with
    | none => rfl
    | some p => exact (hNone p hLawful).elim
  | reallocate pointer n =>
    cases pointer with
    | none => exact Heap.size_allocate_of_bare hReady hBare
    | some p => exact (hNone p hLawful).elim
  | write a bytes => rfl

/-- While it serves the request, the heap asks its arena for more bytes than there are left: for a
layout, or for a new block, whose size is a word. -/
def Exhausts (s : Session) (q : Request) : Prop :=
  (q.laysOut s.heap.ready = true ∧ s.heap.layOut.value.1 = .error .exhausted) ∨
    ∃ n ∈ q.demand?, s.heap.strategy.need n < wordLimit ∧ s.answer q = none

def Supplied (s : Session) : List Request → Prop
  | [] => True
  | q :: qs => ¬ s.Exhausts q ∧ (s.step q).Supplied qs

theorem Simulated.exhausts_iff (h : s.Simulated l) (hLawful : s.Lawful q) :
    s.Exhausts q ↔ l.Exhausts q := by
  have hl := h.describes
  have hLayOut : s.heap.layOut.value.1 = .error .exhausted ↔ l.layOut.heap = none := by
    have hReady := (Ledger.describes_layOut hl.strategy_eq hl.mark_eq hl.limit_eq).isSome_eq
    obtain ⟨done, r, hValue, -⟩ := s.heap.layOut_cases
    rw [hValue] at hReady ⊢
    rw [← Option.not_isSome_iff_eq_none, hReady]
    cases done <;> simp
  rw [Exhausts, Ledger.Exhausts, hLayOut, hl.isSome_eq, hl.strategy_eq, (h.step hLawful).1]

/-- The relation between two sessions, and their ledgers, that is kept by requests at the same
distances. -/
structure Abreast (a a' b b' : Nat) (s s' : Session) (l l' : Ledger) : Prop where
  left : s.Simulated l
  right : s'.Simulated l'
  ledgers : l.Abreast a a' b b' l'
  size_eq : s'.heap.size = s.heap.size
  live_eq : ∃ os : List Nat, s.live = os.map (a + ·) ∧ s'.live = os.map (a' + ·)

variable {a a' b b' o : Nat} {s' : Session} {l' : Ledger} {r : Request}

theorem Abreast.ready_eq (h : Abreast a a' b b' s s' l l') : s'.heap.ready = s.heap.ready := by
  rw [← h.left.describes.isSome_eq, ← h.right.describes.isSome_eq]
  exact h.ledgers.isSome_eq

theorem Abreast.blocks_eq (h : Abreast a a' b b' s s' l l') : l'.blocks = l.blocks := by
  unfold Ledger.blocks
  rcases h.ledgers.heap_eq with ⟨hNone, hNone'⟩ | ⟨k, j, books, hHeap, hHeap', -⟩
  · rw [hNone, hNone']
  · rw [hHeap, hHeap']
    rfl

theorem Abreast.anchor_eq (h : Abreast a a' b b' s s' l l') (hReady : s.heap.ready = true) :
    ∃ k, s.heap.region.anchor = a + k ∧ s'.heap.region.anchor = a' + k := by
  have hRecorded := h.left.describes.recorded
  have hRecorded' := h.right.describes.recorded
  rcases h.ledgers.heap_eq with ⟨hNone, hNone'⟩ | ⟨k, j, books, hHeap, hHeap', -⟩
  · rw [hNone] at hRecorded
    exact Bool.noConfusion (hRecorded.isSome_eq.trans hReady)
  · rw [hHeap] at hRecorded
    rw [hHeap'] at hRecorded'
    exact ⟨k, hRecorded.anchor_eq.symm, hRecorded'.anchor_eq.symm⟩

theorem Abreast.mem_live_iff (h : Abreast a a' b b' s s' l l') :
    a' + o ∈ s'.live ↔ a + o ∈ s.live := by
  obtain ⟨os, hLive, hLive'⟩ := h.live_eq
  simp [hLive, hLive']

theorem Abreast.usableSize_eq (h : Abreast a a' b b' s s' l l') (ho : a + o ∈ s.live) :
    s'.heap.usableSize (a' + o) = s.heap.usableSize (a + o) := by
  obtain ⟨c, hc, hEq⟩ := h.left.sound.exists_of_mem ho
  have hMem := List.mem_of_mem_filter hc
  obtain ⟨k, hAnchor, hAnchor'⟩ := h.anchor_eq (h.left.sound.represents.ready_of_mem hMem)
  have hUsable := h.left.sound.represents.usableSize_eq hMem
  have hUsable' := h.right.sound.represents.usableSize_eq (h.blocks_eq ▸ hMem)
  unfold pointerOf Region.address at *
  rw [hAnchor] at hUsable hEq
  rw [hAnchor'] at hUsable'
  have hOffset : o = k + c.payload := by omega
  rw [hOffset, ← Nat.add_assoc, ← Nat.add_assoc, hUsable, hUsable']

theorem Abreast.lawful (h : Abreast a a' b b' s s' l l') (hLawful : s.Lawful (r.shift (a + ·))) :
    s'.Lawful (r.shift (a' + ·)) := by
  cases r with
  | free pointer =>
    cases pointer with
    | none => trivial
    | some o => exact h.mem_live_iff.mpr hLawful
  | reallocate pointer n =>
    cases pointer with
    | none => trivial
    | some o => exact h.mem_live_iff.mpr hLawful
  | write x bytes =>
    obtain ⟨p, hp, hStart, hEnd⟩ := hLawful
    obtain ⟨os, hLive, -⟩ := h.live_eq
    obtain ⟨o, -, rfl⟩ := List.mem_map.mp (hLive ▸ hp)
    have hUsable := h.usableSize_eq hp
    simp only at hStart hEnd
    refine ⟨a' + o, h.mem_live_iff.mpr hp, ?_, ?_⟩
    · show a' + o ≤ a' + x
      omega
    · show a' + x + bytes.length ≤ _
      omega
  | _ => trivial

theorem Abreast.exists_shift (h : Abreast a a' b b' s s' l l') (hLawful : s.Lawful q) :
    ∃ r, q = Request.shift (a + ·) r := by
  obtain ⟨os, hLive, -⟩ := h.live_eq
  have hMem : ∀ p ∈ s.live, ∃ o, p = a + o := by
    intro p hp
    obtain ⟨o, -, rfl⟩ := List.mem_map.mp (hLive ▸ hp)
    exact ⟨o, rfl⟩
  cases q with
  | free pointer =>
    cases pointer with
    | none => exact ⟨.free none, rfl⟩
    | some p =>
      obtain ⟨o, rfl⟩ := hMem p hLawful
      exact ⟨.free (some o), rfl⟩
  | reallocate pointer n =>
    cases pointer with
    | none => exact ⟨.reallocate none n, rfl⟩
    | some p =>
      obtain ⟨o, rfl⟩ := hMem p hLawful
      exact ⟨.reallocate (some o) n, rfl⟩
  | write x bytes =>
    obtain ⟨p, hp, hStart, -⟩ := hLawful
    obtain ⟨o, rfl⟩ := hMem p hp
    have hStart' : a + (x - a) = x := by omega
    exact ⟨.write (x - a) bytes, congrArg (Request.write · bytes) hStart'.symm⟩
  | layOut => exact ⟨.layOut, rfl⟩
  | allocate n => exact ⟨.allocate n, rfl⟩
  | zeroAllocate count n => exact ⟨.zeroAllocate count n, rfl⟩

theorem ends_shift (answer : Option Nat) (p : Nat) (r : Request) :
    (r.shift (a + ·)).ends (answer.map (a + ·)) (a + p) = r.ends answer p := by
  have hBeq : ∀ o, (a + p == a + o) = (p == o) := fun o => by
    rw [Bool.eq_iff_iff, beq_iff_eq, beq_iff_eq, Nat.add_left_cancel_iff]
  cases r with
  | free pointer => cases pointer <;> simp [Request.shift, Request.ends, hBeq]
  | reallocate pointer n => cases pointer <;> simp [Request.shift, Request.ends, hBeq]
  | _ => rfl

theorem live_step_shift {os : List Nat} {answer : Option Nat} (hLive : s.live = os.map (a + ·))
    (hAnswer : s.answer (r.shift (a + ·)) = answer.map (a + ·)) :
    (s.step (r.shift (a + ·))).live =
      (answer.toList ++ os.filter fun o => !r.ends answer o).map (a + ·) := by
  show (s.answer _).toList ++ s.live.filter (fun p => !(r.shift (a + ·)).ends (s.answer _) p) = _
  rw [hAnswer, hLive, List.filter_map, List.map_append]
  congr 1
  · cases answer <;> rfl
  · congr 2
    funext o
    exact congrArg (! ·) (ends_shift answer o r)

theorem Abreast.cramped_iff (h : Abreast a a' b b' s s' l l')
    (hEnough : b = b' ∨ ¬ s.heap.arena.limit < s.heap.arena.aligned) :
    s'.heap.arena.limit < s'.heap.arena.aligned ↔ s.heap.arena.limit < s.heap.arena.aligned := by
  have hl := h.left.describes
  have hl' := h.right.describes
  have hNext : s.heap.arena.aligned = l.next := by rw [Arena.aligned, ← hl.mark_eq, Ledger.next]
  have hNext' : s'.heap.arena.aligned = l'.next := by
    rw [Arena.aligned, ← hl'.mark_eq, Ledger.next]
  obtain ⟨k, hk, hk'⟩ := h.ledgers.next_eq
  obtain ⟨hLimit, hLimit'⟩ := h.ledgers.limit_eq
  have hLe := h.ledgers.le
  rw [hNext, ← hl.limit_eq] at hEnough ⊢
  rw [hNext', ← hl'.limit_eq]
  omega

theorem Abreast.size_step (h : Abreast a a' b b' s s' l l')
    (hLawful : s.Lawful (r.shift (a + ·))) (hLawful' : s'.Lawful (r.shift (a' + ·)))
    (hEnough : b = b' ∨ ¬ l.Exhausts (r.shift (a + ·)))
    (hLedgers : (l.serve (r.shift (a + ·))).2.Abreast a a' b b' (l'.serve (r.shift (a' + ·))).2) :
    (s'.step (r.shift (a' + ·))).heap.size = (s.step (r.shift (a + ·))).heap.size := by
  have hStep := (h.left.step hLawful).2.describes
  have hStep' := (h.right.step hLawful').2.describes
  rcases hLedgers.heap_eq with ⟨hNone, hNone'⟩ | ⟨k, j, books, hHeap, hHeap', -⟩
  · have hBare : (s.step (r.shift (a + ·))).heap.ready = false := by
      rw [← hStep.isSome_eq, hNone]
      rfl
    have hBare' : (s'.step (r.shift (a' + ·))).heap.ready = false := by
      rw [← hStep'.isSome_eq, hNone']
      rfl
    rw [h.left.size_step hLawful hBare, h.right.size_step hLawful' hBare', h.ready_eq, h.size_eq,
      Request.laysOut_shift, Request.laysOut_shift]
    cases hLaysOut : r.laysOut s.heap.ready with
    | false => rfl
    | true =>
      have hl := h.left.describes
      have hExhausts : s.heap.arena.limit < s.heap.arena.aligned →
          l.Exhausts (r.shift (a + ·)) := by
        intro hOver
        refine .inl ⟨?_, congrArg Ledger.heap (Ledger.layOut_of_cramped ?_)⟩
        · rwa [Request.laysOut_shift, hl.isSome_eq]
        · rwa [Ledger.next, hl.mark_eq, hl.limit_eq]
      simp only [h.cramped_iff (hEnough.imp_right (mt hExhausts))]
  · have hRecorded := hStep.recorded
    have hRecorded' := hStep'.recorded
    rw [hHeap] at hRecorded
    rw [hHeap'] at hRecorded'
    exact hRecorded'.size_eq.symm.trans hRecorded.size_eq

theorem Abreast.step (h : Abreast a a' b b' s s' l l') (hLawful : s.Lawful (r.shift (a + ·)))
    (hEnough : b = b' ∨ ¬ s.Exhausts (r.shift (a + ·))) : ∃ answer : Option Nat,
      s.answer (r.shift (a + ·)) = answer.map (a + ·) ∧
      s'.answer (r.shift (a' + ·)) = answer.map (a' + ·) ∧
      ∃ m m', Abreast a a' b b' (s.step (r.shift (a + ·))) (s'.step (r.shift (a' + ·))) m m' := by
  have hLawful' := h.lawful hLawful
  obtain ⟨hAnswer, hLeft⟩ := h.left.step hLawful
  obtain ⟨hAnswer', hRight⟩ := h.right.step hLawful'
  rw [h.left.exhausts_iff hLawful] at hEnough
  obtain ⟨answer, hServed, hServed', hLedgers⟩ := h.ledgers.serve r hEnough
  obtain ⟨os, hLive, hLive'⟩ := h.live_eq
  have hHere := hAnswer.trans hServed
  have hThere := hAnswer'.trans hServed'
  exact ⟨answer, hHere, hThere, _, _, hLeft, hRight, hLedgers,
    h.size_step hLawful hLawful' hEnough hLedgers, _, live_step_shift hLive hHere,
    live_step_shift hLive' hThere⟩

theorem Abreast.matches (h : Abreast a a' b b' s s' l l')
    (hClosed : s.heap.ready = true → s.heap.strategy = .explicit →
      Explicit.freeList.Closed s.heap.region)
    (hClosed' : s'.heap.ready = true → s'.heap.strategy = .explicit →
      Explicit.freeList.Closed s'.heap.region) : s.heap.Matches s'.heap := by
  have hRecorded := h.left.describes.recorded
  have hRecorded' := h.right.describes.recorded
  rcases h.ledgers.heap_eq with ⟨hNone, hNone'⟩ | ⟨k, j, books, hHeap, hHeap', -⟩
  · rw [hNone] at hRecorded
    rw [hNone'] at hRecorded'
    exact Heap.matches_bare hRecorded.isSome_eq.symm hRecorded'.isSome_eq.symm h.size_eq
  · rw [hHeap] at hRecorded
    rw [hHeap'] at hRecorded'
    exact hRecorded.matches hRecorded' (hClosed hRecorded.isSome_eq.symm)
      (hClosed' hRecorded'.isSome_eq.symm)

end Session

end BlockHeap
