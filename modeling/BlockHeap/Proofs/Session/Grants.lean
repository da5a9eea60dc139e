import BlockHeap.Proofs.Session.Payloads

/-!
# Granted pointers

What a pointer is good for when a request has just answered it: it is a new one, at least as many
bytes may be used as were asked for, and these are zero, or those of the block that has been moved.
Zeroing and moving are an allocation, followed by a change of the bytes that it has granted and, if
a block is moved, by its release.
-/

namespace BlockHeap

namespace Session

def mapMemory (s : Session) (f : Memory → Memory) : Session :=
  { s with heap := s.heap.mapMemory f }

variable {s : Session} {bs : List Block} {f : Memory → Memory} {count m n p q x : Nat}

theorem Sound.nodup (hs : s.Sound bs) : s.live.Nodup := by
  refine hs.pairwise.imp_of_mem fun {p q} hp _ hApart => ?_
  have hPos := (hs.bounds hp).2.2.2.1
  rintro rfl
  omega

theorem Sound.agree_payload (hs : s.Sound bs) (hq : q ∈ s.live)
    (hCount : count ≤ s.heap.usableSize q) {memory : Memory}
    (hf : s.heap.memory.Agree (fun x => ¬ (q ≤ x ∧ x < q + count)) memory) :
    s.heap.memory.Agree (fun x => ¬ ∃ b ∈ held bs, b.At s.heap.region.anchor x) memory := by
  obtain ⟨b, hb, rfl⟩ := hs.exists_of_mem hq
  rw [pointerOf, hs.represents.usableSize_eq (List.mem_of_mem_filter hb)] at hCount
  exact (hf.of_payload hCount).mono fun _ hx hIn => hx ⟨b, hb, hIn⟩

/-- A client that changes bytes of a payload that it holds leaves the heap sound, and its other
payloads alone. -/
theorem Sound.mapMemory (hs : s.Sound bs) (hq : q ∈ s.live) (hCount : count ≤ s.heap.usableSize q)
    (hf : s.heap.memory.Agree (fun x => ¬ (q ≤ x ∧ x < q + count)) (f s.heap.memory)) :
    (s.mapMemory f).Sound bs ∧
      ∀ p ∈ s.live, (s.mapMemory f).heap.usableSize p = s.heap.usableSize p := by
  have hr : (s.mapMemory f).heap.Represents bs :=
    hs.represents.mapMemory (hs.agree_payload hq hCount hf)
  refine ⟨⟨hr, hs.live_perm⟩, fun p hp => ?_⟩
  obtain ⟨c, hc, rfl⟩ := hs.exists_of_mem hp
  have hOld := hs.represents.usableSize_eq (List.mem_of_mem_filter hc)
  exact (hr.usableSize_eq (List.mem_of_mem_filter hc)).trans hOld.symm

theorem live_step_allocate (s : Session) (n : Nat) :
    (s.step (.allocate n)).live = (s.answer (.allocate n)).toList ++ s.live :=
  congrArg _ (List.filter_eq_self.mpr fun _ _ => rfl)

theorem Sound.allocate_granted (hs : s.Sound bs) (hAnswer : s.answer (.allocate n) = some q) :
    q ∉ s.live ∧ (s.step (.allocate n)).live = q :: s.live ∧
      n ≤ (s.step (.allocate n)).heap.usableSize q := by
  have hLive := s.live_step_allocate n
  rw [hAnswer] at hLive
  obtain ⟨cs, hOutcome⟩ := hs.allocate n
  have hNodup := hOutcome.sound.nodup
  rw [hLive] at hNodup
  refine ⟨(List.nodup_cons.mp hNodup).1, hLive, ?_⟩
  obtain ⟨payload, t, ds, hValue, hServed, ht, _⟩ := hs.represents.allocate n
  have hHeap : (s.step (.allocate n)).heap = t := congrArg Prod.snd hValue
  have hPointer : payload.map t.region.address = some q :=
    (congrArg Prod.fst hValue).symm.trans hAnswer
  rw [hHeap]
  cases hServed with
  | refused _ => cases hPointer
  | @granted _ b hEnough hHeld =>
    obtain rfl : t.region.address b.payload = q := Option.some.inj hPointer
    rwa [ht.usableSize_eq (List.mem_of_mem_filter (hHeld.mem_iff.mpr List.mem_cons_self))]

theorem step_of_run {r : Request} {answer : Option Nat} {h : Heap}
    (hRun : r.run s.heap = (answer, h)) :
    s.step r = ⟨h, answer.toList ++ s.live.filter fun p => !r.ends answer p⟩ := by
  rw [step, Session.answer, hRun]

theorem run_allocate (hAnswer : s.answer (.allocate n) = some q) :
    (s.heap.allocate n).value = (some q, (s.step (.allocate n)).heap) :=
  Prod.ext hAnswer rfl

theorem answer_zeroAllocate_eq (s : Session) (m n : Nat) : s.answer (.zeroAllocate m n) =
    if m * n < wordLimit then s.answer (.allocate (m * n)) else none := by
  split
  · next hLt =>
    have hValue := Heap.value_zeroAllocate hLt (Prod.eta (s.heap.allocate (m * n)).value).symm
    exact (congrArg Prod.fst hValue :)
  · next hLimit =>
    have hValue := Heap.value_zeroAllocate_of_le (h := s.heap) (Nat.le_of_not_lt hLimit)
    exact (congrArg Prod.fst hValue :)

theorem answer_zeroAllocate (hAnswer : s.answer (.zeroAllocate m n) = some q) :
    m * n < wordLimit ∧ s.answer (.allocate (m * n)) = some q := by
  rw [answer_zeroAllocate_eq] at hAnswer
  exact Option.ite_none_right_eq_some.mp hAnswer

theorem answer_reallocate (s : Session) (p : Nat) (hn : n ≠ 0) :
    s.answer (.reallocate (some p) n) = s.answer (.allocate n) :=
  (congrArg Prod.fst (Heap.value_reallocate (h := s.heap) (p := p) hn (Prod.eta _).symm) :)

theorem step_zeroAllocate (hLt : m * n < wordLimit)
    (hAnswer : s.answer (.allocate (m * n)) = some q) :
    s.step (.zeroAllocate m n) =
      (s.step (.allocate (m * n))).mapMemory (·.fill q (m * n) 0) := by
  have hRun : (Request.zeroAllocate m n).run s.heap = _ :=
    Heap.value_zeroAllocate hLt (run_allocate hAnswer)
  rw [step_of_run hRun, mapMemory, live_step_allocate, hAnswer]
  exact congrArg (Session.mk _) (congrArg (q :: ·) (List.filter_eq_self.mpr fun _ _ => rfl))

theorem Sound.step_reallocate (hs : s.Sound bs) (hp : p ∈ s.live) (hn : n ≠ 0)
    (hAnswer : s.answer (.allocate n) = some q) : s.step (.reallocate (some p) n) =
      ((s.step (.allocate n)).mapMemory (·.copy p q (min (s.heap.usableSize p) n))).step
        (.free (some p)) := by
  obtain ⟨hNew, hLive, _⟩ := hs.allocate_granted hAnswer
  have hRun : (Request.reallocate (some p) n).run s.heap = _ :=
    Heap.value_reallocate hn (run_allocate hAnswer)
  have hOther : q ≠ p := fun hEq => hNew (hEq ▸ hp)
  have hFreed : (q :: s.live).filter (fun x => !(x == p)) =
      q :: s.live.filter fun x => !(x == p) :=
    List.filter_cons_of_pos (by simpa using hOther)
  have hEnds : ∀ x, Request.ends (some q) x (.reallocate (some p) n) = (x == p) := fun x => by
    simp [Request.ends]
  rw [step_of_run hRun]
  refine Session.mk.injEq _ _ _ _ ▸ ⟨rfl, ?_⟩
  simp only [hEnds]
  show q :: _ = (s.step (.allocate n)).live.filter fun x => !(x == p)
  rw [hLive, hFreed]
  rfl

theorem Sound.zeroAllocate_eq_mapMemory (hs : s.Sound bs)
    (hGranted : s.answer (.zeroAllocate m n) = some q) :
    ∃ cs, (s.step (.allocate (m * n))).Sound cs ∧
      q ∈ (s.step (.allocate (m * n))).live ∧
      m * n ≤ (s.step (.allocate (m * n))).heap.usableSize q ∧
      s.step (.zeroAllocate m n) =
        (s.step (.allocate (m * n))).mapMemory (·.fill q (m * n) 0) := by
  obtain ⟨hLt, hAnswer⟩ := answer_zeroAllocate hGranted
  obtain ⟨_, hLive, hEnough⟩ := hs.allocate_granted hAnswer
  obtain ⟨cs, ht, _⟩ := hs.step (q := .allocate (m * n)) trivial
  exact ⟨cs, ht, hLive ▸ List.mem_cons_self, hEnough, step_zeroAllocate hLt hAnswer⟩

theorem Sound.zeroAllocate_granted (hs : s.Sound bs)
    (hGranted : s.answer (.zeroAllocate m n) = some q) :
    (s.step (.zeroAllocate m n)).live = q :: s.live ∧ m * n < wordLimit ∧
      m * n ≤ (s.step (.zeroAllocate m n)).heap.usableSize q ∧
      ∀ i < m * n, (s.step (.zeroAllocate m n)).heap.memory.byte (q + i) = 0 := by
  obtain ⟨hLt, hAnswer⟩ := answer_zeroAllocate hGranted
  obtain ⟨cs, ht, hq, hEnough, hStep⟩ := hs.zeroAllocate_eq_mapMemory hGranted
  obtain ⟨_, hUsable⟩ := ht.mapMemory (f := (·.fill q (m * n) 0)) hq hEnough
    (Memory.agree_fill _ _ _ _)
  rw [hStep]
  refine ⟨(hs.allocate_granted hAnswer).2.1, hLt, hEnough.trans (hUsable q hq).ge, fun i hi => ?_⟩
  exact (Memory.byte_fill _ _ _ _ _).trans (if_pos ⟨by omega, by omega⟩)

theorem Sound.reallocate_granted (hs : s.Sound bs) (hp : p ∈ s.live) (hn : n ≠ 0)
    (hGranted : s.answer (.reallocate (some p) n) = some q) :
    (s.step (.reallocate (some p) n)).live = q :: s.live.filter (fun other => !(other == p)) ∧
      n ≤ (s.step (.reallocate (some p) n)).heap.usableSize q ∧
      ∀ i < min (s.heap.usableSize p) n,
        (s.step (.reallocate (some p) n)).heap.memory.byte (q + i) =
          s.heap.memory.byte (p + i) := by
  have hAnswer := (s.answer_reallocate p hn).symm.trans hGranted
  obtain ⟨hNew, hLive, hEnough⟩ := hs.allocate_granted hAnswer
  obtain ⟨cs, ht, _⟩ := hs.step (q := .allocate n) trivial
  obtain ⟨hKept, hOld, hBytes⟩ := hs.step_kept (q := .allocate n) trivial hp rfl
  have hq : q ∈ (s.step (.allocate n)).live := hLive ▸ List.mem_cons_self
  have hCount : min (s.heap.usableSize p) n ≤ (s.step (.allocate n)).heap.usableSize q :=
    (Nat.min_le_right _ _).trans hEnough
  obtain ⟨hu, hUsable⟩ := ht.mapMemory (f := (·.copy p q (min (s.heap.usableSize p) n))) hq hCount
    (Memory.agree_copy _ _ _ _)
  have hOther : q ≠ p := fun hEq => hNew (hEq ▸ hp)
  obtain ⟨_, hUsable', hCopied⟩ := hu.step_kept (q := .free (some p)) hKept hq (by
    simpa [Request.ends] using hOther)
  rw [hs.step_reallocate hp hn hAnswer]
  rw [hUsable q hq] at hUsable' hCopied
  refine ⟨?_, hEnough.trans hUsable'.ge, fun i hi => ?_⟩
  · show (s.step (.allocate n)).live.filter (fun x => !(x == p)) = _
    rw [hLive]
    exact List.filter_cons_of_pos (by simpa using hOther)
  · rw [hCopied (q + i) (by omega) (by omega) rfl]
    have hIn : q ≤ q + i ∧ q + i < q + min (s.heap.usableSize p) n := by omega
    refine (Memory.byte_copy _ _ _ _ _).trans ((if_pos hIn).trans ?_)
    rw [Nat.add_sub_cancel_left]
    exact hBytes (p + i) (by omega) (by omega) rfl

end Session

end BlockHeap
