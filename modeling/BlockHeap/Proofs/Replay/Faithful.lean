import BlockHeap.Proofs.Session.Grants
import BlockHeap.Proofs.Session.Verdict
import BlockHeap.Proofs.Shadow
import BlockHeap.Replay

/-!
# Faithful replayers

The invariant of a replayer. Its pointers are those that a client of its heap holds, up to a pointer
that has been granted but not yet recorded, or forgotten but not yet freed; its shadow has an entry
for each pointer on record, and the bytes of each entry are its pattern. All that the replayer looks
for is then in order.
-/

namespace BlockHeap.Replayer

def start (strategy : Strategy) (arena : Arena) : Replayer :=
  ⟨Heap.new arena strategy, ⟨alignment, .empty⟩, .empty, 0⟩

/-- The heap with the pointers on record, after some that are not. -/
def session (r : Replayer) (pending : List Nat) : Session :=
  ⟨r.heap, pending ++ r.pointers.values⟩

def kept? (r : Replayer) (id : Nat) : Option Allocation :=
  (r.pointers.get? id).bind r.shadow.live.get?

structure Faithful (r : Replayer) (strategy : Strategy) (pending : List Nat) : Prop where
  strategy_eq : r.heap.strategy = strategy
  sound : ∃ bs, (r.session pending).Sound bs
  alignment_eq : r.shadow.alignment = alignment
  recorded : ∀ id p, r.pointers.get? id = some p →
    ∃ size, r.shadow.live.get? p = some ⟨size, pattern id⟩
  known : ∀ p a, r.shadow.live.get? p = some a → p ∈ r.pointers.values
  fits : ∀ p a, r.shadow.live.get? p = some a → a.size ≤ r.heap.usableSize p
  filled : ∀ p a, r.shadow.live.get? p = some a → ∀ i < a.size,
    r.heap.memory.byte (p + i) = a.pattern

variable {r s : Replayer} {strategy : Strategy} {pending : List Nat}
  {id p size count step : Nat} {b : UInt8} {q : Request} {answer : Option Nat} {heap : Heap}

theorem session_of_run (r : Replayer) (hRun : q.run r.heap = (answer, heap)) (pending : List Nat) :
    (r.session pending).answer q = answer ∧ ((r.session pending).step q).heap = heap :=
  Prod.mk.inj hRun

theorem faithful_start (strategy : Strategy) (arena : Arena) :
    (start strategy arena).Faithful strategy [] where
  strategy_eq := Engine.strategy_new strategy
  sound := ⟨[], Session.sound_start strategy arena⟩
  alignment_eq := rfl
  recorded := nofun
  known := nofun
  fits := nofun
  filled := nofun

theorem Faithful.nodup (hf : r.Faithful strategy pending) :
    (pending ++ r.pointers.values).Nodup := by
  obtain ⟨bs, hs⟩ := hf.sound
  exact hs.nodup

theorem Faithful.verify_eq_ok (hf : r.Faithful strategy pending) (step : Nat) :
    r.verify step = .ok () := by
  obtain ⟨bs, hs⟩ := hf.sound
  have hVerdict : r.heap.verdict = .ok () := hs.verdict_eq_ok
  rw [verify, hVerdict]
  simp only [Shadow.verify_eq_ok_iff.mpr hf.filled]
  rfl

/-- A request that ends the life of no pointer on record keeps the replayer faithful. -/
theorem Faithful.serve (hf : r.Faithful strategy pending) (hRun : q.run r.heap = (answer, heap))
    (hLawful : (r.session pending).Lawful q)
    (hEnds : ∀ p ∈ r.pointers.values, q.ends answer p = false) (hWrites : ∀ x, q.writes x = false) :
    { r with heap }.Faithful strategy
      (answer.toList ++ pending.filter fun p => !q.ends answer p) := by
  obtain ⟨bs, hs⟩ := hf.sound
  obtain ⟨cs, hStep, hStrategy⟩ := hs.step hLawful
  obtain ⟨hAnswer, hHeap⟩ := r.session_of_run hRun pending
  have hKept : ∀ p a, r.shadow.live.get? p = some a → heap.usableSize p = r.heap.usableSize p ∧
      ∀ x, p ≤ x → x < p + r.heap.usableSize p →
        heap.memory.byte x = r.heap.memory.byte x := by
    intro p a hLive
    have hp := hf.known p a hLive
    obtain ⟨_, hUsable, hBytes⟩ := hs.step_kept hLawful (List.mem_append_right _ hp)
      (hAnswer.symm ▸ hEnds p hp)
    rw [hHeap] at hUsable hBytes
    exact ⟨hUsable, fun x hLow hHigh => hBytes x hLow hHigh (hWrites x)⟩
  rw [hHeap] at hStrategy
  refine ⟨hStrategy.trans hf.strategy_eq, ⟨cs, ?_⟩, hf.alignment_eq, hf.recorded, hf.known,
    fun p a hLive => ?_, fun p a hLive i hi => ?_⟩
  · have hValues : r.pointers.values.filter (fun p => !q.ends answer p) = r.pointers.values :=
      List.filter_eq_self.mpr fun p hp => by rw [hEnds p hp]; rfl
    have hLive : ((r.session pending).step q).live =
        answer.toList ++ pending.filter (fun p => !q.ends answer p) ++ r.pointers.values := by
      rw [Session.step, hAnswer]
      show _ ++ (pending ++ r.pointers.values).filter _ = _
      rw [List.filter_append, hValues, List.append_assoc]
    rw [session, ← hLive, ← hHeap]
    exact hStep
  · rw [(hKept p a hLive).1]
    exact hf.fits p a hLive
  · have hFits := hf.fits p a hLive
    rw [(hKept p a hLive).2 (p + i) (by omega) (by omega)]
    exact hf.filled p a hLive i hi

theorem Faithful.forget (hf : r.Faithful strategy []) (h : r.pointers.get? id = some p) :
    (r.forget id p).Faithful strategy [p] := by
  have hValues := OrderedMap.values_perm_erase h
  obtain ⟨bs, hs⟩ := hf.sound
  have hOther : ∀ other a, (r.shadow.live.erase p).get? other = some a →
      other ≠ p ∧ r.shadow.live.get? other = some a := fun other a hLive => by
    rw [OrderedMap.get?_erase] at hLive
    exact Option.ite_none_left_eq_some.mp hLive
  refine ⟨hf.strategy_eq, ⟨bs, hs.represents, hValues.symm.trans hs.live_perm⟩, hf.alignment_eq,
    fun j other hj => ?_, fun other a hLive => ?_, fun other a hLive => ?_,
    fun other a hLive => ?_⟩
  · have hErased : (r.pointers.erase id).get? j = some other := hj
    rw [OrderedMap.get?_erase] at hErased
    obtain ⟨hNe, hOld⟩ := Option.ite_none_left_eq_some.mp hErased
    have hApart : other ≠ p := by
      rintro rfl
      exact hNe (OrderedMap.eq_of_get? hf.nodup hOld h)
    obtain ⟨size, hLive⟩ := hf.recorded j other hOld
    refine ⟨size, ?_⟩
    show (r.shadow.live.erase p).get? other = _
    rw [OrderedMap.get?_erase, if_neg hApart, hLive]
  · obtain ⟨hNe, hOld⟩ := hOther other a hLive
    have hMem := hValues.mem_iff.mp (hf.known other a hOld)
    exact (List.mem_cons.mp hMem).resolve_left hNe
  · exact hf.fits other a (hOther other a hLive).2
  · exact hf.filled other a (hOther other a hLive).2

theorem Faithful.kept?_forget (hf : r.Faithful strategy []) (h : r.pointers.get? id = some p)
    (j : Nat) : (r.forget id p).kept? j = if j = id then none else r.kept? j := by
  show ((r.pointers.erase id).get? j).bind (r.shadow.live.erase p).get? = _
  rw [OrderedMap.get?_erase]
  split
  · rfl
  · next hNe =>
    rw [kept?]
    cases hOld : r.pointers.get? j with
    | none => rfl
    | some other =>
      have hApart : other ≠ p := by
        rintro rfl
        exact hNe (OrderedMap.eq_of_get? hf.nodup hOld h)
      exact (OrderedMap.get?_erase _ _ _).trans (if_neg hApart)

theorem Faithful.kept?_insert (hf : r.Faithful strategy [p]) {a : Allocation}
    (hPointers : s.pointers = r.pointers.insert id p)
    (hLive : s.shadow.live = r.shadow.live.insert p a) (j : Nat) :
    s.kept? j = if j = id then some a else r.kept? j := by
  rw [kept?, hPointers, hLive, OrderedMap.get?_insert]
  split
  · exact (OrderedMap.get?_insert _ _ _ _).trans (if_pos rfl)
  · rw [kept?]
    cases hOld : r.pointers.get? j with
    | none => rfl
    | some other =>
      have hApart : other ≠ p := by
        rintro rfl
        exact (List.nodup_cons.mp hf.nodup).1 (OrderedMap.mem_values_iff.mpr ⟨j, hOld⟩)
      exact (OrderedMap.get?_insert _ _ _ _).trans (if_neg hApart)

theorem Faithful.apart (hf : r.Faithful strategy [p]) (other : Nat) (a : Allocation)
    (hLive : r.shadow.live.get? other = some a) :
    other + a.size ≤ p ∧ other < p ∨ p + r.heap.usableSize p ≤ other ∧ p < other := by
  obtain ⟨bs, hs⟩ := hf.sound
  have hOther := hf.known other a hLive
  have hFits := hf.fits other a hLive
  have hApart := (List.pairwise_cons.mp hs.pairwise).1 other hOther
  have hPos := (hs.bounds List.mem_cons_self).2.2.2.1
  have hPos' := (hs.bounds (List.mem_cons_of_mem p hOther)).2.2.2.1
  change p + r.heap.usableSize p ≤ other ∨ other + r.heap.usableSize other ≤ p at hApart
  change 8 ≤ r.heap.usableSize p at hPos
  change 8 ≤ r.heap.usableSize other at hPos'
  omega

/-- Recording a granted pointer succeeds, and leaves nothing pending. -/
theorem Faithful.track (hf : r.Faithful strategy [p]) (hNew : r.pointers.get? id = none)
    (hSize : size ≤ r.heap.usableSize p) (step : Nat) :
    ∃ s, r.track step id p size = .ok s ∧ s.Faithful strategy [] ∧
      s.pointers = r.pointers.insert id p ∧
      s.shadow.live = r.shadow.live.insert p ⟨size, pattern id⟩ ∧ s.steps = r.steps := by
  obtain ⟨bs, hs⟩ := hf.sound
  have hp : p ∈ (r.session [p]).live := List.mem_cons_self
  have hAligned : r.shadow.alignment.rem p = 0 := by
    rw [hf.alignment_eq, alignment_rem]
    exact (hs.bounds hp).2.2.1
  have hApart : ∀ other a, r.shadow.live.get? other = some a →
      other + a.size ≤ p ∧ other < p ∨ p + size ≤ other ∧ p < other := fun other a hLive => by
    have hFar := hf.apart other a hLive
    omega
  have hInsert := Shadow.insert_of_apart r.heap.memory (pattern id) hAligned hApart
  rw [Replayer.track, if_neg hSize.not_gt, hInsert]
  refine ⟨_, rfl, ?_, rfl, rfl, rfl⟩
  obtain ⟨ht, hUsable⟩ := hs.mapMemory (f := fun _ => r.heap.memory.fill p size (pattern id)) hp
    hSize (Memory.agree_fill _ _ _ _)
  have hValues := OrderedMap.values_insert_perm hNew p
  have hFresh : p ∉ r.pointers.values := (List.nodup_cons.mp hf.nodup).1
  have hEntry : ∀ other a, (r.shadow.live.insert p ⟨size, pattern id⟩).get? other = some a →
      other = p ∧ a = ⟨size, pattern id⟩ ∨ r.shadow.live.get? other = some a := by
    intro other a hLive
    rw [OrderedMap.get?_insert] at hLive
    split at hLive
    · next hEq => exact .inl ⟨hEq, (Option.some.inj hLive).symm⟩
    · exact .inr hLive
  refine ⟨hf.strategy_eq, ⟨bs, ht.represents, hValues.trans ht.live_perm⟩, hf.alignment_eq,
    fun j other hj => ?_, fun other a hLive => ?_, fun other a hLive => ?_,
    fun other a hLive i hi => ?_⟩
  · change (r.pointers.insert id p).get? j = some other at hj
    show ∃ size', (r.shadow.live.insert p ⟨size, pattern id⟩).get? other = some _
    rw [OrderedMap.get?_insert] at hj
    split at hj
    · next hEq =>
      obtain rfl := Option.some.inj hj
      exact ⟨size, by rw [OrderedMap.get?_insert, if_pos rfl, hEq]⟩
    · obtain ⟨size', hLive⟩ := hf.recorded j other hj
      have hNe : other ≠ p := by
        rintro rfl
        exact hFresh (hf.known other _ hLive)
      exact ⟨size', by rw [OrderedMap.get?_insert, if_neg hNe, hLive]⟩
  · refine hValues.mem_iff.mpr ?_
    rcases hEntry other a hLive with ⟨rfl, _⟩ | hOld
    · exact List.mem_cons_self
    · exact List.mem_cons_of_mem _ (hf.known other a hOld)
  · rcases hEntry other a hLive with ⟨rfl, rfl⟩ | hOld
    · exact hSize.trans (hUsable other hp).ge
    · have hMem := List.mem_cons_of_mem p (hf.known other a hOld)
      exact (hf.fits other a hOld).trans (hUsable other hMem).ge
  · show (r.heap.memory.fill p size (pattern id)).byte (other + i) = a.pattern
    rw [Memory.byte_fill]
    rcases hEntry other a hLive with ⟨rfl, rfl⟩ | hOld
    · exact if_pos ⟨Nat.le_add_right _ _, Nat.add_lt_add_left hi _⟩
    · have hFar := hApart other a hOld
      rw [if_neg (by omega)]
      exact hf.filled other a hOld i hi

/-- What is granted settles: its bytes are as expected, it is recorded, and all is in order. -/
theorem Faithful.settle (hf : r.Faithful strategy [p]) (hNew : r.pointers.get? id = none)
    (hSize : size ≤ r.heap.usableSize p) (hBytes : ∀ i < count, r.heap.memory.byte (p + i) = b)
    (step : Nat) : ∃ s, r.settle step id p size count b = (.ok (), s) ∧ s.Faithful strategy [] ∧
      s.pointers = r.pointers.insert id p ∧
      s.shadow.live = r.shadow.live.insert p ⟨size, pattern id⟩ ∧ s.steps = r.steps := by
  obtain ⟨s, hTrack, hs, hRecorded⟩ := hf.track hNew hSize step
  refine ⟨s, ?_, hs, hRecorded⟩
  rw [Replayer.settle, Shadow.verifyBytes_eq_ok_iff.mpr hBytes]
  simp only [hTrack, hs.verify_eq_ok]

end BlockHeap.Replayer
