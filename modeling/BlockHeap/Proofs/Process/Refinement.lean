import BlockHeap.Proofs.Process.Heaps

/-!
# The process-wide heap refines a heap

Whether there is a heap already, and whether a reset has made it or the first call that needed one,
is nothing that a client can tell: the process-wide heap mirrors the one that there is, or would be.
-/

namespace BlockHeap

namespace ProcessHeap

variable {p : ProcessHeap} {h : Heap} {c : Call} {m : Client ProcessHeap} {s : Client Heap}

theorem ensure_of_some (hHeap : p.heap = some h) : p.ensure = p :=
  if_pos (Option.isSome_iff_exists.mpr ⟨h, hHeap⟩)

theorem ensure_of_none (hHeap : p.heap = none) : p.ensure = p.renew :=
  if_neg (by simp [hHeap])

theorem value_withHeap (hHeap : p.ensure.heap = some h)
    (operation : Heap → Journaled (Option Nat × Heap)) : (p.withHeap operation).value =
      ((operation h).value.1, { p.ensure with heap := some (operation h).value.2 }) := by
  simp only [withHeap, hHeap]
  rfl

theorem usableSize_some (hHeap : p.ensure.heap = some h) (pointer : Nat) :
    p.usableSize (some pointer) = (h.usableSize pointer, p.ensure) := by
  simp only [usableSize, hHeap]

theorem value_free_some (hHeap : p.ensure.heap = some h) (pointer : Nat) :
    (p.free (some pointer)).value =
      { p.ensure with heap := some (h.free (some pointer)).value } := by
  simp only [free, hHeap]
  rfl

theorem value_checkHeap (hHeap : p.heap = some h) (verbose : Bool) :
    (p.checkHeap verbose).value = if h.check.value.isOk then 0 else -1 := by
  simp only [checkHeap, hHeap]
  cases verbose with
  | false =>
    rw [if_neg Bool.false_ne_true, Journaled.value_bind]
    cases h.check.value <;> rfl
  | true =>
    rw [if_pos rfl, Journaled.value_bind, Journaled.value_bind]
    cases h.check.value <;> rfl

/-- The client of the process-wide heap, beside that of the heap that there is, or that will be made
once it is needed. -/
structure Mirrors (m : Client ProcessHeap) (s : Client Heap) : Prop where
  heap_eq : m.state.ensure.heap = some s.state
  live_eq : m.live = s.live
  of_bare : m.state.heap = none → s.live = [] ∧ s.state.ready = false

theorem Mirrors.heap_of_some (h : Mirrors m s) {heap : Heap} (hHeap : m.state.heap = some heap) :
    m.state.heap = some s.state := by
  rw [← h.heap_eq, ensure_of_some hHeap]

theorem Mirrors.lawful_iff (h : Mirrors m s) : service.Lawful m c ↔ Heap.service.Lawful s c := by
  have hUsable : service.usable m.state = Heap.service.usable s.state :=
    funext fun pointer => congrArg Prod.fst (usableSize_some h.heap_eq pointer)
  rw [Service.Lawful, Service.Lawful, hUsable, h.live_eq]

theorem Mirrors.serve_eq (h : Mirrors m s) (hNot : c ≠ .ask .layOut)
    (hLawful : Heap.service.Lawful s c) : (m.state.serve c).1 = (s.state.serve c).1 ∧
      ((m.state.serve c).2 = m.state ∧ c.isIdle = true ∨
        (m.state.serve c).2.heap = some (s.state.serve c).2) := by
  have hWith : ∀ operation : Heap → Journaled (Option Nat × Heap),
      ((m.state.withHeap operation).value.map Reply.pointer id).1 =
        ((operation s.state).value.map Reply.pointer id).1 ∧
      ((m.state.withHeap operation).value.map Reply.pointer id).2.heap =
        some ((operation s.state).value.map Reply.pointer id).2 := fun operation => by
    rw [value_withHeap h.heap_eq]
    exact ⟨rfl, rfl⟩
  cases c with
  | ask q =>
    cases q with
    | layOut => exact (hNot rfl).elim
    | allocate n => exact (hWith (·.allocate n)).imp_right .inr
    | zeroAllocate count n => exact (hWith (·.zeroAllocate count n)).imp_right .inr
    | reallocate pointer n => exact (hWith (·.reallocate pointer n)).imp_right .inr
    | free pointer =>
      cases pointer with
      | none => exact ⟨rfl, .inl ⟨rfl, rfl⟩⟩
      | some p => exact ⟨rfl, .inr (congrArg heap (value_free_some h.heap_eq p))⟩
    | write address bytes =>
      obtain ⟨p, hp, -⟩ := hLawful
      cases hHeap : m.state.heap with
      | none => rw [(h.of_bare hHeap).1] at hp; cases hp
      | some _ => exact ⟨rfl, .inr (congrArg (Option.map _) (h.heap_of_some hHeap))⟩
  | usableSize pointer =>
    cases pointer with
    | none => exact ⟨rfl, .inr h.heap_eq⟩
    | some p =>
      have hUsable := usableSize_some h.heap_eq p
      exact ⟨congrArg (fun e : Nat × ProcessHeap => Reply.size e.1) hUsable,
        .inr ((congrArg (fun e : Nat × ProcessHeap => e.2.heap) hUsable).trans h.heap_eq)⟩
  | checkHeap verbose =>
    refine ⟨congrArg Reply.status ?_, .inl ⟨rfl, rfl⟩⟩
    cases hHeap : m.state.heap with
    | none =>
      have hVerdict : s.state.verdict = .ok () := by rw [Heap.verdict, (h.of_bare hHeap).2]; rfl
      rw [checkHeap, hHeap, Heap.value_check, hVerdict]
      rfl
    | some _ => exact value_checkHeap (h.heap_of_some hHeap) verbose

theorem Mirrors.call (h : Mirrors m s) (hNot : c ≠ .ask .layOut)
    (hLawful : Heap.service.Lawful s c) : Heap.service.reply s c = service.reply m c ∧
      Mirrors (service.step m c) (Heap.service.step s c) := by
  obtain ⟨hReply, hNext⟩ := h.serve_eq hNot hLawful
  have hSame : service.reply m c = Heap.service.reply s c := hReply
  have hLive : (service.step m c).live = (Heap.service.step s c).live := by
    simp only [Service.step, hSame, h.live_eq]
  refine ⟨hSame.symm, ?_⟩
  rcases hNext with ⟨hKept, hIdle⟩ | hHeap
  · have hState : (service.step m c).state = m.state := hKept
    rw [Heap.step_of_isIdle hIdle] at hLive ⊢
    exact ⟨hState ▸ h.heap_eq, hLive, hState ▸ h.of_bare⟩
  · refine ⟨?_, hLive, fun hNone => ?_⟩
    · exact (congrArg heap (ensure_of_some hHeap)).trans hHeap
    · exact (Option.some_ne_none _ (hHeap.symm.trans hNone)).elim

theorem simulates_heap : service.Simulates Heap.service Mirrors := by
  intro m s c h hNot hLawful
  have hLawful' := h.lawful_iff.mp hLawful
  exact ⟨hLawful', h.call hNot hLawful'⟩

theorem heap_simulates : Heap.service.Simulates service fun s m => Mirrors m s := by
  intro s m c h hNot hLawful
  obtain ⟨hReply, hNext⟩ := h.call hNot hLawful
  exact ⟨h.lawful_iff.mpr hLawful, hReply.symm, hNext⟩

end ProcessHeap

end BlockHeap
