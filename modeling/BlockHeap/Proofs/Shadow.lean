import BlockHeap.Proofs.OrderedMap
import BlockHeap.Shadow

/-!
# What a shadow accepts

A payload verifies if and only if all its bytes are the pattern, and a new payload is recorded
whenever it is aligned and apart from the live ones.
-/

namespace BlockHeap.Shadow

variable {s : Shadow} {m : Memory} {address count size i : Nat} {b : UInt8} {rs : List ByteRun}

theorem firstOther?_eq_none_iff : firstOther? b rs = none ↔ ∀ c ∈ ByteRun.expand rs, c = b := by
  induction rs with
  | nil => simp [firstOther?]
  | cons r rest ih =>
    rw [firstOther?, ByteRun.expand_cons, List.forall_mem_append, ByteRun.bytes]
    split
    · next hRun =>
      have hHead : ∀ c ∈ List.replicate r.count r.byte, c = b := fun c hc => by
        obtain ⟨hCount, rfl⟩ := List.mem_replicate.mp hc
        exact hRun.resolve_left hCount
      rw [Option.map_eq_none_iff, ih]
      exact (and_iff_right hHead).symm
    · next hRun =>
      rw [not_or] at hRun
      refine iff_of_false (Option.some_ne_none _) fun hAll => ?_
      exact hRun.2 (hAll.1 r.byte (List.mem_replicate.mpr ⟨hRun.1, rfl⟩))

theorem getElem?_runs : (ByteRun.expand (m.runs address count))[i]? =
    if i < count then some (m.byte (address + i)) else none := by
  rw [Memory.expand_runs, Memory.read, getElem?_window]

theorem verifyBytes_eq_ok_iff :
    verifyBytes m address count b = .ok () ↔ ∀ i < count, m.byte (address + i) = b := by
  have hNone : verifyBytes m address count b = .ok () ↔
      firstOther? b (m.runs address count) = none := by
    unfold verifyBytes
    split
    · next h => exact iff_of_true rfl h
    · next h => exact iff_of_false nofun (by simp [h])
  rw [hNone, firstOther?_eq_none_iff]
  constructor
  · intro h i hi
    exact h _ (List.mem_of_getElem? (getElem?_runs.trans (if_pos hi)))
  · intro h c hc
    obtain ⟨i, hi⟩ := List.mem_iff_getElem?.mp hc
    rw [getElem?_runs] at hi
    obtain ⟨hLt, hEq⟩ := Option.ite_none_right_eq_some.mp hi
    exact (Option.some.inj hEq).symm.trans (h i hLt)

theorem forM_eq_ok_iff {α ε : Type} {f : α → Except ε Unit} {xs : List α} :
    xs.forM f = .ok () ↔ ∀ x ∈ xs, f x = .ok () := by
  induction xs with
  | nil => exact iff_of_true rfl (by simp)
  | cons x xs ih =>
    rw [List.forall_mem_cons, ← ih]
    show (f x >>= fun _ => xs.forM f) = .ok () ↔ _
    cases f x with
    | error e => exact iff_of_false nofun fun h => nomatch h.1
    | ok _ => exact (and_iff_right rfl).symm

theorem verify_eq_ok_iff : s.verify m = .ok () ↔ ∀ p a, s.live.get? p = some a →
    ∀ i < a.size, m.byte (p + i) = a.pattern := by
  rw [verify, forM_eq_ok_iff]
  constructor
  · intro h p a hLive
    exact verifyBytes_eq_ok_iff.mp (h _ (OrderedMap.get?_eq_some_iff.mp hLive))
  · rintro h ⟨p, a⟩ hMem
    exact verifyBytes_eq_ok_iff.mpr (h p a (OrderedMap.get?_eq_some_iff.mpr hMem))

theorem conflict?_eq_none (h : ∀ other a, s.live.get? other = some a →
    other + a.size ≤ address ∧ other < address ∨ address + size ≤ other ∧ address < other) :
    s.conflict? address size = none := by
  rw [conflict?, Option.map_eq_none_iff, Option.or_eq_none_iff, Option.filter_eq_none_iff,
    Option.filter_eq_none_iff]
  constructor
  · rintro ⟨other, a⟩ hFloor
    obtain ⟨hLive, hLe⟩ := OrderedMap.get?_of_floor? hFloor
    have hApart := h other a hLive
    simp only [Bool.or_eq_true, beq_iff_eq, decide_eq_true_eq]
    omega
  · rintro ⟨other, a⟩ hCeiling
    obtain ⟨hLive, hLe⟩ := OrderedMap.get?_of_ceiling? hCeiling
    have hApart := h other a hLive
    simp only [decide_eq_true_eq]
    omega

theorem insert_of_apart (m : Memory) (pattern : UInt8) (hAligned : s.alignment.rem address = 0)
    (hApart : ∀ other a, s.live.get? other = some a →
      other + a.size ≤ address ∧ other < address ∨ address + size ≤ other ∧ address < other) :
    s.insert m address size pattern = .ok
      ({ s with live := s.live.insert address ⟨size, pattern⟩ }, m.fill address size pattern) := by
  unfold insert
  rw [if_neg (not_not_intro hAligned), conflict?_eq_none hApart]

end BlockHeap.Shadow
