import BlockHeap.Proofs.Shadow
import Mathlib.Order.Bounds.Defs

/-!
# The first corrupted byte

Verification looks at the live payloads in address order, and at the bytes of each from its start
on. So what it reports is the first wrong byte of the lowest payload that has one.
-/

namespace BlockHeap.Shadow

/-- The byte at offset `i` of a payload of `size` bytes at `address` is not the pattern. -/
def WrongAt (m : Memory) (address size : Nat) (pattern : UInt8) (i : Nat) : Prop :=
  i < size ∧ m.byte (address + i) ≠ pattern

def Corrupted (s : Shadow) (m : Memory) (address : Nat) : Prop :=
  ∃ a, s.live.get? address = some a ∧ ∃ i, WrongAt m address a.size a.pattern i

variable {s : Shadow} {m : Memory} {address size i : Nat} {b c : UInt8} {rs : List ByteRun}
  {e : ShadowError}

theorem firstOther?_eq_some (h : firstOther? b rs = some (i, c)) :
    (ByteRun.expand rs)[i]? = some c ∧ c ≠ b ∧ ∀ j < i, (ByteRun.expand rs)[j]? = some b := by
  induction rs generalizing i with
  | nil => cases h
  | cons r rest ih =>
    rw [firstOther?] at h
    rw [ByteRun.expand_cons]
    have hLength : r.bytes.length = r.count := by simp [ByteRun.bytes]
    split at h
    · next hSkipped =>
      obtain ⟨⟨k, d⟩, hRest, hEq⟩ := Option.map_eq_some_iff.mp h
      obtain ⟨rfl, rfl⟩ := Prod.mk.inj hEq
      obtain ⟨hAt, hOther, hBefore⟩ := ih hRest
      refine ⟨?_, hOther, fun j hj => ?_⟩
      · rw [List.getElem?_append_right (by omega), hLength, Nat.add_sub_cancel_left]
        exact hAt
      · by_cases hRun : j < r.count
        · rw [List.getElem?_append_left (by omega), ByteRun.bytes, List.getElem?_replicate,
            if_pos hRun, hSkipped.resolve_left (by omega)]
        · rw [List.getElem?_append_right (by omega), hLength]
          exact hBefore _ (by omega)
    · next hFound =>
      obtain ⟨rfl, rfl⟩ := Prod.mk.inj (Option.some.inj h)
      rw [not_or] at hFound
      refine ⟨?_, hFound.2, fun j hj => absurd hj (Nat.not_lt_zero j)⟩
      rw [List.getElem?_append_left (by omega), ByteRun.bytes, List.getElem?_replicate,
        if_pos (by omega)]

theorem verifyBytes_eq_error (h : verifyBytes m address size b = .error e) :
    ∃ i, IsLeast {i | WrongAt m address size b i} i ∧
      e = .corrupted address i b (m.byte (address + i)) := by
  unfold verifyBytes at h
  split at h
  · cases h
  · next i c hFirst =>
    obtain rfl := Except.error.inj h
    obtain ⟨hAt, hOther, hBefore⟩ := firstOther?_eq_some hFirst
    rw [getElem?_runs] at hAt
    obtain ⟨hLt, hEq⟩ := Option.ite_none_right_eq_some.mp hAt
    obtain rfl := Option.some.inj hEq
    refine ⟨i, ⟨⟨hLt, hOther⟩, fun j hAt => ?_⟩, rfl⟩
    obtain ⟨hj, hWrong⟩ := hAt
    by_contra hLess
    have hRight := hBefore j (Nat.lt_of_not_le hLess)
    rw [getElem?_runs, if_pos hj] at hRight
    exact hWrong (Option.some.inj hRight)

theorem forM_eq_error {α ε : Type} {f : α → Except ε Unit} {xs : List α} {e : ε}
    (h : xs.forM f = .error e) :
    ∃ before x after, xs = before ++ x :: after ∧ (∀ y ∈ before, f y = .ok ()) ∧
      f x = .error e := by
  induction xs with
  | nil => cases h
  | cons x xs ih =>
    have hBind : (f x >>= fun _ => xs.forM f) = .error e := h
    cases hx : f x with
    | error d =>
      rw [hx] at hBind
      obtain rfl := Except.error.inj hBind
      exact ⟨[], x, xs, rfl, by simp, hx⟩
    | ok _ =>
      rw [hx] at hBind
      obtain ⟨before, y, after, hSplit, hBefore, hy⟩ := ih hBind
      refine ⟨x :: before, y, after, by rw [hSplit, List.cons_append], fun z hz => ?_, hy⟩
      rcases List.mem_cons.mp hz with rfl | hz
      · exact hx
      · exact hBefore z hz

theorem verify_eq_error (h : s.verify m = .error e) :
    ∃ p a i, s.live.get? p = some a ∧ IsLeast {p | s.Corrupted m p} p ∧
      IsLeast {i | WrongAt m p a.size a.pattern i} i ∧
      e = .corrupted p i a.pattern (m.byte (p + i)) := by
  obtain ⟨before, ⟨p, a⟩, after, hSplit, hBefore, hFailed⟩ := forM_eq_error h
  obtain ⟨i, hFirst, rfl⟩ := verifyBytes_eq_error hFailed
  have hLive : s.live.get? p = some a := OrderedMap.get?_eq_some_iff.mpr (by
    rw [hSplit]
    exact List.mem_append_right _ List.mem_cons_self)
  refine ⟨p, a, i, hLive, ⟨⟨a, hLive, i, hFirst.1⟩, fun q hq => ?_⟩, hFirst, rfl⟩
  obtain ⟨c, hOther, j, hj, hWrong⟩ := hq
  refine (OrderedMap.mem_or_le_of_split hSplit hOther).resolve_left fun hLeft => ?_
  exact hWrong (verifyBytes_eq_ok_iff.mp (hBefore _ hLeft) j hj)

/-- What verification reports, and when, is settled by the live payloads and their bytes. -/
theorem verify_eq_error_iff : s.verify m = .error e ↔
    ∃ p a i, s.live.get? p = some a ∧ IsLeast {p | s.Corrupted m p} p ∧
      IsLeast {i | WrongAt m p a.size a.pattern i} i ∧
      e = .corrupted p i a.pattern (m.byte (p + i)) := by
  refine ⟨verify_eq_error, ?_⟩
  rintro ⟨p, a, i, hLive, hLowest, hFirst, rfl⟩
  cases hVerify : s.verify m with
  | ok _ => exact absurd (verify_eq_ok_iff.mp hVerify p a hLive i hFirst.1.1) hFirst.1.2
  | error e =>
    obtain ⟨q, c, j, hLive', hLowest', hFirst', rfl⟩ := verify_eq_error hVerify
    obtain rfl : q = p := Nat.le_antisymm (hLowest'.2 hLowest.1) (hLowest.2 hLowest'.1)
    obtain rfl := Option.some.inj (hLive'.symm.trans hLive)
    obtain rfl : j = i := Nat.le_antisymm (hFirst'.2 hFirst.1) (hFirst.2 hFirst'.1)
    rfl

end BlockHeap.Shadow
