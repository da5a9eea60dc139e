import BlockHeap.Proofs.PowerOfTwo
import BlockHeap.Proofs.Shadow

/-!
# Overlapping payloads

Two payloads overlap if they start at the same address, or one starts strictly inside the other. An
empty payload has nothing inside; it is a point. A shadow only looks at the nearest live payload on
either side of a new one: since the live ones do not overlap each other, those behind the nearest
ones are out of reach, and the lowest that overlaps the new one is found.
-/

namespace BlockHeap.Shadow

/-- The address `x` lies inside the payload, and is not its start. -/
def StartsInside (x address size : Nat) : Prop := address < x ∧ x < address + size

/-- The live payload at `other` overlaps the one of `size` bytes at `address`. -/
def Overlapped (s : Shadow) (address size other : Nat) : Prop :=
  ∃ a, s.live.get? other = some a ∧
    (other = address ∨ StartsInside address other a.size ∨ StartsInside other address size)

/-- Live payloads end before the next one starts. -/
def Apart (s : Shadow) : Prop :=
  ∀ o a p b, s.live.get? o = some a → s.live.get? p = some b → o < p → o + a.size ≤ p

variable {s s' : Shadow} {m m' : Memory} {address size other o : Nat} {pattern : UInt8}
  {a : Allocation}

theorem not_startsInside_empty (x address : Nat) : ¬ StartsInside x address 0 := by
  unfold StartsInside
  omega

theorem overlapped_iff_of_live (hLive : s.live.get? other = some a) :
    s.Overlapped address size other ↔
      other = address ∨ StartsInside address other a.size ∨ StartsInside other address size := by
  unfold Overlapped
  rw [hLive]
  simp

theorem overlapped_iff_of_le (hLe : other ≤ address) : s.Overlapped address size other ↔
    ∃ a, s.live.get? other = some a ∧ (other = address ∨ address < other + a.size) := by
  refine exists_congr fun a => and_congr_right fun _ => ?_
  unfold StartsInside
  omega

theorem overlapped_iff_of_lt (hLt : address < other) : s.Overlapped address size other ↔
    ∃ a, s.live.get? other = some a ∧ other < address + size := by
  refine exists_congr fun a => and_congr_right fun _ => ?_
  unfold StartsInside
  omega

/-- Of the live payloads at or below an address, only the nearest can reach it: any other ends where
the nearest starts, or before. -/
theorem Apart.floor?_of_overlapped (hs : s.Apart) (hLe : other ≤ address)
    (h : s.Overlapped address size other) :
    ∃ a, s.live.floor? address = some (other, a) ∧
      (other = address ∨ address < other + a.size) := by
  obtain ⟨a, hLive, hReach⟩ := (overlapped_iff_of_le hLe).mp h
  obtain ⟨f, b, hFloor⟩ := OrderedMap.exists_floor? hLive hLe
  obtain ⟨hNearest, hBelow⟩ := OrderedMap.get?_of_floor? hFloor
  have hBetween := OrderedMap.le_floor? hFloor hLive hLe
  have hSame : f = other := by
    by_contra hNot
    have hEnd := hs other a f b hLive hNearest (by omega)
    omega
  subst hSame
  obtain rfl := Option.some.inj (hNearest.symm.trans hLive)
  exact ⟨b, hFloor, hReach⟩

theorem isLeast_of_conflict? (hs : s.Apart) (h : s.conflict? address size = some other) :
    IsLeast {o | s.Overlapped address size o} other := by
  obtain ⟨⟨other, a⟩, hFound, rfl⟩ := Option.map_eq_some_iff.mp h
  rcases Option.or_eq_some_iff.mp hFound with hBelow | ⟨hNone, hAbove⟩
  · obtain ⟨hFloor, hReach⟩ := Option.filter_eq_some_iff.mp hBelow
    obtain ⟨hLive, hLe⟩ := OrderedMap.get?_of_floor? hFloor
    refine ⟨(overlapped_iff_of_le hLe).mpr ⟨a, hLive, by simpa using hReach⟩, fun o ho => ?_⟩
    by_cases hSide : o ≤ address
    · obtain ⟨_, hFloor', _⟩ := hs.floor?_of_overlapped hSide ho
      exact Nat.le_of_eq (congrArg Prod.fst (Option.some.inj (hFloor.symm.trans hFloor')))
    · omega
  · obtain ⟨hCeiling, hReach⟩ := Option.filter_eq_some_iff.mp hAbove
    obtain ⟨hLive, hLe⟩ := OrderedMap.get?_of_ceiling? hCeiling
    have hReach : other < address + size := by simpa using hReach
    refine ⟨⟨a, hLive, ?_⟩, fun o ho => ?_⟩
    · unfold StartsInside
      omega
    · by_cases hSide : o ≤ address
      · obtain ⟨b, hFloor, hReach'⟩ := hs.floor?_of_overlapped hSide ho
        have hTest := Option.filter_eq_none_iff.mp hNone _ hFloor
        exact absurd (by simpa using hReach') hTest
      · obtain ⟨b, hOther, _⟩ := (overlapped_iff_of_lt (Nat.lt_of_not_le hSide)).mp ho
        exact OrderedMap.ceiling?_le hCeiling hOther (by omega)

theorem conflict?_eq_none_iff (hs : s.Apart) :
    s.conflict? address size = none ↔ ∀ other, ¬ s.Overlapped address size other := by
  constructor
  · intro hNone other h
    rw [conflict?, Option.map_eq_none_iff, Option.or_eq_none_iff, Option.filter_eq_none_iff,
      Option.filter_eq_none_iff] at hNone
    obtain ⟨hBelow, hAbove⟩ := hNone
    by_cases hSide : other ≤ address
    · obtain ⟨a, hFloor, hReach⟩ := hs.floor?_of_overlapped hSide h
      exact absurd (by simpa using hReach) (hBelow _ hFloor)
    · obtain ⟨a, hLive, hReach⟩ := (overlapped_iff_of_lt (Nat.lt_of_not_le hSide)).mp h
      obtain ⟨c, b, hCeiling⟩ := OrderedMap.exists_ceiling? hLive (Nat.le_of_not_le hSide)
      have hNearest := OrderedMap.ceiling?_le hCeiling hLive (Nat.le_of_not_le hSide)
      have hFar := hAbove _ hCeiling
      simp only [decide_eq_true_eq] at hFar
      omega
  · intro hClear
    by_contra hSome
    obtain ⟨other, hFound⟩ := Option.ne_none_iff_exists'.mp hSome
    exact hClear other (isLeast_of_conflict? hs hFound).1

theorem insert_eq_ok_iff : s.insert m address size pattern = .ok (s', m') ↔
    s.alignment.value ∣ address ∧ s.conflict? address size = none ∧
      s' = { s with live := s.live.insert address ⟨size, pattern⟩ } ∧
      m' = m.fill address size pattern := by
  rw [Nat.dvd_iff_mod_eq_zero, ← PowerOfTwo.rem_eq]
  unfold insert
  by_cases hAligned : s.alignment.rem address = 0
  · rw [if_neg (not_not_intro hAligned)]
    cases hConflict : s.conflict? address size with
    | some other => simp
    | none => simp [hAligned, eq_comm]
  · rw [if_pos hAligned]
    simp [hAligned]

theorem insert_eq_error_iff {e : ShadowError} : s.insert m address size pattern = .error e ↔
    (¬ s.alignment.value ∣ address ∧ e = .misaligned address) ∨
    (s.alignment.value ∣ address ∧
      ∃ other, s.conflict? address size = some other ∧ e = .overlap address other) := by
  rw [Nat.dvd_iff_mod_eq_zero, ← PowerOfTwo.rem_eq]
  unfold insert
  by_cases hAligned : s.alignment.rem address = 0
  · rw [if_neg (not_not_intro hAligned)]
    cases hConflict : s.conflict? address size with
    | some other => simp [hAligned, eq_comm]
    | none => simp [hAligned]
  · rw [if_pos hAligned]
    simp [hAligned, eq_comm]

theorem insert_eq_misaligned_iff :
    s.insert m address size pattern = .error (.misaligned address) ↔
      ¬ s.alignment.value ∣ address := by
  rw [insert_eq_error_iff]
  simp

theorem exists_overlap_iff (hs : s.Apart) (hAligned : s.alignment.value ∣ address) :
    (∃ o, s.insert m address size pattern = .error (.overlap address o)) ↔
      ∃ o, s.Overlapped address size o := by
  constructor
  · rintro ⟨o, h⟩
    rcases insert_eq_error_iff.mp h with ⟨hNot, _⟩ | ⟨_, other, hConflict, _⟩
    · exact absurd hAligned hNot
    · exact ⟨other, (isLeast_of_conflict? hs hConflict).1⟩
  · rintro ⟨o, hOver⟩
    cases hConflict : s.conflict? address size with
    | none => exact absurd hOver ((conflict?_eq_none_iff hs).mp hConflict o)
    | some other => exact ⟨other, insert_eq_error_iff.mpr (.inr ⟨hAligned, other, hConflict, rfl⟩)⟩

theorem isLeast_of_overlap (hs : s.Apart)
    (h : s.insert m address size pattern = .error (.overlap address other)) :
    IsLeast {o | s.Overlapped address size o} other := by
  rcases insert_eq_error_iff.mp h with ⟨_, hEq⟩ | ⟨_, o, hConflict, hEq⟩
  · cases hEq
  · cases hEq
    exact isLeast_of_conflict? hs hConflict

theorem exists_insert_eq_ok (hs : s.Apart) (hAligned : s.alignment.value ∣ address)
    (hClear : ∀ o, ¬ s.Overlapped address size o) :
    ∃ s' m', s.insert m address size pattern = .ok (s', m') :=
  ⟨_, _, insert_eq_ok_iff.mpr ⟨hAligned, (conflict?_eq_none_iff hs).mpr hClear, rfl, rfl⟩⟩

theorem get?_insert_of_ok (h : s.insert m address size pattern = .ok (s', m')) (o : Nat) :
    s'.live.get? o = if o = address then some ⟨size, pattern⟩ else s.live.get? o := by
  obtain ⟨_, _, rfl, _⟩ := insert_eq_ok_iff.mp h
  exact OrderedMap.get?_insert _ _ _ _

theorem byte_insert_of_ok (h : s.insert m address size pattern = .ok (s', m')) (x : Nat) :
    m'.byte x = if address ≤ x ∧ x < address + size then pattern else m.byte x := by
  obtain ⟨_, _, _, rfl⟩ := insert_eq_ok_iff.mp h
  exact Memory.byte_fill _ _ _ _ _

theorem Apart.of_insert (hs : s.Apart) (h : s.insert m address size pattern = .ok (s', m'))
    (hLive : s.live.get? o = some a) :
    o < address ∧ o + a.size ≤ address ∨ address < o ∧ address + size ≤ o := by
  obtain ⟨_, hNone, _⟩ := insert_eq_ok_iff.mp h
  have hClear := (conflict?_eq_none_iff hs).mp hNone o
  rcases Nat.lt_or_ge address o with hLt | hLe
  · rw [overlapped_iff_of_lt hLt] at hClear
    have hFar : ¬ o < address + size := fun hReach => hClear ⟨a, hLive, hReach⟩
    omega
  · rw [overlapped_iff_of_le hLe] at hClear
    have hFar : ¬ (o = address ∨ address < o + a.size) := fun hReach => hClear ⟨a, hLive, hReach⟩
    omega

theorem Apart.get?_insert_iff (hs : s.Apart)
    (h : s.insert m address size pattern = .ok (s', m')) :
    s'.live.get? o = some a ↔ s.live.get? o = some a ∨ (o = address ∧ a = ⟨size, pattern⟩) := by
  rw [get?_insert_of_ok h]
  split
  · next hNew =>
    have hNone : s.live.get? o ≠ some a := fun hLive => by
      have hBetween := hs.of_insert h hLive
      omega
    rw [Option.some.injEq, or_iff_right hNone, and_iff_right hNew, eq_comm]
  · next hOther => exact (or_iff_left fun hNew => hOther hNew.1).symm

theorem Apart.insert (hs : s.Apart) (h : s.insert m address size pattern = .ok (s', m')) :
    s'.Apart := by
  intro o a p b ho hp hLt
  rw [get?_insert_of_ok h] at ho hp
  split at ho
  · next hNew =>
    obtain rfl := Option.some.inj ho
    rw [if_neg (by omega)] at hp
    have hBetween := hs.of_insert h hp
    simp only
    omega
  · split at hp
    · next hNew =>
      have hBetween := hs.of_insert h ho
      omega
    · exact hs o a p b ho hp hLt

theorem get?_remove_iff : (s.remove address).2.live.get? o = some a ↔
    o ≠ address ∧ s.live.get? o = some a := by
  rw [remove, OrderedMap.get?_erase, Option.ite_none_left_eq_some]

theorem get?_of_remove (h : (s.remove address).2.live.get? o = some a) :
    s.live.get? o = some a := (get?_remove_iff.mp h).2

theorem Apart.remove (hs : s.Apart) (address : Nat) : (s.remove address).2.Apart :=
  fun o a p b ho hp hLt => hs o a p b (get?_of_remove ho) (get?_of_remove hp) hLt

end BlockHeap.Shadow
