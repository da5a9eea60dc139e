import BlockHeap.OrderedMap
import Mathlib.Data.List.Basic

/-!
# Entries of ordered maps

The entries of a map are what `get?` finds, and the values are known up to their order: inserting at
a new key adds a value to them, and erasing a key takes its value away. The floor and the ceiling of
a key are its nearest entries.
-/

namespace BlockHeap.OrderedMap

def empty {α : Type} : OrderedMap α := {}

variable {α : Type} {m : OrderedMap α} {i j k : Nat} {a b : α}

theorem get?_eq_some_iff : m.get? k = some a ↔ (k, a) ∈ m.entries := by
  constructor
  · intro h
    obtain ⟨e, hFind, rfl⟩ := Option.map_eq_some_iff.mp h
    have hKey : e.1 = k := by simpa using List.find?_some hFind
    exact hKey ▸ List.mem_of_find?_eq_some hFind
  · intro h
    obtain ⟨xs, ys, hSplit⟩ := List.append_of_mem h
    have hSorted := m.sorted
    rw [hSplit] at hSorted
    have hFind : m.entries.find? (·.1 == k) = some (k, a) := by
      refine List.find?_eq_some_iff_append.mpr ⟨beq_self_eq_true k, xs, ys, hSplit, fun e he => ?_⟩
      have hLt := (List.pairwise_append.mp hSorted).2.2 e he (k, a) List.mem_cons_self
      simpa using Nat.ne_of_lt hLt
    rw [get?, hFind]
    rfl

theorem mem_values_iff : a ∈ m.values ↔ ∃ k, m.get? k = some a := by
  simp only [get?_eq_some_iff, values, List.mem_map]
  constructor
  · rintro ⟨⟨k, b⟩, hMem, rfl⟩
    exact ⟨k, hMem⟩
  · rintro ⟨k, hMem⟩
    exact ⟨(k, a), hMem, rfl⟩

theorem values_insert_perm (h : m.get? k = none) (a : α) :
    (m.insert k a).values.Perm (a :: m.values) := by
  have hOther : ∀ e ∈ m.entries, decide (k < e.1) = !decide (e.1 < k) := by
    intro e he
    have hNe : e.1 ≠ k := fun hEq => by
      have hSome := get?_eq_some_iff.mpr (hEq ▸ he : (k, e.2) ∈ m.entries)
      exact Option.some_ne_none _ (hSome.symm.trans h)
    rw [← decide_not, decide_eq_decide]
    omega
  have hEntries : (m.insert k a).entries.Perm ((k, a) :: m.entries) := by
    show (m.entries.filter (·.1 < k) ++ (k, a) :: m.entries.filter (k < ·.1)).Perm _
    rw [List.filter_congr hOther]
    exact List.perm_middle.trans ((List.filter_append_perm _ m.entries).cons _)
  exact hEntries.map Prod.snd

theorem values_perm_erase (h : m.get? k = some a) : m.values.Perm (a :: (m.erase k).values) := by
  obtain ⟨xs, ys, hSplit⟩ := List.append_of_mem (get?_eq_some_iff.mp h)
  have hSorted := m.sorted
  rw [hSplit] at hSorted
  obtain ⟨_, hRight, hLeft⟩ := List.pairwise_append.mp hSorted
  have hErased : (m.erase k).entries = xs ++ ys := by
    show m.entries.filter (·.1 != k) = _
    rw [hSplit, List.filter_append, List.filter_cons_of_neg (by simp),
      List.filter_eq_self.mpr fun e he => ?_, List.filter_eq_self.mpr fun e he => ?_]
    · have hLt := (List.pairwise_cons.mp hRight).1 e he
      simpa using Nat.ne_of_gt hLt
    · have hLt := hLeft e he (k, a) List.mem_cons_self
      simpa using Nat.ne_of_lt hLt
  have hEntries : m.entries.Perm ((k, a) :: (m.erase k).entries) := by
    rw [hSplit, hErased]
    exact List.perm_middle
  exact hEntries.map Prod.snd

theorem nodup_keys (m : OrderedMap α) : m.keys.Nodup :=
  List.pairwise_map.mpr (m.sorted.imp Nat.ne_of_lt)

theorem mem_keys_iff : k ∈ m.keys ↔ ∃ a, m.get? k = some a := by
  simp only [get?_eq_some_iff, keys, List.mem_map]
  constructor
  · rintro ⟨⟨j, a⟩, hMem, rfl⟩
    exact ⟨a, hMem⟩
  · rintro ⟨a, hMem⟩
    exact ⟨(k, a), hMem, rfl⟩

theorem entries_erase {es : List (Nat × α)} (h : m.entries = (k, a) :: es) :
    (m.erase k).entries = es := by
  have hSorted := m.sorted
  rw [h] at hSorted
  show m.entries.filter (·.1 != k) = es
  rw [h, List.filter_cons_of_neg (by simp), List.filter_eq_self.mpr fun e he => ?_]
  have hLt := (List.pairwise_cons.mp hSorted).1 e he
  simpa using Nat.ne_of_gt hLt

theorem eq_of_get? (hNodup : m.values.Nodup) (hj : m.get? j = some a) (hk : m.get? k = some a) :
    j = k := by
  by_contra hNe
  have hErased : a ∉ (m.erase k).values :=
    (List.nodup_cons.mp ((values_perm_erase hk).nodup_iff.mp hNodup)).1
  refine hErased (mem_values_iff.mpr ⟨j, ?_⟩)
  rw [get?_erase, if_neg hNe, hj]

theorem get?_of_floor? (h : m.floor? k = some (j, a)) : m.get? j = some a ∧ j ≤ k := by
  obtain ⟨hMem, hLe⟩ := List.mem_filter.mp (List.mem_of_getLast? h)
  exact ⟨get?_eq_some_iff.mpr hMem, of_decide_eq_true hLe⟩

theorem get?_of_ceiling? (h : m.ceiling? k = some (j, a)) : m.get? j = some a ∧ k ≤ j :=
  ⟨get?_eq_some_iff.mpr (List.mem_of_find?_eq_some h), of_decide_eq_true (List.find?_some h :)⟩

theorem le_floor? (h : m.floor? k = some (j, a)) (hMem : m.get? i = some b) (hLe : i ≤ k) :
    i ≤ j := by
  obtain ⟨es, hLast⟩ := List.getLast?_eq_some_iff.mp h
  have hSorted := m.sorted.filter (·.1 ≤ k)
  have hIn : (i, b) ∈ m.entries.filter (·.1 ≤ k) :=
    List.mem_filter.mpr ⟨get?_eq_some_iff.mp hMem, decide_eq_true hLe⟩
  rw [hLast] at hSorted hIn
  rcases List.mem_append.mp hIn with hBefore | hEnd
  · exact Nat.le_of_lt ((List.pairwise_append.mp hSorted).2.2 _ hBefore _ List.mem_cons_self)
  · exact Nat.le_of_eq (congrArg Prod.fst (List.mem_singleton.mp hEnd))

theorem exists_floor? (hMem : m.get? i = some b) (hLe : i ≤ k) :
    ∃ j a, m.floor? k = some (j, a) := by
  have hIn : (i, b) ∈ m.entries.filter (·.1 ≤ k) :=
    List.mem_filter.mpr ⟨get?_eq_some_iff.mp hMem, decide_eq_true hLe⟩
  exact ⟨_, _, List.getLast?_eq_some_getLast (List.ne_nil_of_mem hIn)⟩

theorem mem_or_le_of_split {xs ys : List (Nat × α)} (h : m.entries = xs ++ (j, a) :: ys)
    (hMem : m.get? i = some b) : (i, b) ∈ xs ∨ j ≤ i := by
  have hSorted := m.sorted
  have hIn := get?_eq_some_iff.mp hMem
  rw [h] at hSorted hIn
  rcases List.mem_append.mp hIn with hBefore | hRest
  · exact .inl hBefore
  · rcases List.mem_cons.mp hRest with hHere | hAfter
    · exact .inr (Nat.le_of_eq (congrArg Prod.fst hHere).symm)
    · have hTail := (List.pairwise_append.mp hSorted).2.1
      exact .inr (Nat.le_of_lt ((List.pairwise_cons.mp hTail).1 _ hAfter))

theorem ceiling?_le (h : m.ceiling? k = some (j, a)) (hMem : m.get? i = some b) (hLe : k ≤ i) :
    j ≤ i := by
  obtain ⟨_, xs, ys, hSplit, hBefore⟩ := List.find?_eq_some_iff_append.mp h
  refine (mem_or_le_of_split hSplit hMem).resolve_left fun hLeft => ?_
  have hLess := hBefore _ hLeft
  simp only [Bool.not_eq_true', decide_eq_false_iff_not] at hLess
  exact hLess hLe

theorem exists_ceiling? (hMem : m.get? i = some b) (hLe : k ≤ i) :
    ∃ j a, m.ceiling? k = some (j, a) := by
  cases hFind : m.ceiling? k with
  | some e => exact ⟨e.1, e.2, rfl⟩
  | none =>
    have hNone := List.find?_eq_none.mp hFind _ (get?_eq_some_iff.mp hMem)
    exact absurd (decide_eq_true hLe) hNone

end BlockHeap.OrderedMap
