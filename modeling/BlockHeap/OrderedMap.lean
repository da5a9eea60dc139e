/-!
# Ordered maps

A finite map from numbers, kept as the list of its entries with strictly increasing keys. The view
of a map is `get?`; the order shows in `entries`, and in the nearest entry at or below, or at or
above, a key.
-/

namespace BlockHeap

structure OrderedMap (α : Type) where
  entries : List (Nat × α) := []
  sorted : entries.Pairwise (·.1 < ·.1) := by exact List.Pairwise.nil

namespace OrderedMap

variable {α : Type}

def size (m : OrderedMap α) : Nat := m.entries.length

def isEmpty (m : OrderedMap α) : Bool := m.entries.isEmpty

def keys (m : OrderedMap α) : List Nat := m.entries.map Prod.fst

def values (m : OrderedMap α) : List α := m.entries.map Prod.snd

def get? (m : OrderedMap α) (k : Nat) : Option α := (m.entries.find? (·.1 == k)).map Prod.snd

def contains (m : OrderedMap α) (k : Nat) : Bool := (m.get? k).isSome

def floor? (m : OrderedMap α) (k : Nat) : Option (Nat × α) := (m.entries.filter (·.1 ≤ k)).getLast?

def ceiling? (m : OrderedMap α) (k : Nat) : Option (Nat × α) := m.entries.find? (k ≤ ·.1)

def insertEntry (k : Nat) (a : α) (es : List (Nat × α)) : List (Nat × α) :=
  es.filter (·.1 < k) ++ (k, a) :: es.filter (k < ·.1)

def insert (m : OrderedMap α) (k : Nat) (a : α) : OrderedMap α where
  entries := insertEntry k a m.entries
  sorted := by
    refine List.pairwise_append.mpr
      ⟨m.sorted.filter _, List.pairwise_cons.mpr ⟨?_, m.sorted.filter _⟩, ?_⟩
    · intro e he
      simpa using (List.mem_filter.mp he).2
    · intro e he f hf
      have h1 : e.1 < k := by simpa using (List.mem_filter.mp he).2
      rcases List.mem_cons.mp hf with rfl | hf
      · exact h1
      · have h2 : k < f.1 := by simpa using (List.mem_filter.mp hf).2
        exact Nat.lt_trans h1 h2

def erase (m : OrderedMap α) (k : Nat) : OrderedMap α where
  entries := m.entries.filter (·.1 != k)
  sorted := m.sorted.filter _

theorem find?_filter_key (es : List (Nat × α)) (p : Nat → Bool) (j : Nat) :
    (es.filter fun e => p e.1).find? (·.1 == j) = if p j then es.find? (·.1 == j) else none := by
  induction es with
  | nil => simp
  | cons e es ih =>
    by_cases he : e.1 = j
    · subst he
      by_cases hp : p e.1 = true
      · simp [hp]
      · simp [hp] at ih ⊢
        exact ih
    · by_cases hp : p e.1 = true
      · simp [hp, he, ih]
      · simp [hp, he, ih]

theorem get?_insert (m : OrderedMap α) (k j : Nat) (a : α) :
    (m.insert k a).get? j = if j = k then some a else m.get? j := by
  simp only [get?, insert, insertEntry, List.find?_append, List.find?_cons,
    find?_filter_key _ (fun i => decide (i < k)), find?_filter_key _ (fun i => decide (k < i))]
  by_cases h : j = k
  · subst h
    simp
  · have hk : (k == j) = false := by simpa using fun e => h e.symm
    rw [hk, if_neg h]
    rcases Nat.lt_or_gt_of_ne h with hlt | hgt
    · simp [hlt, Nat.lt_asymm hlt]
    · simp [hgt, Nat.lt_asymm hgt]

theorem get?_erase (m : OrderedMap α) (k j : Nat) :
    (m.erase k).get? j = if j = k then none else m.get? j := by
  simp only [get?, erase, find?_filter_key _ (· != k)]
  by_cases h : j = k
  · simp [h]
  · simp [h]

end OrderedMap

end BlockHeap
