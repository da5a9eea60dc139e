import BlockHeap.FreeList
import BlockHeap.Proofs.Region.Keeps
import Mathlib.Data.List.Induction

/-!
# Linked nodes

`Linked r a ns b` is the list of nodes as it stands in memory: from `a` the next links lead over
`ns` to `b`, and the previous links lead the same way back. Pushing and removing a node are local
edits of this relation, provided that no two nodes share a byte, and they write to nothing but the
nodes.
-/

namespace BlockHeap.FreeList

def Linked (r : Region) : (a : Nat) → (ns : List Nat) → (b : Nat) → Prop
  | a, [], b => next r a = b ∧ prev r b = a
  | a, n :: ns, b => next r a = n ∧ prev r n = a ∧ Linked r n ns b

def Apart (m n : Nat) : Prop := m + nodeSize ≤ n ∨ n + nodeSize ≤ m

instance (m n : Nat) : Decidable (Apart m n) := inferInstanceAs (Decidable (_ ∨ _))

/-- No two of the nodes share a byte, the two ends included. -/
def Spread (a : Nat) (ns : List Nat) (b : Nat) : Prop := (a :: (ns ++ [b])).Pairwise Apart

def NodeAt (r : Region) (n x : Nat) : Prop := r.address n ≤ x ∧ x < r.address n + nodeSize

variable {K : Nat → Prop} {r s : Region} {l : FreeList} {a b m n : Nat} {ns xs ys : List Nat}

theorem Apart.symm (h : Apart m n) : Apart n m := Or.symm h

theorem linked_append_cons :
    Linked r a (xs ++ n :: ys) b ↔ Linked r a xs n ∧ Linked r n ys b := by
  induction xs generalizing a with
  | nil => exact and_assoc.symm
  | cons m xs ih =>
    simp only [List.cons_append, Linked]
    rw [ih, and_assoc, and_assoc]

theorem Linked.congr (h : Linked r a ns b) (hNext : ∀ m ∈ a :: ns, next s m = next r m)
    (hPrev : ∀ m ∈ ns ++ [b], prev s m = prev r m) : Linked s a ns b := by
  induction ns generalizing a with
  | nil =>
    exact ⟨(hNext a List.mem_cons_self).trans h.1, (hPrev b List.mem_cons_self).trans h.2⟩
  | cons n ns ih =>
    obtain ⟨hn, hp, hRest⟩ := h
    refine ⟨(hNext a List.mem_cons_self).trans hn, (hPrev n List.mem_cons_self).trans hp,
      ih hRest ?_ ?_⟩
    · exact fun m hm => hNext m (List.mem_cons_of_mem _ hm)
    · exact fun m hm => hPrev m (List.mem_cons_of_mem _ hm)

theorem Linked.prev_mem (h : Linked r a ns b) : prev r b ∈ a :: ns := by
  induction ns generalizing a with
  | nil => exact h.2 ▸ List.mem_cons_self
  | cons n ns ih => exact List.mem_cons_of_mem _ (ih h.2.2)

theorem Linked.next_mem (h : Linked r a ns b) : next r a ∈ ns ++ [b] := by
  cases ns with
  | nil => exact h.1 ▸ List.mem_cons_self
  | cons n ns => exact h.1 ▸ List.mem_cons_self

theorem Linked.last_lt (h : Linked r a ns b) : b < wordLimit := by
  induction ns generalizing a with
  | nil =>
    rw [← h.1]
    exact r.word_lt _
  | cons n ns ih => exact ih h.2.2

theorem Spread.tail (h : Spread a (n :: ns) b) : Spread n ns b := (List.pairwise_cons.mp h).2

theorem Spread.head (h : Spread a ns b) (hm : m ∈ ns ++ [b]) : Apart a m :=
  (List.pairwise_cons.mp h).1 m hm

theorem Spread.last (h : Spread a ns b) (hm : m ∈ a :: ns) : Apart m b := by
  have hEnds := List.pairwise_append.mp (show ((a :: ns) ++ [b]).Pairwise Apart from h)
  exact hEnds.2.2 m hm b List.mem_cons_self

theorem mem_of_right {k : Nat} (h : k ∈ ys ++ [b]) : k ∈ (xs ++ n :: ys) ++ [b] := by
  rw [List.append_assoc, List.cons_append]
  exact List.mem_append_right _ (List.mem_cons_of_mem _ h)

theorem not_apart_self : ¬ Apart n n := by
  unfold Apart nodeSize wordSize
  omega

theorem Spread.nodup (h : Spread a ns b) : ns.Nodup := by
  have hApart : ns.Pairwise Apart := h.sublist (.cons a (List.sublist_append_left ns [b]))
  refine hApart.imp ?_
  rintro m k hAt rfl
  exact not_apart_self hAt

theorem Spread.first_not_mem (h : Spread a ns b) : a ∉ ns := fun hMem =>
  not_apart_self (h.head (List.mem_append_left _ hMem))

theorem Spread.last_not_mem (h : Spread a ns b) : b ∉ ns := fun hMem =>
  not_apart_self (h.last (List.mem_cons_of_mem _ hMem))

theorem Spread.erase (h : Spread a (xs ++ n :: ys) b) : Spread a (xs ++ ys) b := by
  refine List.Pairwise.sublist (List.Sublist.cons_cons a (List.Sublist.append_right ?_ [b])) h
  exact List.Sublist.append_left (List.sublist_cons_self n ys) xs

theorem Spread.concat (h : Spread a ns b) (hn : ∀ m ∈ a :: b :: ns, Apart n m) :
    Spread a (ns ++ [n]) b := by
  have hFront : (n :: a :: (ns ++ [b])).Pairwise Apart :=
    List.pairwise_cons.mpr ⟨fun m hm => hn m (by simpa [or_comm] using hm), h⟩
  have hPerm : (n :: a :: (ns ++ [b])).Perm (a :: (ns ++ [n] ++ [b])) := by
    rw [List.append_assoc]
    exact (List.Perm.swap a n _).trans (List.perm_middle.symm.cons a)
  exact (hPerm.pairwise_iff Apart.symm).mp hFront

theorem next_setPrev (h : m = n ∨ Apart m n) (v : Nat) : next (setPrev r n v) m = next r m := by
  apply r.word_setWord_of_disjoint
  unfold Apart nodeSize wordSize at *
  omega

theorem prev_setNext (h : m = n ∨ Apart m n) (v : Nat) : prev (setNext r n v) m = prev r m := by
  apply r.word_setWord_of_disjoint
  unfold Apart nodeSize wordSize at *
  omega

theorem next_setNext (h : Apart m n) (v : Nat) : next (setNext r n v) m = next r m := by
  apply r.word_setWord_of_disjoint
  unfold Apart nodeSize wordSize at *
  omega

theorem prev_setPrev (h : Apart m n) (v : Nat) : prev (setPrev r n v) m = prev r m := by
  apply r.word_setWord_of_disjoint
  unfold Apart nodeSize wordSize at *
  omega

theorem next_setNext_self {v : Nat} (h : v < wordLimit) : next (setNext r n v) n = v :=
  r.word_setWord _ h

theorem prev_setPrev_self {v : Nat} (h : v < wordLimit) : prev (setPrev r n v) n = v :=
  r.word_setWord _ h

theorem prev_lt (r : Region) (n : Nat) : prev r n < wordLimit := r.word_lt _

theorem next_lt (r : Region) (n : Nat) : next r n < wordLimit := r.word_lt _

theorem linked_bridge (h : Linked r n ys b) (hSpread : Spread a (n :: ys) b) (ha : a < wordLimit) :
    Linked (setPrev (setNext r a (next r n)) (next r n) a) a ys b := by
  have hEnds : Apart a (next r n) := hSpread.head (List.mem_cons_of_mem _ h.next_mem)
  have hFirst : next (setPrev (setNext r a (next r n)) (next r n) a) a = next r n := by
    rw [next_setPrev (.inr hEnds), next_setNext_self (next_lt r n)]
  have hSecond : prev (setPrev (setNext r a (next r n)) (next r n) a) (next r n) = a :=
    prev_setPrev_self ha
  cases ys with
  | nil =>
    obtain ⟨hb, _⟩ := h
    rw [hb] at hFirst hSecond ⊢
    exact ⟨hFirst, hSecond⟩
  | cons m ys =>
    obtain ⟨hm, _, hRest⟩ := h
    rw [hm] at hFirst hSecond ⊢
    refine ⟨hFirst, hSecond, hRest.congr ?_ ?_⟩
    · intro k hk
      have hak : Apart k a :=
        (hSpread.head (List.mem_cons_of_mem _ (List.mem_append_left _ hk))).symm
      have hkm : k = m ∨ Apart k m := by
        rcases List.mem_cons.mp hk with rfl | hk
        · exact .inl rfl
        · exact .inr (hSpread.tail.tail.head (List.mem_append_left _ hk)).symm
      rw [next_setPrev hkm, next_setNext hak]
    · intro k hk
      have hak : Apart k a :=
        (hSpread.head (List.mem_cons_of_mem _ (List.mem_cons_of_mem _ hk))).symm
      rw [prev_setPrev (hSpread.tail.tail.head hk).symm, prev_setNext (.inr hak)]

theorem linked_remove (h : Linked r a (xs ++ n :: ys) b) (hSpread : Spread a (xs ++ n :: ys) b) :
    Linked (remove r n) a (xs ++ ys) b := by
  unfold remove
  -- By induction on the nodes before `n`: the links of the first of them are written only if it is
  -- the last.
  induction xs generalizing a with
  | nil =>
    obtain ⟨_, hPrev, hRest⟩ := h
    rw [hPrev]
    exact linked_bridge hRest hSpread (hPrev ▸ prev_lt r n)
  | cons m xs ih =>
    obtain ⟨hm, hPrev, hRest⟩ := h
    obtain ⟨hLeft, hRight⟩ := linked_append_cons.mp hRest
    have hBefore : Apart a (prev r n) :=
      hSpread.head (List.mem_append_left _ (List.mem_append_left _ hLeft.prev_mem))
    have hAfter : next r n ∈ ys ++ [b] := hRight.next_mem
    have hAfterA : Apart a (next r n) := hSpread.head (List.mem_cons_of_mem _ (mem_of_right hAfter))
    have hAfterM : Apart m (next r n) := hSpread.tail.head (mem_of_right hAfter)
    have hBeforeM : m = prev r n ∨ Apart m (prev r n) := by
      rcases List.mem_cons.mp hLeft.prev_mem with hEq | hMem
      · exact .inl hEq.symm
      · exact .inr (hSpread.tail.head (List.mem_append_left _ (List.mem_append_left _ hMem)))
    refine ⟨?_, ?_, ih hRest hSpread.tail⟩
    · rw [next_setPrev (.inr hAfterA), next_setNext hBefore, hm]
    · rw [prev_setPrev hAfterM, prev_setNext hBeforeM, hPrev]

theorem linked_push (h : Linked r l.first ns l.last) (hSpread : Spread l.first (ns ++ [n]) l.last)
    (hn : n < wordLimit) : Linked (l.push r n) l.first (ns ++ [n]) l.last := by
  obtain ⟨a, b⟩ := l
  simp only [push] at h hSpread ⊢
  have hbn : Apart n b := hSpread.last (by simp)
  have hb : b < wordLimit := h.last_lt
  induction ns generalizing a with
  | nil =>
    obtain ⟨_, hPrev⟩ := h
    have han : Apart a n := hSpread.head (by simp)
    have hab : Apart a b := hSpread.head (by simp)
    have ha : a < wordLimit := hPrev ▸ prev_lt r b
    simp only [hPrev]
    refine ⟨?_, ?_, ?_, ?_⟩
    · rw [next_setPrev (.inr hab), next_setNext_self hn]
    · rw [prev_setPrev hbn, prev_setNext (.inr han.symm), prev_setNext (.inl rfl),
        prev_setPrev_self ha]
    · rw [next_setPrev (.inr hbn), next_setNext han.symm, next_setNext_self hb]
    · rw [prev_setPrev_self hn]
  | cons m ns ih =>
    obtain ⟨hm, hPrev, hRest⟩ := h
    have han : Apart a n := hSpread.head (by simp)
    have hab : Apart a b := hSpread.head (by simp)
    have hmn : Apart m n := hSpread.tail.head (by simp)
    have hmb : Apart m b := hSpread.tail.head (by simp)
    have hNewest : Apart a (prev r b) :=
      hSpread.head (List.mem_append_left _ (List.mem_append_left _ hRest.prev_mem))
    have hNewestM : m = prev r b ∨ Apart m (prev r b) := by
      rcases List.mem_cons.mp hRest.prev_mem with hEq | hMem
      · exact .inl hEq.symm
      · exact .inr (hSpread.tail.head (by simp [hMem]))
    refine ⟨?_, ?_, ih m hRest hSpread.tail⟩
    · rw [next_setPrev (.inr hab), next_setNext hNewest, next_setNext han, next_setPrev (.inr han),
        hm]
    · rw [prev_setPrev hmb, prev_setNext hNewestM, prev_setNext (.inr hmn), prev_setPrev hmn, hPrev]

theorem linked_layOut (r : Region) (hApart : Apart l.first l.last) (hFirst : l.first < wordLimit)
    (hLast : l.last < wordLimit) : Linked (l.layOut r) l.first [] l.last := by
  unfold layOut
  constructor
  · rw [next_setNext hApart, next_setPrev (.inr hApart), next_setNext_self hLast]
  · rw [prev_setNext (.inl rfl), prev_setPrev_self hFirst]

theorem prev_mem_of_split (h : Linked r a (xs ++ n :: ys) b) : prev r n ∈ a :: xs :=
  (linked_append_cons.mp h).1.prev_mem

theorem next_mem_of_split (h : Linked r a (xs ++ n :: ys) b) : next r n ∈ ys ++ [b] :=
  (linked_append_cons.mp h).2.next_mem

/-- The links of the sentinels that lead out of the list lead nowhere. -/
def Closed (l : FreeList) (r : Region) : Prop := prev r l.first = nil ∧ next r l.last = nil

theorem closed_layOut (r : Region) (hApart : Apart l.first l.last) : Closed l (l.layOut r) := by
  have hNil : nil < wordLimit := by decide
  unfold layOut
  constructor
  · rw [prev_setNext (.inr hApart), prev_setPrev hApart, prev_setNext (.inl rfl),
      prev_setPrev_self hNil]
  · exact next_setNext_self hNil

theorem closed_remove (hClosed : Closed l r) (h : Linked r l.first (xs ++ n :: ys) l.last)
    (hSpread : Spread l.first (xs ++ n :: ys) l.last) : Closed l (remove r n) := by
  have hBefore := prev_mem_of_split h
  have hAfter := next_mem_of_split h
  have hFirst : l.first = prev r n ∨ Apart l.first (prev r n) := by
    rcases List.mem_cons.mp hBefore with hEq | hMem
    · exact .inl hEq.symm
    · exact .inr (hSpread.head (by simp [hMem]))
  have hLast : l.last = next r n ∨ Apart l.last (next r n) := by
    rcases List.mem_append.mp hAfter with hMem | hMem
    · exact .inr (hSpread.last (by simp [hMem])).symm
    · exact .inl (List.mem_singleton.mp hMem).symm
  have hFirst' : Apart l.first (next r n) := hSpread.head (mem_of_right hAfter)
  have hLast' : Apart l.last (prev r n) := by
    refine (hSpread.last ?_).symm
    rw [← List.cons_append]
    exact List.mem_append_left _ hBefore
  unfold remove
  constructor
  · rw [prev_setPrev hFirst', prev_setNext hFirst, hClosed.1]
  · rw [next_setPrev hLast, next_setNext hLast', hClosed.2]

theorem closed_push (hClosed : Closed l r) (h : Linked r l.first ns l.last)
    (hSpread : Spread l.first (ns ++ [n]) l.last) : Closed l (l.push r n) := by
  have hNewest := h.prev_mem
  have hFirst : l.first = prev r l.last ∨ Apart l.first (prev r l.last) := by
    rcases List.mem_cons.mp hNewest with hEq | hMem
    · exact .inl hEq.symm
    · exact .inr (hSpread.head (by simp [hMem]))
  have hLast : Apart l.last (prev r l.last) := by
    refine (hSpread.last ?_).symm
    rw [← List.cons_append]
    exact List.mem_append_left _ hNewest
  have hNode : Apart l.first n := hSpread.head (by simp)
  have hNode' : Apart l.last n := (hSpread.last (by simp)).symm
  have hEnds : Apart l.first l.last := hSpread.head (by simp)
  unfold push
  constructor
  · simp only [prev_setPrev hEnds, prev_setNext hFirst, prev_setNext (.inr hNode),
      prev_setPrev hNode, hClosed.1]
  · simp only [next_setPrev (.inl rfl), next_setNext hLast, next_setNext hNode',
      next_setPrev (.inr hNode'), hClosed.2]

theorem not_mem_of_wordAt (hK : ∀ x, NodeAt r n x → ¬ K x) {o : Nat}
    (ho : o = n ∨ o = n + wordSize) :
    ∀ x, r.WordAt o x → ¬ K x := by
  intro x hx
  refine hK x ?_
  obtain ⟨hLow, hHigh⟩ := hx
  unfold NodeAt Region.address nodeSize at *
  omega

theorem keeps_remove (h : Linked r a (xs ++ n :: ys) b)
    (hK : ∀ m ∈ a :: ((xs ++ n :: ys) ++ [b]), ∀ x, NodeAt r m x → ¬ K x) :
    r.Keeps K (remove r n) := by
  obtain ⟨hLeft, hRight⟩ := linked_append_cons.mp h
  have hBefore : prev r n ∈ a :: ((xs ++ n :: ys) ++ [b]) := by
    rw [List.append_assoc, ← List.cons_append]
    exact List.mem_append_left _ hLeft.prev_mem
  have hAfter : next r n ∈ a :: ((xs ++ n :: ys) ++ [b]) :=
    List.mem_cons_of_mem _ (mem_of_right hRight.next_mem)
  exact (Region.keeps_setWord (not_mem_of_wordAt (hK _ hBefore) (.inr rfl))).trans
    (Region.keeps_setWord (not_mem_of_wordAt (hK _ hAfter) (.inl rfl)))

theorem keeps_push (h : Linked r l.first ns l.last)
    (hK : ∀ m ∈ l.first :: ((ns ++ [n]) ++ [l.last]), ∀ x, NodeAt r m x → ¬ K x) :
    r.Keeps K (l.push r n) := by
  have hNewest : prev r l.last ∈ l.first :: ((ns ++ [n]) ++ [l.last]) := by
    rw [List.append_assoc, ← List.cons_append]
    exact List.mem_append_left _ h.prev_mem
  have hNode := hK n (by simp)
  exact (((Region.keeps_setWord (not_mem_of_wordAt hNode (.inl rfl))).trans
    (Region.keeps_setWord (not_mem_of_wordAt hNode (.inr rfl)))).trans
    (Region.keeps_setWord (not_mem_of_wordAt (hK _ hNewest) (.inr rfl)))).trans
    (Region.keeps_setWord (not_mem_of_wordAt (hK l.last (by simp)) (.inl rfl)))

theorem keeps_layOut (hK : ∀ m ∈ [l.first, l.last], ∀ x, NodeAt r m x → ¬ K x) :
    r.Keeps K (l.layOut r) := by
  have hFirst := hK l.first (by simp)
  have hLast := hK l.last (by simp)
  exact (((Region.keeps_setWord (not_mem_of_wordAt hFirst (.inl rfl))).trans
    (Region.keeps_setWord (not_mem_of_wordAt hFirst (.inr rfl)))).trans
    (Region.keeps_setWord (not_mem_of_wordAt hLast (.inl rfl)))).trans
    (Region.keeps_setWord (not_mem_of_wordAt hLast (.inr rfl)))

theorem olderFrom_eq (h : Linked r l.first ns b) (hFirst : l.first ∉ ns) {fuel : Nat}
    (hFuel : ns.length < fuel) : l.olderFrom r fuel (prev r b) = ns.reverse := by
  induction ns using List.reverseRecOn generalizing b fuel with
  | nil =>
    obtain ⟨fuel, rfl⟩ := Nat.exists_eq_succ_of_ne_zero (Nat.ne_of_gt hFuel)
    rw [olderFrom, if_pos h.2]
    rfl
  | append_singleton ns n ih =>
    obtain ⟨fuel, rfl⟩ := Nat.exists_eq_succ_of_ne_zero (Nat.ne_of_gt (Nat.zero_lt_of_lt hFuel))
    obtain ⟨hLeft, hRight⟩ := linked_append_cons.mp h
    simp only [List.mem_append, List.mem_singleton, not_or] at hFirst
    simp only [List.length_append, List.length_singleton] at hFuel
    rw [hRight.2, olderFrom, if_neg (Ne.symm hFirst.2), ih hLeft hFirst.1 (by omega)]
    simp

theorem newerFrom_eq (h : Linked r a ns l.last) (hLast : l.last ∉ ns) {fuel : Nat}
    (hFuel : ns.length < fuel) : l.newerFrom r fuel (next r a) = ns := by
  induction ns generalizing a fuel with
  | nil =>
    obtain ⟨fuel, rfl⟩ := Nat.exists_eq_succ_of_ne_zero (Nat.ne_of_gt hFuel)
    rw [newerFrom, if_pos h.1]
  | cons n ns ih =>
    obtain ⟨fuel, rfl⟩ := Nat.exists_eq_succ_of_ne_zero (Nat.ne_of_gt (Nat.zero_lt_of_lt hFuel))
    simp only [List.mem_cons, not_or] at hLast
    rw [List.length_cons] at hFuel
    rw [h.1, newerFrom, if_neg (Ne.symm hLast.1), ih h.2.2 hLast.2 (by omega)]

end BlockHeap.FreeList
