import BlockHeap.Proofs.FreeList.Links
import Mathlib.Data.List.Nodup

/-!
# What the check of a free list accepts

The check accepts exactly the lists that are linked both ways from one sentinel to the other, over
as many nodes as it was told, each of which it may read and takes for free. Nothing compares a node
with those before it: that no node comes twice follows from the previous links, which lead back from
the last sentinel over one sequence of nodes only. Likewise the next links alone fix the sequence.
-/

namespace BlockHeap.FreeList

variable {r s : Region} {l : FreeList} {isFree : Nat → Bool} {ns ms : List Nat}
  {a b lowest freeBlocks remaining listed : Nat}

theorem Linked.next_eq (h : Linked r a ns b) (h' : Linked s a ns b) {m : Nat} (hm : m ∈ a :: ns) :
    next s m = next r m := by
  induction ns generalizing a with
  | nil =>
    obtain rfl := List.mem_singleton.mp hm
    exact h'.1.trans h.1.symm
  | cons n ns ih =>
    rcases List.mem_cons.mp hm with rfl | hm
    · exact h'.1.trans h.1.symm
    · exact ih h.2.2 h'.2.2 hm

theorem Linked.prev_eq (h : Linked r a ns b) (h' : Linked s a ns b) {m : Nat}
    (hm : m ∈ ns ++ [b]) : prev s m = prev r m := by
  induction ns generalizing a with
  | nil =>
    obtain rfl := List.mem_singleton.mp hm
    exact h'.2.trans h.2.symm
  | cons n ns ih =>
    rcases List.mem_cons.mp hm with rfl | hm
    · exact h'.2.1.trans h.2.1.symm
    · exact ih h.2.2 h'.2.2 hm

theorem Linked.eq_of_next (h : Linked r a ns b) (h' : Linked s a ms b)
    (hNext : ∀ m ∈ a :: ns, next s m = next r m) (hb : b ∉ ns) (hb' : b ∉ ms) : ms = ns := by
  induction ns generalizing a ms with
  | nil =>
    cases ms with
    | nil => rfl
    | cons m ms =>
      have hm : m = b := by rw [← h'.1, hNext a List.mem_cons_self, h.1]
      exact (hb' (hm ▸ List.mem_cons_self)).elim
  | cons n ns ih =>
    obtain ⟨hn, _, hRest⟩ := h
    cases ms with
    | nil =>
      have hn' : n = b := by rw [← h'.1, hNext a List.mem_cons_self, hn]
      exact (hb (hn' ▸ List.mem_cons_self)).elim
    | cons m ms =>
      obtain ⟨hm, _, hRest'⟩ := h'
      obtain rfl : m = n := by rw [← hm, hNext a List.mem_cons_self, hn]
      rw [List.mem_cons, not_or] at hb hb'
      rw [ih hRest hRest' (fun k hk => hNext k (List.mem_cons_of_mem _ hk)) hb.2 hb'.2]

theorem Linked.eq_of_prev (h : Linked r a ns b) (h' : Linked s a ms b)
    (hPrev : ∀ m ∈ ns ++ [b], prev s m = prev r m) (ha : a ∉ ns) (ha' : a ∉ ms) : ms = ns := by
  induction ns using List.reverseRecOn generalizing b ms with
  | nil =>
    rcases List.eq_nil_or_concat ms with rfl | ⟨ms, m, rfl⟩
    · rfl
    · rw [List.concat_eq_append] at h' ha'
      have hm : m = a := by
        rw [← (linked_append_cons.mp h').2.2, hPrev b (by simp), h.2]
      exact (ha' (by simp [hm])).elim
  | append_singleton ns n ih =>
    obtain ⟨hLeft, hRight⟩ := linked_append_cons.mp h
    rcases List.eq_nil_or_concat ms with rfl | ⟨ms, m, rfl⟩
    · have hn : n = a := by
        rw [← hRight.2, ← hPrev b (by simp), h'.2]
      exact (ha (by simp [hn])).elim
    · rw [List.concat_eq_append] at h' ha' ⊢
      obtain ⟨hLeft', hRight'⟩ := linked_append_cons.mp h'
      obtain rfl : m = n := by rw [← hRight'.2, hPrev b (by simp), hRight.2]
      rw [List.mem_append, not_or] at ha ha'
      rw [ih hLeft hLeft' (fun k hk => hPrev k (List.mem_append_left _ hk)) ha.1 ha'.1]

/-- An end that came before would lead back to the first sentinel over two different ways. -/
theorem Linked.end_not_mem (h : Linked r a ns b) (ha : a ∉ ns) : b ∉ ns := by
  intro hb
  obtain ⟨xs, ys, rfl⟩ := List.append_of_mem hb
  obtain ⟨hShort, _⟩ := linked_append_cons.mp h
  have hxs : a ∉ xs := fun hMem => ha (List.mem_append_left _ hMem)
  have hEq := h.eq_of_prev hShort (fun _ _ => rfl) ha hxs
  simp at hEq

theorem Linked.nodup (h : Linked r a ns b) (ha : a ∉ ns) : ns.Nodup := by
  induction ns using List.reverseRecOn generalizing b with
  | nil => exact List.nodup_nil
  | append_singleton ns n ih =>
    obtain ⟨hLeft, _⟩ := linked_append_cons.mp h
    rw [List.mem_append, not_or] at ha
    rw [← List.concat_eq_append]
    exact List.Nodup.concat (hLeft.end_not_mem ha.1) (ih hLeft ha.1)

structure Accepts (l : FreeList) (r : Region) (lowest : Nat) (isFree : Nat → Bool) (a : Nat)
    (ns : List Nat) : Prop where
  linked : Linked r a ns l.last
  last_not_mem : l.last ∉ ns
  inBounds : ∀ n ∈ ns, InBounds r lowest n
  isFree : ∀ n ∈ ns, isFree n = true

theorem accepts_nil : l.Accepts r lowest isFree a [] ↔ next r a = l.last ∧ prev r l.last = a :=
  ⟨Accepts.linked, fun h => ⟨h, List.not_mem_nil, fun _ hn => (List.not_mem_nil hn).elim,
    fun _ hn => (List.not_mem_nil hn).elim⟩⟩

theorem accepts_cons {n : Nat} : l.Accepts r lowest isFree a (n :: ns) ↔
    next r a = n ∧ n ≠ l.last ∧ InBounds r lowest n ∧ isFree n = true ∧ prev r n = a ∧
      l.Accepts r lowest isFree n ns := by
  constructor
  · rintro ⟨⟨hNext, hPrev, hRest⟩, hLast, hBounds, hFree⟩
    rw [List.mem_cons, not_or] at hLast
    obtain ⟨hn, hBounds⟩ := List.forall_mem_cons.mp hBounds
    obtain ⟨hn', hFree⟩ := List.forall_mem_cons.mp hFree
    exact ⟨hNext, Ne.symm hLast.1, hn, hn', hPrev, hRest, hLast.2, hBounds, hFree⟩
  · rintro ⟨hNext, hNe, hn, hn', hPrev, hRest, hLast, hBounds, hFree⟩
    refine ⟨⟨hNext, hPrev, hRest⟩, ?_, List.forall_mem_cons.mpr ⟨hn, hBounds⟩,
      List.forall_mem_cons.mpr ⟨hn', hFree⟩⟩
    rw [List.mem_cons, not_or]
    exact ⟨hNe.symm, hLast⟩

theorem exists_accepts_of_last (hLast : next r a = l.last) :
    (∃ ns, l.Accepts r lowest isFree a ns ∧ listed + ns.length = freeBlocks) ↔
      prev r l.last = a ∧ listed = freeBlocks := by
  constructor
  · rintro ⟨ns, hAccepts, hLength⟩
    cases ns with
    | nil => exact ⟨(accepts_nil.mp hAccepts).2, hLength⟩
    | cons n ns =>
      obtain ⟨hn, hNe, _⟩ := accepts_cons.mp hAccepts
      exact (hNe (hn.symm.trans hLast)).elim
  · rintro ⟨hPrev, hListed⟩
    exact ⟨[], accepts_nil.mpr ⟨hLast, hPrev⟩, hListed⟩

theorem exists_accepts_of_ne (hNode : next r a ≠ l.last) :
    (∃ ns, l.Accepts r lowest isFree a ns ∧ listed + ns.length = freeBlocks) ↔
      InBounds r lowest (next r a) ∧ isFree (next r a) = true ∧ prev r (next r a) = a ∧
        ∃ ns, l.Accepts r lowest isFree (next r a) ns ∧ listed + 1 + ns.length = freeBlocks := by
  constructor
  · rintro ⟨ns, hAccepts, hLength⟩
    cases ns with
    | nil => exact (hNode (accepts_nil.mp hAccepts).1).elim
    | cons n ns =>
      obtain ⟨rfl, _, hBounds, hFree, hPrev, hRest⟩ := accepts_cons.mp hAccepts
      rw [List.length_cons] at hLength
      exact ⟨hBounds, hFree, hPrev, ns, hRest, by omega⟩
  · rintro ⟨hBounds, hFree, hPrev, ns, hRest, hLength⟩
    refine ⟨next r a :: ns, accepts_cons.mpr ⟨rfl, hNode, hBounds, hFree, hPrev, hRest⟩, ?_⟩
    rw [List.length_cons]
    omega

theorem checkFrom_last_eq_ok_iff :
    l.checkFrom r lowest freeBlocks isFree remaining listed a l.last = .ok () ↔
      prev r l.last = a ∧ listed = freeBlocks := by
  rw [checkFrom.eq_def]
  simp only [if_pos, HeapError.guard_eq_ok_iff, not_not, and_true]

theorem checkFrom_zero_ne_ok {node : Nat} (hNode : node ≠ l.last) :
    l.checkFrom r lowest freeBlocks isFree 0 listed a node ≠ .ok () := by
  intro h
  simp only [checkFrom, if_neg hNode, HeapError.guard_eq_ok_iff] at h
  cases h.2.2

theorem checkFrom_succ_eq_ok_iff {node : Nat} (hNode : node ≠ l.last) :
    l.checkFrom r lowest freeBlocks isFree (remaining + 1) listed a node = .ok () ↔
      InBounds r lowest node ∧ isFree node = true ∧ prev r node = a ∧
        l.checkFrom r lowest freeBlocks isFree remaining (listed + 1) node (next r node) =
          .ok () := by
  simp only [checkFrom, if_neg hNode, HeapError.guard_eq_ok_iff, not_not, Bool.or_eq_true,
    Bool.not_eq_true', decide_eq_true_eq, not_or, Bool.not_eq_false, and_assoc]

theorem checkFrom_eq_ok_iff (hCount : listed + remaining = freeBlocks) :
    l.checkFrom r lowest freeBlocks isFree remaining listed a (next r a) = .ok () ↔
      ∃ ns, l.Accepts r lowest isFree a ns ∧ listed + ns.length = freeBlocks := by
  induction remaining generalizing listed a with
  | zero =>
    rcases eq_or_ne (next r a) l.last with hLast | hNode
    · rw [exists_accepts_of_last hLast, hLast, checkFrom_last_eq_ok_iff]
    · rw [exists_accepts_of_ne hNode]
      refine ⟨fun h => (checkFrom_zero_ne_ok hNode h).elim, ?_⟩
      rintro ⟨_, _, _, ns, _, hLength⟩
      omega
  | succ remaining ih =>
    rcases eq_or_ne (next r a) l.last with hLast | hNode
    · rw [exists_accepts_of_last hLast, hLast, checkFrom_last_eq_ok_iff]
    · rw [exists_accepts_of_ne hNode, checkFrom_succ_eq_ok_iff hNode, ih (by omega)]

theorem check_eq_ok_iff (l : FreeList) (r : Region) (lowest freeBlocks : Nat)
    (isFree : Nat → Bool) : l.check r lowest freeBlocks isFree = .ok () ↔
      ∃ ns, l.Accepts r lowest isFree l.first ns ∧ ns.length = freeBlocks := by
  rw [check, checkFrom_eq_ok_iff (Nat.zero_add freeBlocks)]
  simp only [Nat.zero_add]

end BlockHeap.FreeList
