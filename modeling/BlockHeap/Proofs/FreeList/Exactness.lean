import BlockHeap.Proofs.FreeList.Guarded

/-!
# Exactly the lists of free nodes

The check accepts a memory if and only if the list in it is what it should be, and there is at most
one such list. Its walk is bounded by the number of nodes that it was told, whatever the links are:
each round that goes on counts one more node, and none goes on with more nodes than that.
-/

namespace BlockHeap.FreeList

/-- Both sentinels are words of the region, and lie below every node. -/
structure Fenced (l : FreeList) (r : Region) (lowest : Nat) : Prop where
  first_in : InBounds r 0 l.first
  last_in : InBounds r 0 l.last
  first_le : l.first + nodeSize ≤ lowest
  last_le : l.last + nodeSize ≤ lowest

/-- The nodes are what the list should have: different from each other, in bounds, free, and linked
both ways from one sentinel to the other. -/
structure Lists (l : FreeList) (r : Region) (lowest : Nat) (isFree : Nat → Bool) (ns : List Nat) :
    Prop where
  nodup : ns.Nodup
  inBounds : ∀ n ∈ ns, InBounds r lowest n
  isFree : ∀ n ∈ ns, isFree n = true
  linked : Linked r l.first ns l.last

def enter (l : FreeList) (r : Region) : Except Fault Place := do
  let link ← plus l.first wordSize
  let oldest ← r.fetch link
  return ⟨0, l.first, oldest⟩

variable {l : FreeList} {r : Region} {guarded : Nat → Except Fault Bool} {isFree : Nat → Bool}
  {ns ms : List Nat} {p q : Place} {lowest freeBlocks : Nat}

theorem Fenced.first_lt (h : l.Fenced r lowest) : l.first < lowest :=
  Nat.lt_of_lt_of_le (Nat.lt_add_of_pos_right (by decide)) h.first_le

theorem Fenced.readable (h : l.Fenced r lowest) (hSize : r.size < wordLimit)
    (isFree : Nat → Bool) : l.Readable r lowest (fun n => .ok (isFree n)) isFree where
  last_mod := h.last_in.2.1
  last_le := by
    have hIn : l.last + 16 ≤ r.size := h.last_in.2.2
    omega
  size_lt := hSize
  isFree_eq _ _ := rfl

theorem Fenced.enter_eq (h : l.Fenced r lowest) (hSize : r.size < wordLimit) :
    l.enter r = .ok ⟨0, l.first, next r l.first⟩ := by
  have hIn : l.first % 8 = 0 ∧ l.first + 16 ≤ r.size := h.first_in.2
  have hWord : wordSize = 8 := rfl
  have hLink : plus l.first wordSize = pure (l.first + wordSize) := plus_of_lt (by omega)
  have hNext : r.fetch (l.first + wordSize) = pure (next r l.first) :=
    Region.fetch_of_le (by omega) (by omega)
  rw [enter, hLink, pure_bind, hNext]
  rfl

/-- Bounds keep the sentinels out of the list, and the links then keep every node from coming
twice. -/
theorem lists_iff (hFirst : l.first < lowest) :
    l.Lists r lowest isFree ns ↔ l.Accepts r lowest isFree l.first ns := by
  constructor
  · rintro ⟨_, hBounds, hFree, hLinked⟩
    have hNot : l.first ∉ ns := fun hMem => Nat.not_le.mpr hFirst (hBounds _ hMem).1
    exact ⟨hLinked, hLinked.end_not_mem hNot, hBounds, hFree⟩
  · rintro ⟨hLinked, _, hBounds, hFree⟩
    have hNot : l.first ∉ ns := fun hMem => Nat.not_le.mpr hFirst (hBounds _ hMem).1
    exact ⟨hLinked.nodup hNot, hBounds, hFree, hLinked⟩

theorem Lists.unique (h : l.Lists r lowest isFree ns) (h' : l.Lists r lowest isFree ms)
    (hFirst : l.first < lowest) : ms = ns := by
  have hNot := ((lists_iff hFirst).mp h).last_not_mem
  have hNot' := ((lists_iff hFirst).mp h').last_not_mem
  exact h.linked.eq_of_next h'.linked (fun _ _ => rfl) hNot hNot'

/-- A round that goes on has passed one more node: in bounds, free, pointing back, and not one too
many. -/
theorem turn_eq_next (h : l.turn r lowest freeBlocks guarded p = .ok (.inl q)) :
    p.node ≠ l.last ∧ InBounds r lowest p.node ∧ guarded p.node = .ok true ∧
      prev r p.node = p.previous ∧ p.listed < freeBlocks ∧
      q = ⟨p.listed + 1, p.node, next r p.node⟩ := by
  by_cases hLast : p.node = l.last
  · rw [turn, if_pos hLast] at h
    obtain ⟨_, _, h⟩ := bind_eq_ok_iff.mp h
    split_ifs at h <;> cases h
  by_cases hBounds : InBounds r lowest p.node
  swap
  · rw [turn, if_neg hLast, if_pos hBounds] at h
    cases h
  rw [turn, if_neg hLast, if_neg (not_not.mpr hBounds)] at h
  obtain ⟨free, hFree, h⟩ := bind_eq_ok_iff.mp h
  cases free with
  | false => cases h
  | true =>
    obtain ⟨previous, hPrevious, h⟩ := bind_eq_ok_iff.mp h
    obtain rfl := Region.fetch_eq_ok hPrevious
    split at h
    · cases h
    next hBack =>
      obtain ⟨listed, hListed, h⟩ := bind_eq_ok_iff.mp h
      obtain rfl := plus_eq_ok hListed
      split at h
      · cases h
      next hMany =>
        obtain ⟨link, hLink, h⟩ := bind_eq_ok_iff.mp h
        obtain ⟨node, hNode, h⟩ := bind_eq_ok_iff.mp h
        obtain rfl := plus_eq_ok hLink
        obtain rfl := Region.fetch_eq_ok hNode
        obtain rfl := Sum.inl.inj (Except.ok.inj h)
        exact ⟨hLast, hBounds, hFree, not_not.mp hBack, by omega, rfl⟩

theorem length_le_of_trail {ps : List Place} {a : Except Fault (Except HeapError Unit)}
    (h : Trail (l.turn r lowest freeBlocks guarded) p ps a) :
    ps.length ≤ freeBlocks - p.listed + 1 := by
  refine h.length_le (m := fun p => freeBlocks - p.listed) fun p q hNext => ?_
  obtain ⟨_, _, _, _, hMore, rfl⟩ := turn_eq_next hNext
  exact Nat.sub_succ_lt_self freeBlocks p.listed hMore

/-- Whatever the words of the region are, the check accepts if and only if there is a list of as
many nodes as it was told. It comes to an end, and reads words of the region only. -/
theorem check_exact (h : l.Fenced r lowest) (hSize : r.size < wordLimit) (freeBlocks : Nat)
    (isFree : Nat → Bool) :
    (l.check r lowest freeBlocks isFree = .ok () ↔
      ∃ ns, l.Lists r lowest isFree ns ∧ ns.length = freeBlocks) ∧
    (∀ ns ms, l.Lists r lowest isFree ns → l.Lists r lowest isFree ms → ms = ns) ∧
    ∃ start visited, l.enter r = .ok start ∧
      Trail (l.turn r lowest freeBlocks fun n => .ok (isFree n)) start visited
        (.ok (l.check r lowest freeBlocks isFree)) ∧
      visited.length ≤ freeBlocks + 1 := by
  have hFirst := h.first_lt
  refine ⟨?_, fun ns ms hns hms => hns.unique hms hFirst, ?_⟩
  · rw [check_eq_ok_iff]
    exact exists_congr fun ns => and_congr_left' (lists_iff hFirst).symm
  · have hBehind := behind_first l r lowest
    have hEnds := (h.readable hSize isFree).ends hFirst hBehind (Nat.zero_add freeBlocks)
    obtain ⟨visited, hTrail⟩ := hEnds.exists_trail
    exact ⟨_, visited, h.enter_eq hSize, hTrail, length_le_of_trail hTrail⟩

theorem check_exact_of_two :
    let l : FreeList := ⟨0, 16⟩
    let r := l.push (l.push (l.layOut Region.blank) 32) 64
    let s := setNext r 64 32
    l.Fenced r 32 ∧ r.size < wordLimit ∧ l.Lists r 32 (· % 32 = 0) [32, 64] ∧
      l.check r 32 2 (· % 32 = 0) = .ok () ∧ l.check r 32 1 (· % 32 = 0) ≠ .ok () ∧
      ∃ start visited, l.enter s = .ok start ∧
        Trail (l.turn s 32 2 fun n => .ok (n % 32 = 0)) start visited
          (.ok (l.check s 32 2 (· % 32 = 0))) ∧ visited.length ≤ 3 := by
  intro l r s
  have hFenced : l.Fenced r 32 := ⟨by decide, by decide, by decide, by decide⟩
  have hFenced' : l.Fenced s 32 := ⟨by decide, by decide, by decide, by decide⟩
  have hSize : r.size < wordLimit := by decide
  have hSize' : s.size < wordLimit := by decide
  have hLinked : Linked r 0 [32, 64] 16 := by
    unfold Linked Linked Linked
    decide +kernel
  have hLists : l.Lists r 32 (· % 32 = 0) [32, 64] := ⟨by decide, by decide, by decide, hLinked⟩
  obtain ⟨hTwo, hUnique, _⟩ := check_exact hFenced hSize 2 (· % 32 = 0)
  have hOne := (check_exact hFenced hSize 1 (· % 32 = 0)).1
  refine ⟨hFenced, hSize, hLists, hTwo.mpr ⟨_, hLists, rfl⟩, fun hOk => ?_,
    (check_exact hFenced' hSize' 2 (· % 32 = 0)).2.2⟩
  obtain ⟨ns, hns, hLength⟩ := hOne.mp hOk
  rw [hUnique _ _ hLists hns] at hLength
  cases hLength

end BlockHeap.FreeList
