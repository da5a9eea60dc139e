import BlockHeap.Proofs.FreeList.Check
import BlockHeap.Proofs.Region.Guarded
import Mathlib.Data.List.Perm.Subperm
import Mathlib.Tactic.SplitIfs

/-!
# The walk over a free list, round by round

The check of a free list once more, with each of its reads and sums guarded. Links are only followed
to nodes in bounds, so none of the guards answers a fault, and the walk ends since it passes no more
nodes than it was told. However many it was told, the count stays a word: the nodes that are passed
are different from each other, so there are no more of them than bytes.
-/

namespace BlockHeap.FreeList

/-- Where the walk is: the number of nodes behind it, the latest of them, and the node ahead. -/
structure Place where
  listed : Nat
  previous : Nat
  node : Nat
deriving DecidableEq

/-- One round of the walk, which passes the node ahead. -/
def turn (l : FreeList) (r : Region) (lowest freeBlocks : Nat) (isFree : Nat → Except Fault Bool)
    (p : Place) : Except Fault (Place ⊕ Except HeapError Unit) :=
  if p.node = l.last then do
    let newest ← r.fetch l.last
    if newest ≠ p.previous then return .inr (.error (.brokenLink l.last))
    else if p.listed ≠ freeBlocks then return .inr (.error (.unlistedFree freeBlocks p.listed))
    else return .inr (.ok ())
  else if ¬ InBounds r lowest p.node then return .inr (.error (.brokenLink p.previous))
  else do
    let free ← isFree p.node
    if !free then return .inr (.error (.brokenLink p.node))
    else
      let previous ← r.fetch p.node
      if previous ≠ p.previous then return .inr (.error (.brokenLink p.node))
      else
        let listed ← plus p.listed 1
        if freeBlocks < listed then return .inr (.error (.unlistedFree freeBlocks listed))
        else
          let link ← plus p.node wordSize
          let next ← r.fetch link
          return .inl ⟨listed, p.node, next⟩

/-- What the walk relies on: the last sentinel is in the region, and of a node in bounds it can be
found out whether it is free. -/
structure Readable (l : FreeList) (r : Region) (lowest : Nat) (isFree : Nat → Except Fault Bool)
    (free : Nat → Bool) : Prop where
  last_mod : l.last % 8 = 0
  last_le : l.last + 8 ≤ r.size
  size_lt : r.size < wordLimit
  isFree_eq : ∀ n, InBounds r lowest n → isFree n = pure (free n)

/-- The nodes behind a place, the oldest first. The latest of them is linked to the node ahead if
that one points back. -/
structure Behind (l : FreeList) (r : Region) (lowest : Nat) (p : Place) (ns : List Nat) : Prop where
  length_eq : ns.length = p.listed
  nodup : ns.Nodup
  inBounds : ∀ n ∈ ns, InBounds r lowest n
  linked : prev r p.node = p.previous → Linked r l.first ns p.node

variable {l : FreeList} {r : Region} {isFree : Nat → Except Fault Bool} {free : Nat → Bool}
  {ns : List Nat} {p q : Place} {lowest freeBlocks remaining listed previous node : Nat}

theorem length_le_of_inBounds (hNodup : ns.Nodup) (hIn : ∀ n ∈ ns, InBounds r lowest n) :
    ns.length ≤ r.size - 15 := by
  have hSub : ns ⊆ List.range (r.size - 15) := by
    intro n hn
    have hEnd : n + 16 ≤ r.size := (hIn n hn).2.2
    exact List.mem_range.mpr (by omega)
  simpa using (hNodup.subperm hSub).length_le

theorem behind_first (l : FreeList) (r : Region) (lowest : Nat) :
    l.Behind r lowest ⟨0, l.first, next r l.first⟩ [] :=
  ⟨rfl, List.nodup_nil, nofun, fun hPrev => ⟨rfl, hPrev⟩⟩

theorem Behind.pass (h : l.Behind r lowest p ns) (hFirst : l.first < lowest)
    (hIn : InBounds r lowest p.node) (hPrev : prev r p.node = p.previous) :
    l.Behind r lowest ⟨p.listed + 1, p.node, next r p.node⟩ (ns ++ [p.node]) where
  length_eq := by rw [List.length_append, h.length_eq, List.length_singleton]
  nodup := by
    have hNot : l.first ∉ ns := fun hMem => Nat.not_le.mpr hFirst (h.inBounds _ hMem).1
    rw [← List.concat_eq_append]
    exact List.Nodup.concat ((h.linked hPrev).end_not_mem hNot) h.nodup
  inBounds n hn := by
    rcases List.mem_append.mp hn with hn | hn
    · exact h.inBounds n hn
    · exact List.mem_singleton.mp hn ▸ hIn
  linked hBack := linked_append_cons.mpr ⟨h.linked hPrev, rfl, hBack⟩

theorem Behind.listed_lt (h : l.Behind r lowest p ns) (hSize : r.size < wordLimit) :
    p.listed + 1 < wordLimit := by
  have hLength := length_le_of_inBounds h.nodup h.inBounds
  have hCount := h.length_eq
  unfold wordLimit at *
  omega

/-- A round settles what the check does, or passes the node ahead if that points back and one more
may come. -/
theorem Readable.after_turn (h : l.Readable r lowest isFree free)
    (hLess : listed + 1 < wordLimit) (hListed : listed + remaining = freeBlocks)
    (hRest : ∀ k, remaining = k + 1 → InBounds r lowest node → prev r node = previous →
      Ends (l.turn r lowest freeBlocks isFree) ⟨listed + 1, node, next r node⟩
        (.ok (l.checkFrom r lowest freeBlocks free k (listed + 1) node (next r node)))) :
    After (l.turn r lowest freeBlocks isFree)
      (l.turn r lowest freeBlocks isFree ⟨listed, previous, node⟩)
      (.ok (l.checkFrom r lowest freeBlocks free remaining listed previous node)) := by
  have hSize := h.size_lt
  have hWord : wordSize = 8 := rfl
  have hLast : r.fetch l.last = pure (prev r l.last) := Region.fetch_of_le h.last_mod h.last_le
  have hSum : plus listed 1 = pure (listed + 1) := plus_of_lt hLess
  rw [checkFrom.eq_def]
  simp only [turn, hLast, hSum, pure_bind]
  refine .ite (fun _ => .ite (fun _ => .done) fun _ => .ite (fun _ => .done) fun _ => .done)
    fun _ => .ite (fun _ => .done) fun hBounds => ?_
  have hIn := Decidable.not_not.mp hBounds
  have hNode : node % 8 = 0 ∧ node + 16 ≤ r.size := hIn.2
  have hPrev : r.fetch node = pure (prev r node) := Region.fetch_of_le hNode.1 (by omega)
  have hLink : plus node wordSize = pure (node + wordSize) := plus_of_lt (by omega)
  have hNext : r.fetch (node + wordSize) = pure (next r node) :=
    Region.fetch_of_le (by omega) (by omega)
  simp only [h.isFree_eq node hIn, hPrev, hLink, hNext, pure_bind]
  cases free node with
  | false => exact .done
  | true =>
    simp only [Bool.not_true, Bool.false_eq_true, if_false, Bool.false_or, decide_eq_true_eq]
    refine .ite (fun _ => .done) fun hBack => ?_
    cases remaining with
    | zero =>
      rw [if_pos (by omega), ← hListed]
      exact .done
    | succ k =>
      rw [if_neg (by omega)]
      exact .next (hRest k rfl hIn (Decidable.not_not.mp hBack))

theorem Readable.ends (h : l.Readable r lowest isFree free) (hFirst : l.first < lowest)
    (hBehind : l.Behind r lowest ⟨listed, previous, node⟩ ns)
    (hListed : listed + remaining = freeBlocks) :
    Ends (l.turn r lowest freeBlocks isFree) ⟨listed, previous, node⟩
      (.ok (l.checkFrom r lowest freeBlocks free remaining listed previous node)) := by
  induction remaining generalizing listed previous node ns with
  | zero =>
    have hLess : listed + 1 < wordLimit := hBehind.listed_lt h.size_lt
    exact (h.after_turn hLess hListed nofun).ends
  | succ remaining ih =>
    have hLess : listed + 1 < wordLimit := hBehind.listed_lt h.size_lt
    refine (h.after_turn hLess hListed fun k hk hIn hPrev => ?_).ends
    cases hk
    exact ih (hBehind.pass hFirst hIn hPrev) (by omega)

theorem checkFrom_ne_overflow :
    l.checkFrom r lowest freeBlocks free remaining listed previous node ≠ .error .overflow := by
  induction remaining generalizing listed previous node with
  | zero =>
    simp only [checkFrom]
    split_ifs <;> simp
  | succ remaining ih =>
    simp only [checkFrom]
    split_ifs
    all_goals first | exact ih | simp

end BlockHeap.FreeList
