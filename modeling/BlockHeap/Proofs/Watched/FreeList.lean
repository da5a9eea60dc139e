import BlockHeap.Proofs.FreeList.Links
import BlockHeap.Proofs.Watched.Basic

/-!
# Free lists under watch

The operations on a free list. Each follows links that it has read, so it keeps to the region
because these lead from node to node.
-/

namespace BlockHeap

open FreeList (Linked)

def Bench.HasNode (b : Bench) (n : Nat) : Prop := b.Inside n ∧ b.Inside (n + wordSize)

namespace Watched

open Bench

def layOutList (l : FreeList) : Watched Unit := do
  store l.first FreeList.nil
  store (← plus l.first wordSize) l.last
  store l.last l.first
  store (← plus l.last wordSize) FreeList.nil

def older (l : FreeList) (node : Nat) : Watched (Option Nat) := do
  let before ← fetch node
  return if before = l.first then none else some before

def newest (l : FreeList) : Watched (Option Nat) := older l l.last

def push (l : FreeList) (node : Nat) : Watched Unit := do
  let newest ← fetch l.last
  store node newest
  store (← plus node wordSize) l.last
  store (← plus newest wordSize) node
  store l.last node

def remove (l : FreeList) (node : Nat) : Watched Unit := do
  ensure (node ≠ l.first ∧ node ≠ l.last) (.assertion (.notSentinel node))
  let before ← fetch node
  let after ← fetch (← plus node wordSize)
  store (← plus before wordSize) after
  store after before

variable {b c : Bench} {l : FreeList} {a z n : Nat} {ns xs ys : List Nat}

theorem add_lt_of_hasNode (hr : b.region.Anchored) (h : b.HasNode n) :
    n + wordSize < wordLimit := by
  have hEnd := hr.end_lt
  have hLe := h.2.2
  omega

theorem does_older (hr : b.region.Anchored) (hIn : b.Inside n) (hOwned : b.Owned n) :
    Does (older l n) b
      (if FreeList.prev b.region n = l.first then none else some (FreeList.prev b.region n)) b :=
  (does_fetch hr hIn hOwned).bind (does_pure _ b)

theorem does_layOutList (hr : b.region.Anchored) (hFirst : b.HasNode l.first)
    (hLast : b.HasNode l.last) : ∃ c, Does (layOutList l) b ⟨⟩ c ∧ c.region = l.layOut b.region ∧
      b.Marks [l.first, l.first + wordSize, l.last, l.last + wordSize] c := by
  have hPlus := does_plus (add_lt_of_hasNode hr hFirst)
  have hPlus' := does_plus (add_lt_of_hasNode hr hLast)
  have hr₁ := anchored_store hr l.first FreeList.nil
  have hr₂ := anchored_store hr₁ (l.first + wordSize) l.last
  have hr₃ := anchored_store hr₂ l.last l.first
  refine ⟨_, (does_store hr hFirst.1 _).bind ((hPlus _).bind
    ((does_store hr₁ (hFirst.2.store _ _) _).bind
    ((does_store hr₂ ((hLast.1.store _ _).store _ _) _).bind ((hPlus' _).bind
    (does_store hr₃ (((hLast.2.store _ _).store _ _).store _ _) _))))), rfl, ?_⟩
  exact (((marks_store _ _ _).trans (marks_store _ _ _)).trans (marks_store _ _ _)).trans
    (marks_store _ _ _)

theorem does_push (hr : b.region.Anchored) (hLinked : Linked b.region l.first ns l.last)
    (hNode : ∀ m ∈ l.first :: ((ns ++ [n]) ++ [l.last]), b.HasNode m) (hOwned : b.Owned l.last) :
    ∃ c, Does (push l n) b ⟨⟩ c ∧ c.region = l.push b.region n ∧ b.Marks [n, n + wordSize] c := by
  have hn : b.HasNode n := hNode n (by simp)
  have hLast : b.HasNode l.last := hNode l.last (by simp)
  have hNewest : b.HasNode (b.region.word l.last) := by
    refine hNode _ ?_
    rw [List.append_assoc, ← List.cons_append]
    exact List.mem_append_left _ hLinked.prev_mem
  have hPlus := does_plus (add_lt_of_hasNode hr hn)
  have hPlus' := does_plus (add_lt_of_hasNode hr hNewest)
  have hr₁ := anchored_store hr n (b.region.word l.last)
  have hr₂ := anchored_store hr₁ (n + wordSize) l.last
  have hr₃ := anchored_store hr₂ (b.region.word l.last + wordSize) n
  refine ⟨_, (does_fetch hr hLast.1 hOwned).bind ((does_store hr hn.1 _).bind
    ((hPlus _).bind ((does_store hr₁ (hn.2.store _ _) _).bind ((hPlus' _).bind
    ((does_store hr₂ ((hNewest.2.store _ _).store _ _) _).bind
    (does_store hr₃ (((hLast.1.store _ _).store _ _).store _ _) _)))))), rfl, ?_⟩
  refine Marks.mono ((((marks_store _ _ _).trans (marks_store _ _ _)).trans
    (marks_store _ _ _)).trans (marks_store _ _ _)) fun o ho => ?_
  exact List.mem_append_left _ (List.mem_append_left _ ho)

theorem does_remove (hr : b.region.Anchored) (hLinked : Linked b.region a (xs ++ n :: ys) z)
    (hNode : ∀ m ∈ a :: ((xs ++ n :: ys) ++ [z]), b.HasNode m)
    (hOwned : b.Owned n ∧ b.Owned (n + wordSize)) (hNot : n ≠ l.first ∧ n ≠ l.last) :
    ∃ c, Does (remove l n) b ⟨⟩ c ∧ c.region = FreeList.remove b.region n ∧ b.Marks [] c := by
  have hn : b.HasNode n := hNode n (by simp)
  have hBefore : b.HasNode (b.region.word n) := by
    refine hNode _ ?_
    rw [List.append_assoc, ← List.cons_append]
    exact List.mem_append_left _ (FreeList.prev_mem_of_split hLinked)
  have hAfter : b.HasNode (b.region.word (n + wordSize)) :=
    hNode _ (List.mem_cons_of_mem _ (FreeList.mem_of_right (FreeList.next_mem_of_split hLinked)))
  have hPlus := does_plus (add_lt_of_hasNode hr hn)
  have hPlus' := does_plus (add_lt_of_hasNode hr hBefore)
  have hr₁ := anchored_store hr (b.region.word n + wordSize) (b.region.word (n + wordSize))
  refine ⟨_, .ensured hNot ((does_fetch hr hn.1 hOwned.1).bind ((hPlus _).bind
    ((does_fetch hr hn.2 hOwned.2).bind ((hPlus' _).bind ((does_store hr hBefore.2 _).bind
    (does_store hr₁ (hAfter.1.store _ _) _)))))), rfl, ?_⟩
  exact ((marks_store _ _ _).trans (marks_store _ _ _)).mono nofun

end Watched

end BlockHeap
