import BlockHeap.Proofs.FreeList.Exactness

/-!
# A free list as a sequence

The links in memory are all that there is of a free list. After any series of pushes and removals,
wherever the nodes are and whatever their order, reading them from the newest on finds the sequence
of nodes that were pushed and not removed, and reading them from the oldest on finds its reverse. A
node that was removed may be pushed again, and then is the newest.
-/

namespace BlockHeap.FreeList

inductive Edit where
  | push (node : Nat)
  | remove (node : Nat)
deriving DecidableEq

namespace Edit

def node : Edit → Nat
  | .push n => n
  | .remove n => n

def apply (l : FreeList) (r : Region) : Edit → Region
  | .push n => l.push r n
  | .remove n => FreeList.remove r n

/-- The nodes that are listed after an edit, the newest first. -/
def track (ns : List Nat) : Edit → List Nat
  | .push n => n :: ns
  | .remove n => ns.erase n

/-- A node may be pushed at any word of the region, unless a sentinel or a node that is listed
shares a byte with it. What is listed may be removed. -/
def Lawful (l : FreeList) (r : Region) (ns : List Nat) : Edit → Prop
  | .push n => InBounds r 0 n ∧ ∀ m ∈ l.first :: l.last :: ns, Apart n m
  | .remove n => n ∈ ns

instance (l : FreeList) (r : Region) (ns : List Nat) : (e : Edit) → Decidable (e.Lawful l r ns)
  | .push n => inferInstanceAs
      (Decidable (InBounds r 0 n ∧ ∀ m ∈ l.first :: l.last :: ns, Apart n m))
  | .remove n => inferInstanceAs (Decidable (n ∈ ns))

end Edit

/-- The edits are lawful one after the other, from a memory with these nodes on. -/
inductive Run (l : FreeList) : Region → List Nat → List Edit → Region → Prop where
  | nil (r : Region) (ns : List Nat) : Run l r ns [] r
  | cons {r s : Region} {ns : List Nat} {e : Edit} {es : List Edit} :
      e.Lawful l r ns → Run l (e.apply l r) (e.track ns) es s → Run l r ns (e :: es) s

def older? (l : FreeList) (r : Region) (node : Nat) : Option Nat :=
  if prev r node = l.first then none else some (prev r node)

def newer? (l : FreeList) (r : Region) (node : Nat) : Option Nat :=
  if next r node = l.last then none else some (next r node)

/-- Reading on until there is no node any more, one finds these. -/
inductive Reads (step : Nat → Option Nat) : Option Nat → List Nat → Prop where
  | stop : Reads step none []
  | pass {n : Nat} {ns : List Nat} : Reads step (step n) ns → Reads step (some n) (n :: ns)

structure Placed (l : FreeList) (r : Region) : Prop where
  first_in : InBounds r 0 l.first
  last_in : InBounds r 0 l.last
  apart : Apart l.first l.last
  size_lt : r.size < wordLimit

/-- The memory holds the list of these nodes, the oldest first. -/
structure Sequenced (l : FreeList) (r : Region) (ns : List Nat) : Prop where
  placed : l.Placed r
  linked : Linked r l.first ns l.last
  spread : Spread l.first ns l.last
  inBounds : ∀ n ∈ ns, InBounds r 0 n

variable {l : FreeList} {r s : Region} {a b n : Nat} {ns xs ys : List Nat} {e : Edit}
  {es : List Edit}

theorem size_apply (l : FreeList) (r : Region) (e : Edit) : (e.apply l r).size = r.size := by
  cases e <;> rfl

theorem Placed.of_size (h : l.Placed r) (hSize : s.size = r.size) : l.Placed s := by
  obtain ⟨hFirst, hLast, hApart, hLt⟩ := h
  unfold InBounds at hFirst hLast
  rw [← hSize] at hFirst hLast hLt
  exact ⟨hFirst, hLast, hApart, hLt⟩

theorem Placed.sequenced_layOut (h : l.Placed r) : l.Sequenced (l.layOut r) [] where
  placed := h.of_size rfl
  linked := by
    have hFirst : l.first + 16 ≤ r.size := h.first_in.2.2
    have hLast : l.last + 16 ≤ r.size := h.last_in.2.2
    have hSize := h.size_lt
    exact linked_layOut r h.apart (by omega) (by omega)
  spread := List.pairwise_cons.mpr
    ⟨fun m hm => List.mem_singleton.mp hm ▸ h.apart, List.pairwise_singleton _ _⟩
  inBounds := nofun

/-- What an edit keeps: the list in memory is that of the nodes which are listed after it. -/
theorem Sequenced.apply (h : l.Sequenced r ns.reverse) (he : e.Lawful l r ns) :
    l.Sequenced (e.apply l r) (e.track ns).reverse := by
  have hPlaced := h.placed.of_size (size_apply l r e)
  cases e with
  | push n =>
    obtain ⟨hIn, hApart⟩ := he
    have hSpread : Spread l.first (ns.reverse ++ [n]) l.last :=
      h.spread.concat (by simpa using hApart)
    have hLt : n < wordLimit := by
      have hEnd : n + 16 ≤ r.size := hIn.2.2
      have hSize := h.placed.size_lt
      omega
    rw [Edit.track, List.reverse_cons]
    refine ⟨hPlaced, linked_push h.linked hSpread hLt, hSpread, fun m hm => ?_⟩
    rcases List.mem_append.mp hm with hm | hm
    · exact h.inBounds m hm
    · exact List.mem_singleton.mp hm ▸ hIn
  | remove n =>
    obtain ⟨xs, ys, _, hSplit, hErase⟩ := List.exists_erase_eq he
    have hReverse : ns.reverse = ys.reverse ++ n :: xs.reverse := by simp [hSplit]
    obtain ⟨_, hLinked, hSpread, hBounds⟩ := h
    rw [hReverse] at hLinked hSpread hBounds
    rw [Edit.track, hErase, List.reverse_append]
    refine ⟨hPlaced, linked_remove hLinked hSpread, hSpread.erase, fun m hm => hBounds m ?_⟩
    rcases List.mem_append.mp hm with hm | hm
    · exact List.mem_append_left _ hm
    · exact List.mem_append_right _ (List.mem_cons_of_mem _ hm)

theorem Sequenced.run (h : l.Sequenced r ns.reverse) (hRun : l.Run r ns es s) :
    l.Sequenced s (es.foldl Edit.track ns).reverse := by
  induction hRun with
  | nil r ns => exact h
  | cons he _ ih => exact ih (h.apply he)

theorem Sequenced.keeps (h : l.Sequenced r ns.reverse) (he : e.Lawful l r ns) :
    r.Keeps (fun x => ∀ m ∈ l.first :: l.last :: e.node :: ns, ¬ NodeAt r m x) (e.apply l r) := by
  cases e with
  | push n =>
    refine keeps_push h.linked fun m hm x hx hNone => hNone m ?_ hx
    simpa [Edit.node, or_assoc, or_comm, or_left_comm] using hm
  | remove n =>
    obtain ⟨xs, ys, _, hSplit, _⟩ := List.exists_erase_eq he
    have hReverse : ns.reverse = ys.reverse ++ n :: xs.reverse := by simp [hSplit]
    refine keeps_remove (hReverse ▸ h.linked) fun m hm x hx hNone => hNone m ?_ hx
    rw [← hReverse] at hm
    have hMem : m = l.first ∨ m ∈ ns ∨ m = l.last := by simpa using hm
    rcases hMem with rfl | hMem | rfl
    · simp
    · simp [hMem]
    · simp

theorem Sequenced.word_eq (h : l.Sequenced r ns.reverse) (he : e.Lawful l r ns) {o : Nat}
    (ho : o % 8 = 0) (hLink : ∀ m ∈ l.first :: l.last :: e.node :: ns, o ≠ m ∧ o ≠ m + 8) :
    (e.apply l r).word o = r.word o := by
  refine (h.keeps he).word_eq fun x hx m hm hNode => ?_
  have hBounds : InBounds r 0 m := by
    simp only [List.mem_cons] at hm
    rcases hm with rfl | rfl | rfl | hm
    · exact h.placed.first_in
    · exact h.placed.last_in
    · cases e with
      | push n => exact he.1
      | remove n => exact h.inBounds n (List.mem_reverse.mpr he)
    · exact h.inBounds m (List.mem_reverse.mpr hm)
  have hMod : m % 8 = 0 := hBounds.2.1
  obtain ⟨hNe, hNe'⟩ := hLink m hm
  unfold Region.WordAt at hx
  unfold NodeAt at hNode
  unfold Region.address nodeSize wordSize at *
  omega

theorem Linked.reads_older (h : Linked r l.first ns b) (hNot : l.first ∉ ns) :
    Reads (l.older? r) (l.older? r b) ns.reverse := by
  induction ns using List.reverseRecOn generalizing b with
  | nil =>
    rw [older?, if_pos h.2]
    exact .stop
  | append_singleton ns n ih =>
    obtain ⟨hLeft, hRight⟩ := linked_append_cons.mp h
    rw [List.mem_append, List.mem_singleton, not_or] at hNot
    rw [List.reverse_append, older?, hRight.2, if_neg (Ne.symm hNot.2)]
    exact .pass (ih hLeft hNot.1)

theorem Linked.reads_newer (h : Linked r a ns l.last) (hNot : l.last ∉ ns) :
    Reads (l.newer? r) (l.newer? r a) ns := by
  induction ns generalizing a with
  | nil =>
    rw [newer?, if_pos h.1]
    exact .stop
  | cons n ns ih =>
    rw [List.mem_cons, not_or] at hNot
    rw [newer?, h.1, if_neg (Ne.symm hNot.1)]
    exact .pass (ih h.2.2 hNot.2)

theorem Sequenced.length_lt (h : l.Sequenced r ns) : ns.length < r.size := by
  have hLength := length_le_of_inBounds h.spread.nodup h.inBounds
  have hFirst : l.first + 16 ≤ r.size := h.placed.first_in.2.2
  omega

/-- The links implement the sequence of the nodes that were pushed and not removed, and the next
edit changes no word of the region but links. -/
theorem implements_sequence (hPlaced : l.Placed r) (hRun : l.Run (l.layOut r) [] es s) :
    let ns := es.foldl Edit.track []
    Reads (l.older? s) (l.older? s l.last) ns ∧
    Reads (l.newer? s) (l.newer? s l.first) ns.reverse ∧
    l.newestFirst s = ns ∧ l.oldestFirst s = ns.reverse ∧
    ∀ e : Edit, e.Lawful l s ns → ∀ o, o % 8 = 0 →
      (∀ m ∈ l.first :: l.last :: e.node :: ns, o ≠ m ∧ o ≠ m + 8) →
      (e.apply l s).word o = s.word o := by
  intro ns
  have hs : l.Sequenced s ns.reverse := Sequenced.run hPlaced.sequenced_layOut hRun
  have hFirst := hs.spread.first_not_mem
  have hLast := hs.spread.last_not_mem
  have hOlder := hs.linked.reads_older hFirst
  have hNewest := olderFrom_eq hs.linked hFirst hs.length_lt
  rw [List.reverse_reverse] at hOlder hNewest
  exact ⟨hOlder, hs.linked.reads_newer hLast, hNewest,
    newerFrom_eq hs.linked hLast hs.length_lt, fun e he o ho hLink => hs.word_eq he ho hLink⟩

theorem implements_sequence_of_three :
    let l : FreeList := ⟨0, 16⟩
    let es : List Edit := [.push 32, .push 64, .push 48, .remove 64, .push 64]
    let s := es.foldl (Edit.apply l) (l.layOut Region.blank)
    l.Placed Region.blank ∧ l.Run (l.layOut Region.blank) [] es s ∧
      Reads (l.older? s) (l.older? s 16) [64, 48, 32] ∧
      Reads (l.newer? s) (l.newer? s 0) [32, 48, 64] ∧
      l.newestFirst s = [64, 48, 32] ∧ l.oldestFirst s = [32, 48, 64] ∧
      (remove s 32).word 80 = s.word 80 := by
  intro l es s
  have hPlaced : l.Placed Region.blank := ⟨by decide, by decide, by decide, by decide⟩
  have hRun : l.Run (l.layOut Region.blank) [] es s :=
    .cons (by decide) (.cons (by decide) (.cons (by decide) (.cons (by decide) (.cons (by decide)
      (.nil s [64, 48, 32])))))
  obtain ⟨hOlder, hNewer, hNewest, hOldest, hFrame⟩ := implements_sequence hPlaced hRun
  have hRemove : (Edit.remove 32).Lawful l s [64, 48, 32] := by decide
  exact ⟨hPlaced, hRun, hOlder, hNewer, hNewest, hOldest,
    hFrame (.remove 32) hRemove 80 (by decide) (by decide)⟩

end BlockHeap.FreeList
