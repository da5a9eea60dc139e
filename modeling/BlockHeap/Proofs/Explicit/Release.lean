import BlockHeap.Proofs.Explicit.Edits

/-!
# Release of a block

A chunk finds its neighbours through the words at its ends. `Coalesced` describes what merging it
with the free ones among them makes of the chunks and of the list; releasing a block marks its chunk
free, lists it as the newest, and coalesces it.
-/

namespace BlockHeap.Explicit

variable {r s : Region} {e n : Nat} {c d : Chunk} {cs ds xs ys : List Chunk} {ns ms : List Nat}

/-- The chunks and the nodes after `c`, free and listed between `xs` and `ys`, has merged with its
neighbours. -/
inductive Coalesced : (xs : List Chunk) → (c : Chunk) → (ys : List Chunk) → (ns : List Nat) →
    List Chunk → List Nat → Prop where
  | alone {xs ys : List Chunk} {c : Chunk} {ns : List Nat} :
      (∀ p ∈ xs.getLast?, p.allocated = true) → (∀ d ∈ ys.head?, d.allocated = true) →
      Coalesced xs c ys ns (xs ++ c :: ys) ns
  | before {xs ys : List Chunk} {p c : Chunk} {ns : List Nat} : p.allocated = false →
      (∀ d ∈ ys.head?, d.allocated = true) →
      Coalesced (xs ++ [p]) c ys ns (xs ++ ⟨p.offset, p.size + overhead + c.size, false⟩ :: ys)
        (ns.erase (payload c.offset))
  | after {xs ys : List Chunk} {c d : Chunk} {ns : List Nat} :
      (∀ p ∈ xs.getLast?, p.allocated = true) → d.allocated = false →
      Coalesced xs c (d :: ys) ns (xs ++ ⟨c.offset, c.size + overhead + d.size, false⟩ :: ys)
        (ns.erase (payload d.offset))
  | both {xs ys : List Chunk} {p c d : Chunk} {ns : List Nat} :
      p.allocated = false → d.allocated = false → Coalesced (xs ++ [p]) c (d :: ys) ns
        (xs ++ ⟨p.offset, p.size + c.size + d.size + 2 * overhead, false⟩ :: ys)
        ((ns.erase (payload c.offset)).erase (payload d.offset))

theorem Coalesced.filter_eq (h : Coalesced xs c ys ns ds ms) (hFlag : c.allocated = false) :
    ds.filter Chunk.allocated = xs.filter Chunk.allocated ++ ys.filter Chunk.allocated := by
  cases h with
  | alone _ _ => simp [hFlag]
  | before hp _ => simp [hp]
  | after _ hd => simp [hd]
  | both hp hd => simp [hp, hd]

/-- A merged chunk has no free neighbour left, since there were no two before. -/
theorem Coalesced.separated (h : Coalesced xs c ys ns ds ms) (hxs : Chunk.Separated xs)
    (hys : Chunk.Separated ys) : Chunk.Separated ds := by
  cases h with
  | alone hLast hHead => exact hxs.join hys hLast hHead
  | before hp hHead =>
    obtain ⟨hInit, hLast⟩ := hxs.init hp
    exact hInit.join hys hLast hHead
  | after hLast hd =>
    obtain ⟨hTail, hHead⟩ := hys.tail hd
    exact hxs.join hTail hLast hHead
  | both hp hd =>
    obtain ⟨hInit, hLast⟩ := hxs.init hp
    obtain ⟨hTail, hHead⟩ := hys.tail hd
    exact hInit.join hTail hLast hHead

theorem perm_erase_freeNodes (h : ns.Perm (freeNodes (xs ++ c :: ys)))
    (hFlag : c.allocated = false) :
    (ns.erase (payload c.offset)).Perm (freeNodes (xs ++ ys)) := by
  rw [freeNodes_append, freeNodes_cons_free hFlag] at h
  have hErase := (h.trans List.perm_middle).erase (payload c.offset)
  rwa [List.erase_cons_head, ← freeNodes_append] at hErase

theorem perm_append_freeNodes (h : ns.Perm (freeNodes (xs ++ ys))) (ws : List Chunk) :
    (ns ++ freeNodes ws).Perm (freeNodes (xs ++ ws ++ ys)) := by
  rw [freeNodes_append] at h
  rw [freeNodes_append, freeNodes_append, List.append_assoc]
  refine (h.append_right _).trans ?_
  rw [List.append_assoc]
  exact List.perm_append_comm.append_left _

/-- Exactly the nodes of the chunks that are swallowed leave the list. -/
theorem Coalesced.listed (h : Coalesced xs c ys ns ds ms) (hFlag : c.allocated = false)
    (hListed : ns.Perm (freeNodes (xs ++ c :: ys))) : ms.Perm (freeNodes ds) := by
  cases h with
  | alone _ _ => exact hListed
  | before hp _ =>
    have hErase := perm_erase_freeNodes hListed hFlag
    simpa [freeNodes_append, freeNodes_cons_free, hp] using hErase
  | @after _ _ _ d _ _ hd =>
    rw [List.append_cons] at hListed
    have hErase := perm_erase_freeNodes hListed hd
    simpa [freeNodes_append, freeNodes_cons_free, hFlag] using hErase
  | both hp hd =>
    have hErase := perm_erase_freeNodes (perm_erase_freeNodes hListed hFlag) hd
    simpa [freeNodes_append, freeNodes_cons_free, hp] using hErase

theorem Holds.size_eq (h : Holds r e cs ns) (hc : c ∈ cs) : size r c.offset = c.size :=
  congrArg Tag.size (h.tagged c hc).1

theorem Holds.tag_before (h : Holds r e (xs ++ c :: ys) ns) :
    r.tag c.offset = (xs.getLast?.map Chunk.tag).getD Tag.sentinel := by
  obtain ⟨hLeft, _, _⟩ := Chunk.tiles_append_cons.mp h.tiles
  rcases List.eq_nil_or_concat' xs with rfl | ⟨ws, p, rfl⟩
  · rw [← Chunk.tiles_nil.mp hLeft]
    exact h.prologue_tag
  · obtain ⟨_, _, hStop⟩ := Chunk.tiles_append_cons.mp hLeft
    rw [← Chunk.tiles_nil.mp hStop, List.getLast?_concat]
    exact (h.tagged p (by simp)).2

theorem Holds.tag_after (h : Holds r e (xs ++ c :: ys) ns)
    (hEnd : r.tag (header e) = Tag.sentinel) :
    r.tag (header (c.stop overhead)) = (ys.head?.map Chunk.tag).getD Tag.sentinel := by
  obtain ⟨_, _, hRight⟩ := Chunk.tiles_append_cons.mp h.tiles
  cases ys with
  | nil =>
    rw [Chunk.tiles_nil.mp hRight]
    exact hEnd
  | cons d ys =>
    rw [← hRight.1]
    exact (h.tagged d (by simp)).1

theorem Holds.isPreviousFree_eq (h : Holds r e (xs ++ c :: ys) ns) :
    isPreviousFree r c.offset = xs.getLast?.any fun p => !p.allocated := by
  rw [isPreviousFree, h.tag_before]
  cases xs.getLast? with
  | none => rfl
  | some p => rfl

theorem Holds.isPreviousFree_of_free {p : Chunk} (h : Holds r e (xs ++ [p] ++ c :: ys) ns)
    (hp : p.allocated = false) : isPreviousFree r c.offset = true := by
  rw [h.isPreviousFree_eq, List.getLast?_concat]
  simp [hp]

theorem Holds.isPreviousFree_of_allocated (h : Holds r e (xs ++ c :: ys) ns)
    (hLast : ∀ p ∈ xs.getLast?, p.allocated = true) : isPreviousFree r c.offset = false := by
  rw [h.isPreviousFree_eq]
  cases hx : xs.getLast? with
  | none => rfl
  | some p => simp [hLast p hx]

theorem Holds.nextOf_eq (h : Holds r e (xs ++ c :: ys) ns) :
    nextOf r c.offset = c.stop overhead := by
  rw [nextOf, h.size_eq (by simp), stop_eq]

theorem Holds.isNextFree_eq (h : Holds r e (xs ++ c :: ys) ns)
    (hEnd : r.tag (header e) = Tag.sentinel) :
    isNextFree r c.offset = ys.head?.any fun d => !d.allocated := by
  rw [isNextFree, h.nextOf_eq, h.tag_after hEnd]
  cases ys with
  | nil => rfl
  | cons d ys =>
    have hSized := h.tiles.wellSized (c := d) (by simp)
    simp [hSized.1]

theorem Holds.isNextFree_of_free (h : Holds r e (xs ++ c :: d :: ys) ns)
    (hEnd : r.tag (header e) = Tag.sentinel) (hd : d.allocated = false) :
    isNextFree r c.offset = true := by
  rw [h.isNextFree_eq hEnd]
  simp [hd]

theorem Holds.isNextFree_of_allocated (h : Holds r e (xs ++ c :: ys) ns)
    (hEnd : r.tag (header e) = Tag.sentinel) (hHead : ∀ d ∈ ys.head?, d.allocated = true) :
    isNextFree r c.offset = false := by
  rw [h.isNextFree_eq hEnd]
  cases hy : ys.head? with
  | none => rfl
  | some d => simp [hHead d hy]

theorem Holds.previousOf_eq {p : Chunk} (h : Holds r e (xs ++ [p] ++ c :: ys) ns) :
    previousOf r c.offset = p.offset := by
  obtain ⟨hLeft, _, _⟩ := Chunk.tiles_append_cons.mp h.tiles
  obtain ⟨_, _, hStop⟩ := Chunk.tiles_append_cons.mp hLeft
  have hOffset : p.offset + 16 + p.tag.size = c.offset := Chunk.tiles_nil.mp hStop
  rw [previousOf, h.tag_before, List.getLast?_concat, alignment_value]
  simp only [Option.map_some, Option.getD_some]
  omega

theorem value_absorb (r : Region) (o n : Nat) :
    (absorb r o n).value = writeTags r [⟨o, n, false⟩] := rfl

/-- A run of free chunks of which only the first may be listed becomes one free chunk. -/
theorem Holds.fuse {ws : List Chunk} {m : Chunk} (h : Holds r e (xs ++ c :: ws ++ ys) ns)
    (hFree : ∀ d ∈ c :: ws, d.allocated = false) (hUnlisted : ∀ d ∈ ws, payload d.offset ∉ ns)
    (hFlag : m.allocated = false) (hOffset : m.offset = c.offset)
    (hStop : ∀ b, Chunk.Tiles overhead c.offset (c :: ws) b → m.stop overhead = b) :
    Holds (writeTags r [m]) e (xs ++ m :: ys) ns ∧
      r.Keeps (Foreign r.anchor (header e) ((xs ++ c :: ws ++ ys).map block))
        (writeTags r [m]) := by
  have hTiles : ∀ a b, Chunk.Tiles overhead a (c :: ws) b → Chunk.Tiles overhead a [m] b := by
    intro a b hRun
    obtain rfl := hRun.1
    exact hRun.fuse (by decide) hOffset (hStop b hRun)
  obtain ⟨hHolds, hKeeps⟩ := h.exchange hTiles fun d hd _ hMem => by
    rcases List.mem_cons.mp hd with rfl | hd
    · exact ⟨m, List.mem_singleton_self m, hFlag, hOffset⟩
    · exact (hUnlisted d hd hMem).elim
  refine ⟨?_, hKeeps.mono fun x hx => hx.mono (held_map_exchange allocated_block hFree [m])⟩
  rwa [List.append_assoc, List.singleton_append] at hHolds

theorem Holds.nextOf_eq_offset (h : Holds r e (xs ++ c :: d :: ys) ns) :
    nextOf r c.offset = d.offset := by
  obtain ⟨_, _, hRight⟩ := Chunk.tiles_append_cons.mp h.tiles
  rw [h.nextOf_eq, hRight.1]

theorem Holds.mem_erase_next (h : Holds r e (xs ++ c :: d :: ys) ns)
    (hListed : payload d.offset ∈ ns) : payload d.offset ∈ ns.erase (payload c.offset) := by
  obtain ⟨_, hSized, hRight⟩ := Chunk.tiles_append_cons.mp h.tiles
  have hPos := Chunk.size_of_wellSized hSized
  refine h.nodup.mem_erase_iff.mpr ⟨?_, hListed⟩
  rw [hRight.1, payload_eq, payload_eq, Chunk.stop, overhead_eq]
  omega

section Coalesce

variable {p : Chunk} (hEnd : r.tag (header e) = Tag.sentinel)

include hEnd

theorem Holds.value_coalesce_before (h : Holds r e (xs ++ [p] ++ c :: ys) ns)
    (hListed : payload c.offset ∈ ns) (hp : p.allocated = false)
    (hHead : ∀ d ∈ ys.head?, d.allocated = true) : (coalesce r c.offset).value =
      writeTags (FreeList.remove r (payload c.offset))
        [⟨p.offset, p.size + overhead + c.size, false⟩] := by
  have hPrevious := h.isPreviousFree_of_free hp
  have hNext := h.isNextFree_of_allocated hEnd hHead
  have hRemoved := (h.remove hListed).1
  unfold coalesce
  rw [hPrevious, hNext]
  simp only [h.previousOf_eq, h.size_eq (c := c) (by simp), hRemoved.size_eq (c := p) (by simp),
    value_absorb]

theorem Holds.value_coalesce_after (h : Holds r e (xs ++ c :: d :: ys) ns)
    (hListed : payload d.offset ∈ ns) (hd : d.allocated = false)
    (hLast : ∀ p ∈ xs.getLast?, p.allocated = true) : (coalesce r c.offset).value =
      writeTags (FreeList.remove r (payload d.offset))
        [⟨c.offset, c.size + overhead + d.size, false⟩] := by
  have hPrevious := h.isPreviousFree_of_allocated hLast
  have hNext := h.isNextFree_of_free hEnd hd
  have hRemoved := (h.remove hListed).1
  unfold coalesce
  rw [hPrevious, hNext, h.nextOf_eq_offset]
  simp only [h.size_eq (c := c) (by simp), hRemoved.size_eq (c := d) (by simp), value_absorb]

theorem Holds.value_coalesce_both (h : Holds r e (xs ++ [p] ++ c :: d :: ys) ns)
    (hListed : payload c.offset ∈ ns) (hListed' : payload d.offset ∈ ns) (hp : p.allocated = false)
    (hd : d.allocated = false) : (coalesce r c.offset).value =
      writeTags (FreeList.remove (FreeList.remove r (payload c.offset)) (payload d.offset))
        [⟨p.offset, p.size + c.size + d.size + 2 * overhead, false⟩] := by
  have hPrevious := h.isPreviousFree_of_free hp
  have hNext := h.isNextFree_of_free hEnd hd
  have hRemoved := ((h.remove hListed).1.remove (h.mem_erase_next hListed')).1
  unfold coalesce
  rw [hPrevious, hNext, h.nextOf_eq_offset]
  simp only [h.previousOf_eq, h.size_eq (c := c) (by simp), hRemoved.size_eq (c := p) (by simp),
    hRemoved.size_eq (c := d) (by simp), value_absorb]

theorem Holds.coalesce_alone (h : Holds r e (xs ++ c :: ys) ns)
    (hLast : ∀ p ∈ xs.getLast?, p.allocated = true) (hHead : ∀ d ∈ ys.head?, d.allocated = true) :
    (coalesce r c.offset).value = r := by
  have hPrevious := h.isPreviousFree_of_allocated hLast
  have hNext := h.isNextFree_of_allocated hEnd hHead
  unfold coalesce
  rw [hPrevious, hNext]
  rfl

theorem Holds.coalesce_before (h : Holds r e (xs ++ [p] ++ c :: ys) ns)
    (hListed : payload c.offset ∈ ns) (hFlag : c.allocated = false) (hp : p.allocated = false)
    (hHead : ∀ d ∈ ys.head?, d.allocated = true) :
    Holds (coalesce r c.offset).value e (xs ++ ⟨p.offset, p.size + overhead + c.size, false⟩ :: ys)
        (ns.erase (payload c.offset)) ∧
      r.Keeps (Foreign r.anchor (header e) ((xs ++ [p] ++ c :: ys).map block))
        (coalesce r c.offset).value := by
  obtain ⟨hRemoved, hKeeps⟩ := h.remove hListed
  rw [h.value_coalesce_before hEnd hListed hp hHead]
  have hShape : xs ++ [p] ++ c :: ys = xs ++ p :: [c] ++ ys := by simp
  rw [hShape] at hRemoved hKeeps ⊢
  have hFused := hRemoved.fuse (m := ⟨p.offset, p.size + overhead + c.size, false⟩) ?_ ?_ rfl rfl ?_
  · exact ⟨hFused.1, hKeeps.foreign_trans hFused.2 fun _ hb => hb⟩
  · simp [hp, hFlag]
  · intro d hd hMem
    obtain rfl := List.mem_singleton.mp hd
    exact (h.nodup.mem_erase_iff.mp hMem).1 rfl
  · rintro b ⟨_, _, hOffset, _, rfl⟩
    rw [Chunk.stop_mk, Chunk.stop, hOffset, Chunk.stop]
    omega

theorem Holds.coalesce_after (h : Holds r e (xs ++ c :: d :: ys) ns)
    (hListed : payload d.offset ∈ ns) (hFlag : c.allocated = false) (hd : d.allocated = false)
    (hLast : ∀ p ∈ xs.getLast?, p.allocated = true) :
    Holds (coalesce r c.offset).value e (xs ++ ⟨c.offset, c.size + overhead + d.size, false⟩ :: ys)
        (ns.erase (payload d.offset)) ∧
      r.Keeps (Foreign r.anchor (header e) ((xs ++ c :: d :: ys).map block))
        (coalesce r c.offset).value := by
  obtain ⟨hRemoved, hKeeps⟩ := h.remove hListed
  rw [h.value_coalesce_after hEnd hListed hd hLast]
  have hShape : xs ++ c :: d :: ys = xs ++ c :: [d] ++ ys := by simp
  rw [hShape] at hRemoved hKeeps ⊢
  have hFused := hRemoved.fuse (m := ⟨c.offset, c.size + overhead + d.size, false⟩) ?_ ?_ rfl rfl ?_
  · exact ⟨hFused.1, hKeeps.foreign_trans hFused.2 fun _ hb => hb⟩
  · simp [hFlag, hd]
  · intro f hf hMem
    obtain rfl := List.mem_singleton.mp hf
    exact (h.nodup.mem_erase_iff.mp hMem).1 rfl
  · rintro b ⟨_, _, hOffset, _, rfl⟩
    rw [Chunk.stop_mk, Chunk.stop, hOffset, Chunk.stop]
    omega

theorem Holds.coalesce_both (h : Holds r e (xs ++ [p] ++ c :: d :: ys) ns)
    (hListed : payload c.offset ∈ ns) (hListed' : payload d.offset ∈ ns)
    (hFlag : c.allocated = false) (hp : p.allocated = false) (hd : d.allocated = false) :
    Holds (coalesce r c.offset).value e
        (xs ++ ⟨p.offset, p.size + c.size + d.size + 2 * overhead, false⟩ :: ys)
        ((ns.erase (payload c.offset)).erase (payload d.offset)) ∧
      r.Keeps (Foreign r.anchor (header e) ((xs ++ [p] ++ c :: d :: ys).map block))
        (coalesce r c.offset).value := by
  obtain ⟨hFirst, hKeepsFirst⟩ := h.remove hListed
  obtain ⟨hRemoved, hKeepsRest⟩ := hFirst.remove (h.mem_erase_next hListed')
  have hKeeps := hKeepsFirst.foreign_trans hKeepsRest fun _ hb => hb
  rw [h.value_coalesce_both hEnd hListed hListed' hp hd]
  have hShape : xs ++ [p] ++ c :: d :: ys = xs ++ p :: [c, d] ++ ys := by simp
  rw [hShape] at hRemoved hKeeps ⊢
  have hFused := hRemoved.fuse
    (m := ⟨p.offset, p.size + c.size + d.size + 2 * overhead, false⟩) ?_ ?_ rfl rfl ?_
  · exact ⟨hFused.1, hKeeps.foreign_trans hFused.2 fun _ hb => hb⟩
  · simp [hp, hFlag, hd]
  · intro f hf hMem
    have hOnce := h.nodup.erase (payload c.offset)
    simp only [List.mem_cons, List.not_mem_nil, or_false] at hf
    rcases hf with rfl | rfl
    · exact (h.nodup.mem_erase_iff.mp (List.mem_of_mem_erase hMem)).1 rfl
    · exact (hOnce.mem_erase_iff.mp hMem).1 rfl
  · rintro b ⟨_, _, hOffset, _, hOffset', _, rfl⟩
    rw [Chunk.stop_mk, Chunk.stop, hOffset', Chunk.stop, hOffset, Chunk.stop]
    omega

theorem Holds.coalesce (h : Holds r e (xs ++ c :: ys) ns) (hFlag : c.allocated = false)
    (hListed : ∀ d ∈ xs ++ c :: ys, d.allocated = false → payload d.offset ∈ ns) :
    ∃ ds ms, Coalesced xs c ys ns ds ms ∧ Holds (coalesce r c.offset).value e ds ms ∧
      r.Keeps (Foreign r.anchor (header e) ((xs ++ c :: ys).map block))
        (coalesce r c.offset).value := by
  have hLast :
      (∀ p ∈ xs.getLast?, p.allocated = true) ∨ ∃ ws p, xs = ws ++ [p] ∧ p.allocated = false := by
    rcases List.eq_nil_or_concat' xs with rfl | ⟨ws, p, rfl⟩
    · exact .inl (by simp)
    · cases hp : p.allocated with
      | false => exact .inr ⟨ws, p, rfl, hp⟩
      | true => exact .inl (by simp [hp])
  have hHead :
      (∀ d ∈ ys.head?, d.allocated = true) ∨ ∃ d zs, ys = d :: zs ∧ d.allocated = false := by
    cases ys with
    | nil => exact .inl (by simp)
    | cons d zs =>
      cases hd : d.allocated with
      | false => exact .inr ⟨d, zs, rfl, hd⟩
      | true => exact .inl (by simp [hd])
  have hOwn := hListed c (by simp) hFlag
  rcases hLast with hLast | ⟨ws, p, rfl, hp⟩
  · rcases hHead with hHead | ⟨d, zs, rfl, hd⟩
    · refine ⟨_, _, .alone hLast hHead, ?_⟩
      rw [h.coalesce_alone hEnd hLast hHead]
      exact ⟨h, Region.Keeps.refl _ r⟩
    · exact ⟨_, _, .after hLast hd, h.coalesce_after hEnd (hListed d (by simp) hd) hFlag hd hLast⟩
  · rcases hHead with hHead | ⟨d, zs, rfl, hd⟩
    · exact ⟨_, _, .before hp hHead, h.coalesce_before hEnd hOwn hFlag hp hHead⟩
    · exact ⟨_, _, .both hp hd, h.coalesce_both hEnd hOwn (hListed d (by simp) hd) hFlag hp hd⟩

end Coalesce

theorem Coalesced.held_eq (h : Coalesced xs c ys ns ds ms) (hFlag : c.allocated = false) :
    held (ds.map block) = held ((xs ++ c :: ys).map block) := by
  rw [held_map allocated_block, held_map allocated_block, h.filter_eq hFlag]
  simp [hFlag]

theorem blockOf_payload (o : Nat) : blockOf (payload o) = o := Nat.add_sub_cancel o 16

theorem Holds.free_eq (h : Holds r e (xs ++ c :: ys) ns) :
    Explicit.free r (payload c.offset) =
      Explicit.coalesce (freeList.push (writeTags r [⟨c.offset, c.size, false⟩])
        (payload c.offset)) c.offset := by
  simp only [Explicit.free, blockOf_payload, h.size_eq (c := c) (by simp)]
  rfl

section Free

variable (h : Represents r (xs ++ c :: ys) ns) (hFlag : c.allocated = true)

include h hFlag

/-- Marking an allocated chunk free costs it nothing: it is not listed. -/
theorem Represents.marked : let d : Chunk := ⟨c.offset, c.size, false⟩
    Holds (writeTags r [d]) (r.size - overhead) (xs ++ d :: ys) ns ∧
      r.Keeps (Foreign r.anchor (header (r.size - overhead)) ((xs ++ d :: ys).map block))
        (writeTags r [d]) := by
  intro d
  have hHolds := h.holds
  have hSized := hHolds.tiles.wellSized (c := c) (by simp)
  have hTiles : Chunk.Tiles overhead c.offset [d] (c.stop overhead) := ⟨rfl, hSized, rfl⟩
  have hMarked := hHolds.replace hTiles (hHolds.not_listed (by simp) hFlag)
  rwa [List.append_assoc, List.singleton_append] at hMarked

theorem Represents.pushed : let d : Chunk := ⟨c.offset, c.size, false⟩
    let s := freeList.push (writeTags r [d]) (payload c.offset)
    Holds s (r.size - overhead) (xs ++ d :: ys) (ns ++ [payload c.offset]) ∧
      r.Keeps (Foreign r.anchor (header (r.size - overhead)) ((xs ++ d :: ys).map block)) s ∧
      (ns ++ [payload c.offset]).Perm (freeNodes (xs ++ d :: ys)) := by
  intro d s
  obtain ⟨hMarked, hKeepsMarked⟩ := h.marked hFlag
  have hUnlisted := h.holds.not_listed (c := c) (by simp) hFlag
  obtain ⟨hPushed, hKeepsPushed⟩ := hMarked.push (c := d) (by simp [d]) rfl hUnlisted
  refine ⟨hPushed, hKeepsMarked.foreign_trans hKeepsPushed fun _ hb => hb, ?_⟩
  have hListed := h.listed
  rw [freeNodes_append, freeNodes_cons_allocated hFlag] at hListed
  rw [freeNodes_append, freeNodes_cons_free rfl]
  exact (List.perm_append_singleton _ ns).trans ((hListed.cons _).trans List.perm_middle.symm)

/-- Releasing a block frees its chunk, makes it the newest node, and merges it with its free
neighbours. It takes nothing from the arena. -/
theorem Represents.free : ∃ ds ms,
    Coalesced xs ⟨c.offset, c.size, false⟩ ys (ns ++ [payload c.offset]) ds ms ∧
      Represents (free r (payload c.offset)).value ds ms ∧
      r.Evolves (ds.map block) (free r (payload c.offset)).value ∧
      (free r (payload c.offset)).value.arena.mark = r.arena.mark := by
  obtain ⟨hPushed, hKeeps, hPerm⟩ := h.pushed hFlag
  obtain ⟨hHolds, hEnd, hSeparated, -⟩ := h
  obtain ⟨ds, ms, hCoalesced, hDone, hKeepsDone⟩ := hPushed.coalesce
    ((epilogue_tag_eq hKeeps).trans hEnd) rfl
    fun d hd hFree => hPerm.mem_iff.mpr (mem_freeNodes.mpr ⟨d, hd, hFree, rfl⟩)
  rw [hHolds.free_eq]
  have hAll := hKeeps.foreign_trans hKeepsDone fun _ hb => hb
  refine ⟨ds, ms, hCoalesced, ⟨?_, ?_, ?_, ?_⟩, ?_, hAll.mark_eq⟩
  · rw [hAll.size_eq]
    exact hDone
  · rw [hAll.size_eq, epilogue_tag_eq hAll, hEnd]
  · obtain ⟨hLeft, hRight, _⟩ := List.isChain_append.mp hSeparated
    exact hCoalesced.separated hLeft (List.isChain_cons.mp hRight).2
  · exact hCoalesced.listed rfl hPerm
  · have hStop := hHolds.stop_le
    refine (hAll.evolves ?_).mono fun b hb => ?_
    · rw [overhead_eq] at hStop
      rw [header_eq, overhead_eq]
      omega
    · rwa [← hCoalesced.held_eq rfl]

end Free

end BlockHeap.Explicit
