import BlockHeap.Proofs.Explicit.Release
import BlockHeap.Proofs.Region.Anchoring

/-!
# Operations of an explicit heap

Allocation takes the newest listed chunk that is large enough, or appends one behind the last.
`Outcome` names the answer, the chunks and the nodes afterwards, in terms of those before and of the
bytes left in the arena.
-/

namespace BlockHeap.Explicit

open FreeList (Linked NodeAt)

variable {r s : Region} {e n need : Nat} {c d : Chunk} {cs ds xs ys : List Chunk}
  {ns ms older newer : List Nat}

/-- Chunks and nodes after an allocation of `n` bytes, and the payload that it answers. -/
inductive Outcome (n left size : Nat) (cs : List Chunk) (ns : List Nat) :
    Option Nat → List Chunk → List Nat → Prop where
  | unrepresentable : required? n = none → Outcome n left size cs ns none cs ns
  | reused {need : Nat} {xs ys : List Chunk} {c : Chunk} {older newer : List Nat} :
      required? n = some need → cs = xs ++ c :: ys → ns = older ++ payload c.offset :: newer →
      c.fits need = true → (∀ d ∈ cs, payload d.offset ∈ newer → d.size < need) →
      Outcome n left size cs ns (some (payload c.offset)) (xs ++ c.carve overhead need ++ ys)
        (older ++ newer ++ freeNodes (c.carve overhead need))
  | appended {need : Nat} :
      required? n = some need → (∀ d ∈ cs, d.fits need = false) → need + overhead ≤ left →
      Outcome n left size cs ns (some size) (cs ++ [⟨size - overhead, need, true⟩]) ns
  | exhausted {need : Nat} :
      required? n = some need → (∀ d ∈ cs, d.fits need = false) → left < need + overhead →
      Outcome n left size cs ns none cs ns

theorem required?_eq (n : Nat) : required? n =
    if wordLimit ≤ max ((n + 15) / 16 * 16) 16 then none
    else some (max ((n + 15) / 16 * 16) 16) := by
  unfold required?
  rw [PowerOfTwo.alignment_roundUp?]
  unfold wordLimit
  split
  · rw [if_neg (by omega)]
    exact congrArg some (Nat.max_comm _ _)
  · rw [if_pos (by omega)]
    rfl

theorem required?_eq_none_iff (n : Nat) :
    required? n = none ↔ wordLimit ≤ max ((n + 15) / 16 * 16) 16 := by
  rw [required?_eq]
  split
  · next h => exact iff_of_true rfl h
  · next h => exact iff_of_false (Option.some_ne_none _) h

theorem required?_eq_some_iff :
    required? n = some need ↔ max ((n + 15) / 16 * 16) 16 = need ∧ need < wordLimit := by
  rw [required?_eq]
  split
  · exact iff_of_false nofun (by omega)
  · rw [Option.some.injEq]
    omega

theorem required?_eq_some (h : required? n = some need) :
    n ≤ need ∧ 16 ≤ need ∧ need % 16 = 0 ∧ (need < n + 16 ∨ need = 16) := by
  obtain ⟨rfl, _⟩ := required?_eq_some_iff.mp h
  omega

theorem required?_pos (h : required? n = some need) : 0 < need ∧ need % 16 = 0 := by
  obtain ⟨_, hLe, hMod, _⟩ := required?_eq_some h
  exact ⟨Nat.lt_of_lt_of_le (by decide) hLe, hMod⟩

theorem Holds.chunkAt_eq (h : Holds r e cs ns) (hc : c ∈ cs) :
    chunkAt r (payload c.offset) = c := by
  rw [chunkAt, blockOf_payload, (h.tagged c hc).1]

/-- The search finds the newest node whose chunk is large enough. -/
theorem Represents.findFit?_some (h : Represents r cs ns) (hFind : findFit? r need = some c) :
    ∃ xs ys older newer, cs = xs ++ c :: ys ∧ ns = older ++ payload c.offset :: newer ∧
      c.fits need = true ∧ ∀ d ∈ cs, payload d.offset ∈ newer → d.size < need := by
  rw [findFit?, FreeList.findNewest?_eq, h.newestFirst_eq] at hFind
  obtain ⟨node, hNode, hEq⟩ := Option.map_eq_some_iff.mp hFind
  obtain ⟨hLarge, newer, older, hSplit, hSmall⟩ := List.find?_eq_some_iff_append.mp hNode
  have hNodes : ns = older.reverse ++ node :: newer.reverse := by
    rw [← List.reverse_reverse ns, hSplit]
    simp
  obtain ⟨d, hd, hFlag, rfl⟩ := h.holds.free node (by simp [hNodes])
  rw [h.holds.chunkAt_eq hd] at hEq hLarge
  subst hEq
  obtain ⟨xs, ys, rfl⟩ := List.append_of_mem hd
  refine ⟨xs, ys, older.reverse, newer.reverse, rfl, hNodes, ?_, ?_⟩
  · exact Chunk.fits_iff.mpr ⟨hFlag, of_decide_eq_true hLarge⟩
  · intro f hf hMem
    have hSmaller := hSmall _ (List.mem_reverse.mp hMem)
    rw [h.holds.chunkAt_eq hf] at hSmaller
    simpa using hSmaller

theorem Represents.findFit?_none (h : Represents r cs ns) (hFind : findFit? r need = none) :
    ∀ d ∈ cs, d.fits need = false := by
  rw [findFit?, FreeList.findNewest?_eq, h.newestFirst_eq, Option.map_eq_none_iff] at hFind
  intro d hd
  have hSmall := List.find?_eq_none.mp hFind (payload d.offset)
  rw [h.holds.chunkAt_eq hd, List.mem_reverse, h.listed.mem_iff, mem_freeNodes] at hSmall
  cases hFlag : d.allocated with
  | true => simp [Chunk.fits, hFlag]
  | false =>
    have hNot := hSmall ⟨d, hd, hFlag, rfl⟩
    simpa [Chunk.fits, hFlag] using hNot

theorem value_place (r : Region) (c : Chunk) (need : Nat) : (place r c need).value =
    (freeNodes (c.carve overhead need)).foldl freeList.push
      (writeTags (FreeList.remove r (payload c.offset)) (c.carve overhead need)) := by
  unfold place Chunk.carve
  rw [Journaled.value_ite]
  by_cases hWhole : c.size - need < overhead + 16
  · rw [if_pos hWhole, if_pos (show c.size - need < overhead + minimumSize from hWhole)]
    rfl
  · rw [if_neg hWhole, if_neg (show ¬ c.size - need < overhead + minimumSize from hWhole)]
    rfl

theorem erase_of_split (h : (older ++ n :: newer).Nodup) :
    (older ++ n :: newer).erase n = older ++ newer := by
  have hOld : n ∉ older := fun hMem =>
    (List.nodup_append.mp h).2.2 _ hMem _ List.mem_cons_self rfl
  rw [List.erase_append_right _ hOld, List.erase_cons_head]

/-- Placing takes the bytes at the start of a listed chunk; what is left becomes the newest node. -/
theorem Represents.place (h : Represents r (xs ++ c :: ys) (older ++ payload c.offset :: newer))
    (hNeed : 0 < need ∧ need % 16 = 0) (hFits : c.fits need = true) :
    Represents (place r c need).value (xs ++ c.carve overhead need ++ ys)
      (older ++ newer ++ freeNodes (c.carve overhead need)) ∧
    r.Evolves ((xs ++ c :: ys).map block) (place r c need).value := by
  obtain ⟨hHolds, hEnd, hSeparated, hListed⟩ := h
  obtain ⟨hFlag, hLe⟩ := Chunk.fits_iff.mp hFits
  have hErase := erase_of_split hHolds.nodup
  obtain ⟨hRemoved, hKeepsRemoved⟩ := hHolds.remove (n := payload c.offset) (by simp)
  have hTiles : Chunk.Tiles overhead c.offset (c.carve overhead need) (c.stop overhead) :=
    Chunk.tiles_carve (by decide) (hHolds.tiles.wellSized (by simp)) hNeed hLe
  have hRest := perm_erase_freeNodes hListed hFlag
  rw [hErase] at hRemoved hRest
  have hUnlisted : payload c.offset ∉ older ++ newer := by
    rw [← hErase]
    exact fun hMem => (hHolds.nodup.mem_erase_iff.mp hMem).1 rfl
  obtain ⟨hCarved, hKeepsCarved⟩ := hRemoved.replace hTiles hUnlisted
  have hHeld : ∀ b ∈ held ((xs ++ c :: ys).map block),
      b ∈ held ((xs ++ c.carve overhead need ++ ys).map block) := by
    rw [List.append_cons]
    exact held_map_exchange allocated_block (by simpa using hFlag) _
  have hKeeps := hKeepsRemoved.foreign_trans hKeepsCarved hHeld
  have hNodes := perm_append_freeNodes hRest (c.carve overhead need)
  have hNodup := hNodes.nodup_iff.mpr (nodup_freeNodes hCarved.tiles)
  obtain ⟨hDone, hKeepsDone⟩ := hCarved.pushAll hNodup fun n hn => by
    rw [← mem_freeNodes, freeNodes_append, freeNodes_append]
    exact List.mem_append_left _ (List.mem_append_right _ hn)
  rw [← value_place] at hDone hKeepsDone
  have hKept := hKeeps.foreign_trans hKeepsDone hHeld
  have hStop := hHolds.stop_le
  refine ⟨⟨?_, ?_, hSeparated.carve hFlag, hNodes⟩, hKept.evolves ?_⟩
  · rw [hKept.size_eq]
    exact hDone
  · rw [hKept.size_eq, epilogue_tag_eq hKept, hEnd]
  · rw [overhead_eq] at hStop
    rw [header_eq, overhead_eq]
    omega

theorem Holds.seal (h : Holds r e cs ns) (he : r.size = e + overhead) :
    Holds (r.setTag (header e) Tag.sentinel) e cs ns ∧
      (r.setTag (header e) Tag.sentinel).tag (header e) = Tag.sentinel ∧
      r.Keeps (Foreign r.anchor r.size (cs.map block)) (r.setTag (header e) Tag.sentinel) := by
  have hKeeps : r.Keeps (fun x => ¬ r.WordAt (header e) x) (r.setTag (header e) Tag.sentinel) :=
    Region.keeps_setTag fun _ hx hNot => hNot hx
  refine ⟨h.of_keeps hKeeps ?_ ?_, Region.tag_setTag _ _ (by decide) (by decide),
    Region.keeps_setTag ?_⟩
  · intro o ho x hx
    exact Region.WordAt.disjoint
      (.inr (Nat.add_le_add_right (tagWord_stop_le h.tiles ho) wordSize)) hx
  · intro o ho x hx
    obtain ⟨n, hn, ho⟩ := mem_linkWords.mp ho
    have hStop := site_stop_le h.tiles (site_of_mem h.free hn)
    refine Region.WordAt.disjoint (.inr ?_) hx
    rw [header_eq]
    unfold wordSize at *
    omega
  · apply Region.not_foreign
    · exact he.ge
    · intro b hb
      rw [held_map allocated_block] at hb
      obtain ⟨d, hd, rfl⟩ := List.mem_map.mp hb
      have hBounds := bounds_of_mem h.tiles (List.mem_of_mem_filter hd)
      refine .inr ?_
      show d.offset + 16 + d.size ≤ e + 8
      omega

/-- The old epilogue is overwritten by the header of a new last chunk, so for a while there is no
epilogue at all. -/
theorem Represents.retag_append (h : Represents r cs ns) (hNeed : 16 ≤ need ∧ need % 16 = 0)
    (hGrown : r.Grown (need + overhead) s) :
    let u := writeTags s [⟨r.size - overhead, need, true⟩]
    let ds := cs ++ [⟨r.size - overhead, need, true⟩]
    Holds u (r.size + need) ds ns ∧
      s.Keeps (Foreign s.anchor (header (r.size + need)) (ds.map block)) u := by
  obtain ⟨hHolds, -, -, -⟩ := h
  have hStop := hHolds.stop_le
  have hStart := hHolds.tiles.le
  rw [prologue_eq] at hStart
  rw [overhead_eq] at hStop
  have hNew : (⟨r.size - overhead, need, true⟩ : Chunk).stop overhead = r.size + need := by
    rw [Chunk.stop_mk, overhead_eq]
    omega
  have hSize : s.size = r.size + need + overhead := by
    rw [hGrown.size_eq, Nat.add_assoc]
  have hTiles : Chunk.Tiles overhead prologue
      (cs ++ [(⟨r.size - overhead, need, true⟩ : Chunk)] ++ []) (r.size + need) := by
    rw [List.append_nil, Chunk.tiles_append_cons]
    exact ⟨hHolds.tiles, (Tag.wellSized_iff _).mpr
      ⟨Nat.lt_of_lt_of_le (by decide) hNeed.1, hNeed.2⟩, hNew⟩
  have hTagged := (hHolds.of_grown hGrown).retag hTiles hSize.ge
    (fun c hc => by simpa using hc) fun n hn => by
      obtain ⟨c, hc, hFlag, rfl⟩ := hHolds.free n hn
      exact ⟨c, by simp [hc], hFlag, rfl⟩
  rwa [List.append_nil] at hTagged

theorem Represents.append (h : Represents r cs ns) (hNeed : 16 ≤ need ∧ need % 16 = 0)
    (hGrown : r.Grown (need + overhead) s) :
    let u := writeTags s [⟨r.size - overhead, need, true⟩]
    let t := u.setTag (header (nextOf u (r.size - overhead))) Tag.sentinel
    Represents t (cs ++ [⟨r.size - overhead, need, true⟩]) ns ∧ r.Evolves (cs.map block) t := by
  intro u t
  obtain ⟨hTagged, hKeepsTagged⟩ := h.retag_append hNeed hGrown
  obtain ⟨hHolds, -, hSeparated, hListed⟩ := h
  have hStop := hHolds.stop_le
  rw [overhead_eq] at hStop
  have hSize : s.size = r.size + need + overhead := by
    rw [hGrown.size_eq, Nat.add_assoc]
  have hBehind : nextOf u (r.size - overhead) = r.size + need := by
    refine hTagged.nextOf_eq.trans ?_
    rw [Chunk.stop_mk, overhead_eq]
    omega
  have hWritten : t = u.setTag (header (r.size + need)) Tag.sentinel := by rw [← hBehind]
  obtain ⟨hSealed, hEnd, hKeepsSealed⟩ := hTagged.seal (hKeepsTagged.size_eq.trans hSize)
  rw [← hWritten] at hSealed hEnd hKeepsSealed
  have hSizeSealed : t.size = r.size + need + overhead :=
    hKeepsSealed.size_eq.trans (hKeepsTagged.size_eq.trans hSize)
  have hEpilogue : t.size - overhead = r.size + need := by
    rw [hSizeSealed, Nat.add_sub_cancel]
  have hHeld : ∀ b ∈ held (cs.map block),
      b ∈ held ((cs ++ [(⟨r.size - overhead, need, true⟩ : Chunk)]).map block) :=
    held_map_subset allocated_block fun d hd _ => List.mem_append_left _ hd
  refine ⟨⟨hEpilogue ▸ hSealed, hEpilogue ▸ hEnd, ?_, ?_⟩, ?_⟩
  · refine List.isChain_append.mpr ⟨hSeparated, List.isChain_singleton _, fun _ _ d hd => .inr ?_⟩
    obtain rfl := Option.some.inj hd
    rfl
  · rw [freeNodes_append]
    simpa [freeNodes] using hListed
  · have hTagging := hGrown.evolves.trans (hKeepsTagged.evolves (by
      rw [hSize, header_eq, overhead_eq]
      omega)) hHeld
    exact hTagging.trans (hKeepsSealed.evolves le_rfl) hHeld

theorem value_append (h : (r.grow (need + overhead)).value = (some r.size, s))
    (hNeed : need + overhead < wordLimit) :
    (append r need).value =
      let u := writeTags s [⟨r.size - overhead, need, true⟩]
      (some (payload (r.size - overhead)),
        u.setTag (header (nextOf u (r.size - overhead))) Tag.sentinel) := by
  unfold append
  rw [if_neg (Nat.not_le.mpr hNeed), Journaled.value_bind, h]
  rfl

theorem value_append_none (h : (r.grow (need + overhead)).value = (none, s))
    (hNeed : need + overhead < wordLimit) :
    (append r need).value = (none, s) := by
  unfold append
  rw [if_neg (Nat.not_le.mpr hNeed), Journaled.value_bind, h]
  rfl

theorem value_append_of_le (r : Region) (h : wordLimit ≤ need + overhead) :
    (append r need).value = (none, r) := by
  unfold append
  rw [if_pos h]
  rfl

theorem value_allocate_none (h : required? n = none) : (allocate r n).value = (none, r) := by
  simp [allocate, h]

theorem value_allocate_some (h : required? n = some need) : (allocate r n).value =
    match findFit? r need with
    | some c => (some (payload c.offset), (place r c need).value)
    | none => (append r need).value := by
  simp only [allocate, h]
  cases findFit? r need with
  | some c => rfl
  | none => rfl

theorem Represents.of_grown (h : Represents r cs ns) (hs : r.Grown 0 s) : Represents s cs ns where
  holds := by
    rw [hs.size_eq]
    exact h.holds.of_grown hs
  epilogue_tag := by
    rw [hs.size_eq, hs.tag_eq]
    exact h.epilogue_tag
  separated := h.separated
  listed := h.listed

theorem Represents.allocate (h : Represents r cs ns) (n : Nat) : ∃ answer s ds ms,
    (allocate r n).value = (answer, s) ∧
    Outcome n (r.arena.capacity - r.arena.size) r.size cs ns answer ds ms ∧
    Represents s ds ms ∧ r.Evolves (cs.map block) s := by
  cases hNeed : required? n with
  | none =>
    exact ⟨none, r, cs, ns, value_allocate_none hNeed, .unrepresentable hNeed, h,
      Region.Evolves.refl _ r⟩
  | some need =>
    have hPos := required?_pos hNeed
    obtain ⟨_, hLeast, hMod, _⟩ := required?_eq_some hNeed
    rw [value_allocate_some hNeed]
    cases hFind : findFit? r need with
    | some c =>
      obtain ⟨xs, ys, older, newer, rfl, rfl, hFits, hNewest⟩ := h.findFit?_some hFind
      obtain ⟨hPlaced, hEvolves⟩ := h.place hPos hFits
      exact ⟨_, _, _, _, rfl, .reused hNeed rfl rfl hFits hNewest, hPlaced, hEvolves⟩
    | none =>
      have hNone := h.findFit?_none hFind
      have hCapacity := r.arena.end_lt
      rcases r.grow_cases (need + overhead) with ⟨hRoom, s, hGrow, hGrown⟩ |
        ⟨hRoom, s, hGrow, hGrown⟩
      · obtain ⟨hAppended, hEvolves⟩ := h.append ⟨hLeast, hMod⟩ hGrown
        have hSize := h.size_ge
        have hPayload : payload (r.size - overhead) = r.size := by
          rw [payload_eq, overhead_eq]
          omega
        refine ⟨_, _, _, _, ?_, .appended hNeed hNone hRoom, hAppended, hEvolves⟩
        rw [value_append hGrow (by omega), hPayload]
      · by_cases hLimit : need + overhead < wordLimit
        · exact ⟨none, s, cs, ns, value_append_none hGrow hLimit, .exhausted hNeed hNone hRoom,
            h.of_grown hGrown, hGrown.evolves⟩
        · exact ⟨none, r, cs, ns, value_append_of_le r (Nat.not_lt.mp hLimit),
            .exhausted hNeed hNone hRoom, h, Region.Evolves.refl _ r⟩

theorem represents_empty (hr : r.Anchored) (hSize : r.size = 48) :
    Represents (freeList.layOut
      ((r.setTag prologue Tag.sentinel).setTag (header prologue) Tag.sentinel)) [] [] := by
  let t := (r.setTag prologue Tag.sentinel).setTag (header prologue) Tag.sentinel
  have hTagged : r.Keeps (fun _ => False) t :=
    (Region.keeps_setTag fun _ _ hNot => hNot).trans (Region.keeps_setTag fun _ _ hNot => hNot)
  have hListed : t.Keeps (fun x => t.WordAt prologue x ∨ t.WordAt (header prologue) x)
      (freeList.layOut t) := by
    refine FreeList.keeps_layOut fun m hm x hNode hx => ?_
    have hSentinel : m = 0 ∨ m = 16 := by simpa [freeList, FreeList.nodeSize, wordSize] using hm
    unfold NodeAt Region.WordAt Region.address FreeList.nodeSize header prologue
      FreeList.nodeSize wordSize at *
    omega
  have hEnd : (freeList.layOut t).size = 48 := hListed.size_eq.trans (hTagged.size_eq.trans hSize)
  refine ⟨⟨hListed.anchored (hTagged.anchored hr), ?_, ?_, ?_, by simp, ?_, List.nodup_nil,
    by simp⟩, ?_, List.isChain_nil, List.Perm.nil⟩
  · rw [Chunk.tiles_nil, hEnd]
    rfl
  · rw [hEnd]
    exact Nat.le_refl 48
  · rw [hListed.tag_eq fun _ hx => .inl hx, Region.tag_setTag_of_disjoint _ _ (.inl (by decide)),
      Region.tag_setTag _ _ (by decide) (by decide)]
  · exact FreeList.linked_layOut t (Or.inl (by decide)) (by decide) (by decide)
  · rw [hEnd]
    show (freeList.layOut t).tag (header prologue) = Tag.sentinel
    rw [hListed.tag_eq fun _ hx => .inr hx, Region.tag_setTag _ _ (by decide) (by decide)]

theorem represents_layOut (h : (layOut r).value = (true, s)) : Represents s [] [] := by
  unfold layOut at h
  cases hAnchor : r.reanchor.value with
  | mk anchored t =>
    simp only [Journaled.value_bind, hAnchor] at h
    cases anchored with
    | false => simp at h
    | true =>
      obtain ⟨ht, hEmpty, -⟩ := Region.reanchor_value hAnchor
      rcases t.grow_cases (2 * FreeList.nodeSize + 2 * wordSize) with ⟨_, u, hGrow, hGrown⟩ |
        ⟨_, u, hGrow, _⟩
      · simp [hGrow] at h
        subst h
        exact represents_empty (hGrown.anchored ht) (by
          rw [hGrown.size_eq, hEmpty]
          rfl)
      · simp [hGrow] at h

theorem keeps_layOut (r : Region) : r.Keeps (fun x => x < r.anchor ∨ r.anchor + 48 ≤ x)
    (freeList.layOut ((r.setTag prologue Tag.sentinel).setTag (header prologue) Tag.sentinel)) := by
  let t := (r.setTag prologue Tag.sentinel).setTag (header prologue) Tag.sentinel
  have hTagged : r.Keeps (fun x => x < r.anchor ∨ r.anchor + 48 ≤ x) t := by
    refine (Region.keeps_setTag fun x hx hFar => ?_).trans
      (Region.keeps_setTag fun x hx hFar => ?_)
    · unfold Region.WordAt Region.address prologue FreeList.nodeSize wordSize at hx
      omega
    · unfold Region.WordAt Region.address header prologue FreeList.nodeSize wordSize at hx
      rw [Region.anchor_setTag] at hx
      omega
  refine hTagged.trans (FreeList.keeps_layOut fun m hm x hNode hFar => ?_)
  have hSentinel : m = 0 ∨ m = 16 := by simpa [freeList, FreeList.nodeSize, wordSize] using hm
  have hAnchor : t.anchor = r.anchor := hTagged.anchor_eq
  unfold NodeAt Region.address FreeList.nodeSize wordSize at hNode
  omega

theorem laidOut (r : Region) : r.LaidOut 48 (layOut r).value.1 (layOut r).value.2 := by
  show r.LaidOut (2 * FreeList.nodeSize + 2 * wordSize) _ _
  unfold layOut
  rcases r.laidOut_cases (2 * FreeList.nodeSize + 2 * wordSize) with ⟨s, hAnchor, hLaidOut⟩ |
    ⟨s, hAnchor, ⟨t, hGrow, hLaidOut⟩ | ⟨t, hGrow, hLaidOut⟩⟩
  · simpa [hAnchor] using hLaidOut
  · simpa [hAnchor, hGrow] using hLaidOut
  · simpa [hAnchor, hGrow] using hLaidOut.of_keeps (keeps_layOut t)

theorem agree_layOut (r : Region) : r.arena.memory.Agree
    (fun x => x < r.arena.aligned ∨ (layOut r).value.2.arena.mark ≤ x)
    (layOut r).value.2.arena.memory := by
  unfold layOut
  rcases r.reanchor_cases with ⟨_, s, hAnchor, hStart, _, hMark, _, _, hMemory⟩ |
    ⟨_, s, hAnchor, _, _, _, hMemory⟩
  · rcases s.grow_cases (2 * FreeList.nodeSize + 2 * wordSize) with ⟨_, t, hGrow, hGrown⟩ |
      ⟨_, t, hGrow, hGrown⟩
    · have hWritten := keeps_layOut t
      have hEnd := hWritten.mark_eq.trans (hGrown.mark_eq.trans (congrArg (· + 48) hMark))
      have hAgree := hWritten.agree
      rw [hGrown.memory_eq.trans hMemory, hGrown.anchor_eq.trans hStart, ← hEnd] at hAgree
      simpa [hAnchor, hGrow] using hAgree
    · have hSame := hGrown.memory_eq.trans hMemory
      simpa [hAnchor, hGrow, hSame] using Memory.Agree.refl _ r.arena.memory
  · simpa [hAnchor, hMemory] using Memory.Agree.refl _ r.arena.memory

theorem base_layOut (h : (layOut r).value = (true, s)) : s.arena.base = r.arena.base := by
  unfold layOut at h
  rcases r.reanchor_cases with ⟨_, t, hAnchor, _, _, _, hBase, _, _⟩ | ⟨_, t, hAnchor, _⟩
  · rcases t.grow_cases (2 * FreeList.nodeSize + 2 * wordSize) with ⟨_, u, hGrow, hGrown⟩ |
      ⟨_, u, hGrow, _⟩
    · obtain rfl : freeList.layOut ((u.setTag prologue Tag.sentinel).setTag (header prologue)
          Tag.sentinel) = s := by simpa [hAnchor, hGrow] using h
      exact (keeps_layOut u).base_eq.trans (hGrown.base_eq.trans hBase)
    · simp [hAnchor, hGrow] at h
  · simp [hAnchor] at h

theorem layOut_congr (h : r.arena = s.arena) :
    Region.SameOrLeft r s (layOut r).value (layOut s).value := by
  unfold layOut
  rcases Region.reanchor_congr h with hSame | ⟨a, hr, hs⟩
  · exact .inl (by simp only [Journaled.value_bind, hSame])
  · exact .inr ⟨a, by simp [hr], by simp [hs]⟩

end BlockHeap.Explicit
