import BlockHeap.Proofs.Watched.Explicit.Basic

/-!
# Operations of an explicit heap under watch

On a secure bench every operation of the explicit strategy comes to an end, with the answer and the
region that it should have, and leaves the bench secure. No loop takes more rounds than there are
blocks: the free list has at most as many nodes, and the walk passes every header once.
-/

namespace BlockHeap.Watched.Explicit

open Bench
open BlockHeap.Explicit
open FreeList (Linked)

variable {b : Bench} {e need : Nat} {x : Chunk} {cs ds xs ys : List Chunk}
  {ns ms older newer : List Nat}

theorem does_seek_none (need rounds : Nat) (b : Bench) : Does (seek need rounds none) b none b := by
  cases rounds <;> rfl

/-- The search from any node towards the first sentinel takes no more rounds than there are nodes
on the way. -/
theorem Kept.does_seek (h : Kept b e cs ns) {z : Nat}
    (hLinked : Linked b.region freeList.first ms z) (hMem : ∀ n ∈ ms, n ∈ ns)
    {rounds : Nat} (hRounds : ms.length ≤ rounds) (need : Nat) :
    Does (seek need rounds (if FreeList.prev b.region z = freeList.first then none
        else some (FreeList.prev b.region z))) b
      ((ms.reverse.find? fun n => need ≤ (chunkAt b.region n).size).map fun n =>
        ((chunkAt b.region n).offset, (chunkAt b.region n).size)) b := by
  induction ms using List.reverseRecOn generalizing z rounds with
  | nil =>
    rw [if_pos hLinked.2]
    exact does_seek_none need rounds b
  | append_singleton ms n ih =>
    obtain ⟨hLeft, hRight⟩ := FreeList.linked_append_cons.mp hLinked
    have hn : n ∈ ns := hMem n (by simp)
    obtain ⟨x, hx, _, rfl⟩ := h.holds.free n hn
    rw [List.length_append, List.length_singleton] at hRounds
    obtain ⟨rounds, rfl⟩ := Nat.exists_eq_add_one.mpr (Nat.zero_lt_of_lt hRounds)
    have hNot : payload x.offset ≠ freeList.first := fun hEq => h.holds.not_mem.1 (hEq ▸ hn)
    have hOwned := h.owned_node (List.mem_cons_of_mem _ (List.mem_append_left _ hn))
    have hNode := h.hasNode (List.mem_cons_of_mem _ (List.mem_append_left _ hn))
    rw [hRight.2, if_neg hNot, List.reverse_append, List.reverse_singleton, List.singleton_append,
      List.find?_cons, h.holds.chunkAt_eq hx]
    refine (does_blockAt x.offset b).bind ((does_sizeAt h hx).bind ?_)
    by_cases hLarge : need ≤ x.size
    · simp only [hLarge, if_true, decide_true, Option.map_some]
      rw [h.holds.chunkAt_eq hx]
      exact does_pure _ b
    · simp only [hLarge, if_false, decide_false]
      exact (does_older h.holds.anchored hNode.1 hOwned.1).bind
        (ih hLeft (fun m hm => hMem m (List.mem_append_left _ hm)) (by omega))

theorem Secure.does_search (h : Secure b cs ns) (need : Nat) :
    Does (search need) b
      ((findFit? b.region need).map fun x => (x.offset, x.size)) b := by
  have hLast := h.kept.owned_node (n := freeList.last) (by simp)
  have hNode := h.kept.hasNode (n := freeList.last) (by simp)
  have hRounds : ns.length ≤ (chunks b.region).length := by
    rw [h.represents.chunks_eq]
    exact h.represents.length_nodes_le
  have hSeek := h.kept.does_seek h.represents.holds.linked (fun _ hn => hn) hRounds need
  rw [findFit?, FreeList.findNewest?_eq, h.represents.newestFirst_eq, Option.map_map]
  exact (does_get b).bind ((does_older h.represents.holds.anchored hNode.1 hLast.1).bind hSeek)

section Carve

variable (h : Kept b e (xs ++ x :: ys) ns) (hUnlisted : payload x.offset ∉ ns)
  (hNeed : 0 < need ∧ need % 16 = 0) (hLe : need ≤ x.size)

include h hUnlisted hNeed hLe

theorem Kept.holds_carve : Holds (writeTags b.region (x.carve overhead need)) e
    (xs ++ x.carve overhead need ++ ys) ns :=
  (h.holds.replace (Chunk.tiles_carve (by decide) (h.holds.tiles.wellSized (by simp)) hNeed hLe)
    hUnlisted).1

theorem Kept.does_carve_whole (hWhole : x.size - need < overhead + 16) :
    ∃ c, Does (carve x.offset x.size need) b ⟨⟩ c ∧
      c.region = writeTags b.region [⟨x.offset, x.size, true⟩] ∧
      Kept c e (xs ++ ⟨x.offset, x.size, true⟩ :: ys) ns ∧ b.Marks [] c := by
  have hHolds := h.holds_carve hUnlisted hNeed hLe
  rw [Chunk.carve, if_pos hWhole, List.append_assoc, List.singleton_append] at hHolds
  obtain ⟨c, hMark, hDone⟩ := h.does_mark hHolds (by simp +contextual [or_imp])
  refine ⟨c, (does_minus hLe b).bind ?_, hDone⟩
  rw [if_pos (show x.size - need < overhead + minimumSize from hWhole)]
  exact hMark

theorem Kept.does_carve_rest (hRest : ¬ x.size - need < overhead + 16) :
    let rest : Chunk := ⟨x.offset + overhead + need, x.size - need - overhead, false⟩
    ∃ c, Does (carve x.offset x.size need) b ⟨⟩ c ∧
      c.region = freeList.push (writeTags b.region [⟨x.offset, need, true⟩, rest])
        (payload rest.offset) ∧
      Kept c e (xs ++ [⟨x.offset, need, true⟩, rest] ++ ys) (ns ++ [payload rest.offset]) ∧
      b.Marks [] c := by
  intro rest
  have hHolds := h.holds_carve hUnlisted hNeed hLe
  rw [Chunk.carve, if_neg hRest] at hHolds
  rw [overhead_eq] at hRest
  have hx : x ∈ xs ++ x :: ys := by simp
  have hIn := inside_of_mem hHolds (x := ⟨x.offset, need, true⟩) (by simp)
  have hIn' := inside_of_mem hHolds (x := rest) (by simp [rest])
  obtain ⟨c₁, hMark, hRegion, hMarks⟩ := Explicit.does_mark h.holds.anchored hIn
  have hAnchored : c₁.region.Anchored := hRegion ▸ anchored_setTags h.holds.anchored _ _
  have hSize : c₁.region.size = b.region.size := hRegion ▸ rfl
  obtain ⟨c₂, hMark', hRegion', hMarks'⟩ := Explicit.does_mark hAnchored (hSize ▸ hIn')
  have hBoth : c₂.region = writeTags b.region [⟨x.offset, need, true⟩, rest] := by
    rw [hRegion', hRegion]
    rfl
  have hKept := h.retagged (hMarks.trans hMarks') hBoth hHolds (by simp [rest]) (by
    simp +contextual [or_imp])
  have hNew : payload rest.offset ∉ ns := fun hMem => by
    obtain ⟨d, hd, _, hEq⟩ := h.holds.free _ hMem
    have hBounds := bounds_of_mem h.holds.tiles hd
    have hOffset : rest.offset = x.offset + 16 + need := rfl
    rw [payload_eq, payload_eq] at hEq
    rcases apart_of_mem h.holds.tiles hx hd with rfl | hApart | hApart
    · omega
    · omega
    · omega
  obtain ⟨c, hPush, hDone, hKept', hMarks''⟩ :=
    hKept.does_push (x := rest) (by simp [rest]) rfl hNew
  rw [hBoth] at hDone
  refine ⟨c, (does_minus hLe b).bind ?_, hDone, hKept',
    ((hMarks.trans hMarks').trans hMarks'').mono nofun⟩
  have hBounds := inside_of_mem h.holds hx
  have hLimit := h.holds.anchored.end_lt
  have hPlus := does_plus (m := payload x.offset) (n := need) (by rw [payload_eq]; omega) b
  have hMinus := does_minus (m := x.size - need) (n := overhead) (by rw [overhead_eq]; omega) b
  have hNode := does_plus (m := payload x.offset + need) (n := alignment.value)
    (by rw [payload_eq, alignment_value]; omega) c₂
  rw [if_neg (show ¬ x.size - need < overhead + minimumSize from hRest)]
  exact (does_payloadAt h hx).bind (hPlus.bind ((does_minus hLe b).bind (hMinus.bind
    (hMark.bind (hMark'.bind (hNode.bind hPush))))))

theorem Kept.does_carve : ∃ c, Does (carve x.offset x.size need) b ⟨⟩ c ∧
    c.region = (freeNodes (x.carve overhead need)).foldl freeList.push
      (writeTags b.region (x.carve overhead need)) ∧
    Kept c e (xs ++ x.carve overhead need ++ ys) (ns ++ freeNodes (x.carve overhead need)) ∧
    b.Marks [] c := by
  by_cases hWhole : x.size - need < overhead + 16
  · rw [Chunk.carve, if_pos hWhole, List.append_assoc, List.singleton_append]
    rw [show freeNodes [⟨x.offset, x.size, true⟩] = [] from rfl, List.append_nil]
    exact h.does_carve_whole hUnlisted hNeed hLe hWhole
  · rw [Chunk.carve, if_neg hWhole]
    exact h.does_carve_rest hUnlisted hNeed hLe hWhole

end Carve

theorem Secure.does_take (h : Secure b (xs ++ x :: ys) (older ++ payload x.offset :: newer))
    (hNeed : 0 < need ∧ need % 16 = 0) (hFits : x.fits need = true) :
    ∃ c, Does (take x.offset x.size need) b ⟨⟩ c ∧
      c.region = (place b.region x need).value ∧
      Secure c (xs ++ x.carve overhead need ++ ys)
        (older ++ newer ++ freeNodes (x.carve overhead need)) := by
  have hLe := (Chunk.fits_iff.mp hFits).2
  have hNodup := h.represents.holds.nodup
  obtain ⟨hPlaced, -⟩ := h.represents.place hNeed hFits
  obtain ⟨c₁, hRemove, hRegion₁, hKept₁, hMarks₁⟩ :=
    h.kept.does_remove (n := payload x.offset) (by simp)
  have hUnlisted : payload x.offset ∉ older ++ newer := by
    rw [← erase_of_split hNodup]
    exact fun hMem => (hNodup.mem_erase_iff.mp hMem).1 rfl
  rw [erase_of_split hNodup] at hKept₁
  obtain ⟨c, hCarve, hRegion, hKept, hMarks⟩ := hKept₁.does_carve hUnlisted hNeed hLe
  rw [hRegion₁, ← value_place] at hRegion
  exact ⟨c, .ensured hLe ((does_payloadAt h.kept (by simp)).bind (hRemove.bind hCarve)), hRegion,
    hKept.secure (hRegion ▸ hPlaced)
      (hMarks.of_owned (hMarks₁.of_owned (h.owned _ List.mem_cons_self)))⟩

theorem Secure.does_reuse_none (h : Secure b cs ns) (hFind : findFit? b.region need = none) :
    Does (reuse need) b none b := by
  have hSearch := h.does_search need
  rw [hFind] at hSearch
  exact hSearch.bind (does_pure _ b)

theorem Secure.does_reuse_some (h : Secure b cs ns) (hNeed : 0 < need ∧ need % 16 = 0)
    (hFind : findFit? b.region need = some x) :
    ∃ c ds ms, Does (reuse need) b (some x.offset) c ∧
      c.region = (place b.region x need).value ∧ Secure c ds ms ∧ x ∈ cs := by
  have hSearch := h.does_search need
  rw [hFind] at hSearch
  obtain ⟨xs, ys, older, newer, rfl, rfl, hFits, _⟩ := h.represents.findFit?_some hFind
  obtain ⟨c, hTake, hRegion, hSecure⟩ := h.does_take hNeed hFits
  exact ⟨c, _, _, hSearch.bind (hTake.bind (does_pure _ c)), hRegion, hSecure, by simp⟩

theorem Kept.grown {k : Nat} {s : Region} (h : Kept b e cs ns) (hs : b.region.Grown k s) :
    Kept { b with region := s } e cs ns where
  holds := h.holds.of_grown hs
  closed := ⟨(hs.word_eq _).trans h.closed.1, (hs.word_eq _).trans h.closed.2⟩
  owned o ho := (h.owned o ho).grown hs

theorem Kept.does_seal (h : Kept b e cs ns) (he : b.region.size = e + overhead) :
    ∃ c, Does (store (header e) Tag.sentinel.word) b ⟨⟩ c ∧
      c.region = b.region.setTag (header e) Tag.sentinel ∧ Kept c e cs ns ∧
      c.Owned (header e) := by
  have hStart := h.holds.tiles.le
  have hMarks := marks_store b (header e) Tag.sentinel.word
  rw [prologue_eq] at hStart
  refine ⟨_, does_store h.holds.anchored (inside_epilogue h.holds) _, rfl, ?_,
    hMarks.owned _ List.mem_cons_self⟩
  refine h.written hMarks (h.holds.seal he).1 ⟨?_, ?_⟩ (fun y hy => .inl hy) fun n hn => .inl hn
  · rw [← h.closed.1]
    refine Region.word_setWord_of_disjoint _ _ (.inl ?_)
    rw [header_eq]
    unfold freeList wordSize
    simp only
    omega
  · rw [← h.closed.2]
    refine Region.word_setWord_of_disjoint _ _ (.inl ?_)
    rw [header_eq]
    unfold freeList FreeList.nodeSize wordSize
    simp only
    omega

section Extend

variable {s : Region} (h : Secure b cs ns) (hLimit : need + overhead < wordLimit)

include h hLimit

theorem Secure.does_extend_of_grown (hNeed : 16 ≤ need ∧ need % 16 = 0)
    (hValue : (b.region.grow (need + overhead)).value = (some b.region.size, s))
    (hGrown : b.region.Grown (need + overhead) s) :
    ∃ c ds ms, Does (extend need) b (append b.region need).value.1 c ∧
      c.region = (append b.region need).value.2 ∧ Secure c ds ms := by
  let y : Chunk := ⟨b.region.size - overhead, need, true⟩
  have hSize := h.represents.size_ge
  have hGrow := does_grow h.represents.holds.anchored (need + overhead)
  have hTagged := (h.represents.retag_append hNeed hGrown).1
  have hAppended := (h.represents.append hNeed hGrown).1
  rw [hValue] at hGrow
  obtain ⟨c₁, hMark, hRegion₁, hKept₁, _⟩ := (h.kept.grown hGrown).does_mark hTagged
    (fun z hz => by simpa using hz)
  have hMem : y ∈ cs ++ [y] := by simp
  have hStop : y.stop overhead = b.region.size + need := by
    rw [Chunk.stop_mk, overhead_eq]
    omega
  have hNext := does_next hKept₁ hMem
  rw [hStop] at hNext
  have hEnd : c₁.region.size = b.region.size + need + overhead := by
    rw [hRegion₁, Nat.add_assoc, ← hGrown.size_eq]
    rfl
  obtain ⟨c, hSeal, hRegion, hKept, hOwned⟩ := hKept₁.does_seal hEnd
  have hMinus := does_minus (m := b.region.size) (n := overhead) (by rw [overhead_eq]; omega)
    { b with region := s }
  have hTop := hKept₁.holds.anchored.end_lt
  have hPlus := does_plus (m := b.region.size + need) (n := wordSize)
    (by rw [overhead_eq] at hEnd; unfold wordSize; omega) c₁
  have hDone : c.region = (writeTags s [y]).setTag
      (header (nextOf (writeTags s [y]) y.offset)) Tag.sentinel := by
    rw [hTagged.nextOf_eq, hStop, hRegion, hRegion₁]
  unfold extend
  rw [value_append hValue hLimit, if_neg (Nat.not_le.mpr hLimit)]
  exact ⟨c, _, _, hGrow.bind (hMinus.bind (hMark.bind (hNext.bind (hPlus.bind (hSeal.bind
    ((does_payloadAt hKept hMem).bind (does_pure _ c))))))), hDone,
    hKept.secure (hDone ▸ hAppended) hOwned⟩

theorem Secure.does_extend_of_short
    (hValue : (b.region.grow (need + overhead)).value = (none, s)) (hGrown : b.region.Grown 0 s) :
    ∃ c ds ms, Does (extend need) b (append b.region need).value.1 c ∧
      c.region = (append b.region need).value.2 ∧ Secure c ds ms := by
  have hGrow := does_grow h.represents.holds.anchored (need + overhead)
  have hOwned := h.owned _ List.mem_cons_self
  rw [hValue] at hGrow
  unfold extend
  rw [value_append_none hValue hLimit, if_neg (Nat.not_le.mpr hLimit)]
  exact ⟨_, cs, ns, hGrow.bind (does_pure _ _), rfl, (h.kept.grown hGrown).secure
    (h.represents.of_grown hGrown) (hOwned.grown hGrown)⟩

end Extend

theorem Secure.does_extend (h : Secure b cs ns) (hNeed : 16 ≤ need ∧ need % 16 = 0) :
    ∃ c ds ms, Does (extend need) b (append b.region need).value.1 c ∧
      c.region = (append b.region need).value.2 ∧ Secure c ds ms := by
  rcases Nat.lt_or_ge (need + overhead) wordLimit with hLimit | hLimit
  · rcases b.region.grow_cases (need + overhead) with ⟨_, s, hValue, hGrown⟩ |
      ⟨_, s, hValue, hGrown⟩
    · exact h.does_extend_of_grown hLimit hNeed hValue hGrown
    · exact h.does_extend_of_short hLimit hValue hGrown
  · unfold extend
    rw [value_append_of_le b.region hLimit, if_pos hLimit]
    exact ⟨b, cs, ns, does_pure _ b, rfl, h⟩

theorem Secure.does_allocate (h : Secure b cs ns) (n : Nat) :
    ∃ c ds ms, Does (allocate n) b (BlockHeap.Explicit.allocate b.region n).value.1 c ∧
      c.region = (BlockHeap.Explicit.allocate b.region n).value.2 ∧ Secure c ds ms := by
  unfold allocate
  cases hNeed : required? n with
  | none =>
    rw [value_allocate_none hNeed]
    exact ⟨b, cs, ns, does_pure _ b, rfl, h⟩
  | some need =>
    obtain ⟨_, hLeast, hMod, _⟩ := required?_eq_some hNeed
    rw [value_allocate_some hNeed]
    cases hFind : findFit? b.region need with
    | some x =>
      obtain ⟨c, ds, ms, hReuse, hRegion, hSecure, hx⟩ :=
        h.does_reuse_some (required?_pos hNeed) hFind
      have hIn := inside_of_mem h.represents.holds hx
      have hEnd := h.represents.holds.anchored.end_lt
      have hPayload := does_plus (m := x.offset) (n := alignment.value)
        (by rw [alignment_value]; omega) c
      exact ⟨c, ds, ms, hReuse.bind (hPayload.bind (does_pure _ c)), hRegion, hSecure⟩
    | none =>
      obtain ⟨c, ds, ms, hExtend, hRegion, hSecure⟩ := h.does_extend ⟨hLeast, hMod⟩
      exact ⟨c, ds, ms, (h.does_reuse_none hFind).bind hExtend, hRegion, hSecure⟩

theorem Kept.does_capacity (h : Kept b e cs ns) (hx : x ∈ cs) :
    Does (capacity (payload x.offset)) b x.size b :=
  (does_blockAt _ b).bind (does_sizeAt h hx)

theorem Kept.does_describe (h : Kept b e cs ns) (hx : x ∈ cs) :
    Does (describe x.offset) b (block x) b :=
  (does_tagAt h hx).bind ((does_payloadAt h hx).bind (does_pure _ b))

theorem Secure.does_sizeAt_rest (h : Secure b (xs ++ ds) ns) {a : Nat}
    (hTiles : Chunk.Tiles overhead a ds (b.region.size - overhead)) :
    Does (sizeAt a) b ((ds.head?.map Chunk.size).getD 0) b := by
  cases ds with
  | cons x ds =>
    obtain ⟨rfl, _, _⟩ := hTiles
    exact does_sizeAt h.kept (by simp)
  | nil =>
    obtain rfl := hTiles
    have hIn := inside_epilogue h.represents.holds
    have hFetch := does_fetchTag h.represents.holds.anchored hIn (h.owned _ List.mem_cons_self)
    have hEnd := h.represents.holds.anchored.end_lt
    have hLe := hIn.2
    rw [header_eq] at hLe
    have hPlus := does_plus (m := b.region.size - overhead) (n := wordSize) (by
      unfold wordSize at *
      omega) b
    rw [h.represents.epilogue_tag] at hFetch
    exact (hPlus.bind hFetch).bind (does_pure _ b)

theorem ite_head_size {a : Nat} (h : Chunk.Tiles overhead a ds e) :
    (if (ds.head?.map Chunk.size).getD 0 ≠ 0 then some a else none) =
      ds.head?.map Chunk.offset := by
  cases ds with
  | nil => rfl
  | cons x ds =>
    obtain ⟨rfl, hSized, _⟩ := h
    exact if_pos hSized.1

theorem Secure.does_firstBlock (h : Secure b cs ns) :
    Does firstBlock b (cs.head?.map Chunk.offset) b := by
  have hTiles := h.represents.holds.tiles
  have hSize := h.represents.size_ge
  have hAll : Secure b ([] ++ cs) ns := h
  have hHead := hAll.does_sizeAt_rest hTiles
  have hNot : ¬ (b.region.anchor = 0 ∨ b.region.size = 0) := by
    have hAnchor := anchor_ne_zero h.represents.holds.anchored
    omega
  rw [← ite_head_size hTiles]
  refine (does_get b).bind ?_
  simp only [if_neg hNot]
  exact hHead.bind (does_pure _ b)

theorem Secure.does_nextBlock (h : Secure b (xs ++ x :: ds) ns) :
    Does (nextBlock x.offset) b (ds.head?.map Chunk.offset) b := by
  obtain ⟨_, _, hTiles⟩ := Chunk.tiles_append_cons.mp h.represents.holds.tiles
  have hNext := does_next h.kept (x := x) (by simp)
  rw [List.append_cons] at h
  rw [← ite_head_size hTiles]
  exact hNext.bind ((h.does_sizeAt_rest hTiles).bind (does_pure _ b))

theorem Secure.does_walk (h : Secure b (xs ++ ds) ns) {rounds : Nat}
    (hRounds : ds.length ≤ rounds) :
    Does (walk describe nextBlock rounds (ds.head?.map Chunk.offset)) b
      (ds.map fun x => { block x with payload := b.region.address (payload x.offset) }) b := by
  induction ds generalizing xs rounds with
  | nil => exact does_walk_none _ _ rounds b
  | cons x ds ih =>
    rw [List.length_cons] at hRounds
    obtain ⟨rounds, rfl⟩ := Nat.exists_eq_add_one.mpr (Nat.zero_lt_of_lt hRounds)
    have hx : x ∈ xs ++ x :: ds := by simp
    have hIn := inside_of_mem h.represents.holds hx
    have hPointer := does_pointer (o := payload x.offset) h.represents.holds.anchored (by
      rw [payload_eq]
      omega)
    have hNext := h.does_nextBlock
    have hDescribe := h.kept.does_describe hx
    rw [List.append_cons] at h
    exact hDescribe.bind (hNext.bind (hPointer.bind ((ih h (by omega)).bind (does_pure _ b))))

theorem does_layOutTags (hr : b.region.Anchored) (hSize : b.region.size = 48) :
    ∃ c, Does (layOutTags) b ⟨⟩ c ∧ c.region = freeList.layOut
        ((b.region.setTag prologue Tag.sentinel).setTag (header prologue) Tag.sentinel) ∧
      Secure c [] [] := by
  have hPrologue : b.Inside prologue := ⟨by decide, by rw [hSize]; decide⟩
  have hHeader : b.Inside (header prologue) := ⟨by decide, by rw [hSize]; decide⟩
  have hNode : ∀ n, n = freeList.first ∨ n = freeList.last → b.HasNode n := by
    rintro n (rfl | rfl)
    · exact ⟨⟨by decide, by rw [hSize]; decide⟩, by decide, by rw [hSize]; decide⟩
    · exact ⟨⟨by decide, by rw [hSize]; decide⟩, by decide, by rw [hSize]; decide⟩
  have hr₁ := anchored_store hr prologue Tag.sentinel.word
  have hr₂ := anchored_store hr₁ (header prologue) Tag.sentinel.word
  obtain ⟨c, hList, hRegion, hMarks⟩ := does_layOutList (l := freeList) hr₂
    (hNode _ (.inl rfl)) (hNode _ (.inr rfl))
  have hAll := ((marks_store b prologue Tag.sentinel.word).trans
    (marks_store _ (header prologue) Tag.sentinel.word)).trans hMarks
  have hPlus := does_plus (m := prologue) (n := wordSize) (by decide)
    (b.store prologue Tag.sentinel.word)
  have hEnd : c.region.size = 48 := hRegion ▸ hSize
  refine ⟨c, (does_store hr hPrologue _).bind (hPlus.bind
    ((does_store hr₁ (hHeader.store _ _) _).bind hList)), hRegion,
    hRegion ▸ represents_empty hr hSize, ?_, fun o ho => hAll.owned o ?_⟩
  · rw [hRegion]
    exact FreeList.closed_layOut _ (.inl (by decide))
  · rw [hEnd] at ho
    have hWords : ∀ o ∈ header (48 - overhead) :: (tagWords [] ++ linkWords []),
        o ∈ [prologue] ++ [header prologue] ++ [freeList.first, freeList.first + wordSize,
          freeList.last, freeList.last + wordSize] := by decide
    exact hWords o ho

theorem does_setUp (b : Bench) : ∃ c, Does setUp b (layOut b.region).value.1 c ∧
    c.region = (layOut b.region).value.2 ∧
    ((layOut b.region).value.1 = true → Secure c [] []) := by
  have hReanchor := does_reanchor b
  cases hAnchor : b.region.reanchor.value with
  | mk anchored r =>
    rw [hAnchor] at hReanchor
    cases anchored with
    | false =>
      have hValue : (layOut b.region).value = (false, r) := by simp [layOut, hAnchor]
      rw [hValue]
      exact ⟨_, hReanchor.bind (does_pure _ _), rfl, nofun⟩
    | true =>
      obtain ⟨hr, hEmpty, -⟩ := Region.reanchor_value hAnchor
      have hGrow := does_grow (b := { b with region := r }) hr
        (2 * FreeList.nodeSize + 2 * wordSize)
      rcases r.grow_cases (2 * FreeList.nodeSize + 2 * wordSize) with ⟨_, s, hGrew, hGrown⟩ |
        ⟨_, s, hGrew, _⟩
      · rw [hGrew] at hGrow
        obtain ⟨c, hTags, hRegion, hSecure⟩ := does_layOutTags
          (b := { b with region := s }) (hGrown.anchored hr) (by
            rw [hGrown.size_eq, hEmpty]
            rfl)
        have hValue : (layOut b.region).value = (true, c.region) := by
          simp [layOut, hAnchor, hGrew, hRegion]
        rw [hValue]
        exact ⟨c, hReanchor.bind (hGrow.bind (hTags.bind (does_pure _ _))), rfl, fun _ => hSecure⟩
      · rw [hGrew] at hGrow
        have hValue : (layOut b.region).value = (false, s) := by simp [layOut, hAnchor, hGrew]
        rw [hValue]
        exact ⟨_, hReanchor.bind (hGrow.bind (does_pure _ _)), rfl, nofun⟩

end BlockHeap.Watched.Explicit
