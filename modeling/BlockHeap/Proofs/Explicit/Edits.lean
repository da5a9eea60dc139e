import BlockHeap.Proofs.Explicit.Layout

/-!
# Edits of an explicit heap

An operation is a sequence of two kinds of edits: tags are written, which exchanges a run of chunks
for another run in its place, and the list is linked anew. Either keeps what is held, and every
foreign byte.
-/

namespace BlockHeap.Explicit

open FreeList (Linked NodeAt)

variable {K : Nat → Prop} {r s : Region} {e n o : Nat} {c d : Chunk} {cs ds es xs ys : List Chunk}
  {ns ms : List Nat}

def writeTags (r : Region) (ds : List Chunk) : Region :=
  ds.foldl (fun r d => setTags r d.offset d.tag) r

theorem writeTags_cons (r : Region) (d : Chunk) (ds : List Chunk) :
    writeTags r (d :: ds) = writeTags (setTags r d.offset d.tag) ds := rfl

theorem keeps_setTags
    (h : ∀ o, o = header d.offset ∨ o = payload d.offset + d.size → ∀ x, r.WordAt o x → ¬ K x) :
    r.Keeps K (setTags r d.offset d.tag) :=
  (Region.keeps_setTag (h _ (.inl rfl))).trans (Region.keeps_setTag (h _ (.inr rfl)))

theorem keeps_writeTags (h : ∀ d ∈ ds, ∀ o, o = header d.offset ∨ o = payload d.offset + d.size →
    ∀ x, r.WordAt o x → ¬ K x) : r.Keeps K (writeTags r ds) := by
  induction ds generalizing r with
  | nil => exact Region.Keeps.refl K r
  | cons d ds ih =>
    rw [writeTags_cons]
    exact (keeps_setTags (h d List.mem_cons_self)).trans
      (ih fun f hf => h f (List.mem_cons_of_mem _ hf))

theorem tagged_setTags (hEven : d.tag.size % 2 = 0) (hLt : d.tag.word < wordLimit) :
    Tagged (setTags r d.offset d.tag) d := by
  refine ⟨?_, Region.tag_setTag _ _ hEven hLt⟩
  have hApart : header d.offset + wordSize ≤ payload d.offset + d.tag.size := Nat.le_add_right _ _
  rw [setTags, Region.tag_setTag_of_disjoint _ _ (.inl hApart), Region.tag_setTag _ _ hEven hLt]

theorem tagged_writeTags (hApart : ds.Pairwise fun c d => c.stop overhead ≤ d.offset)
    (hWord : ∀ d ∈ ds, d.tag.size % 2 = 0 ∧ d.tag.word < wordLimit) :
    ∀ d ∈ ds, Tagged (writeTags r ds) d := by
  induction ds generalizing r with
  | nil => exact fun d hd => (List.not_mem_nil hd).elim
  | cons d ds ih =>
    obtain ⟨hHead, hTail⟩ := List.pairwise_cons.mp hApart
    obtain ⟨hEven, hLt⟩ := hWord d List.mem_cons_self
    rw [writeTags_cons]
    intro f hf
    rcases List.mem_cons.mp hf with rfl | hf
    · obtain ⟨hHeader, hFooter⟩ := tagged_setTags (r := r) hEven hLt
      have hKeep : ∀ o, o = header f.offset ∨ o = payload f.offset + f.size →
          (writeTags (setTags r f.offset f.tag) ds).tag o = (setTags r f.offset f.tag).tag o := by
        intro o ho
        refine (keeps_writeTags fun g hg p hp x hx => hx.disjoint ?_).tag_eq fun _ hx => hx
        have hStop := hHead g hg
        rw [stop_eq] at hStop
        unfold header payload alignment wordSize at *
        simp only at hp ho hStop
        omega
      exact ⟨(hKeep _ (.inl rfl)).trans hHeader, (hKeep _ (.inr rfl)).trans hFooter⟩
    · exact ih hTail (fun g hg => hWord g (List.mem_cons_of_mem _ hg)) f hf

theorem tag_writeTags_of_around (hTiles : Chunk.Tiles overhead prologue (xs ++ ds ++ ys) e)
    (ho : o ∈ tagWords (xs ++ ys)) : (writeTags r ds).tag o = r.tag o := by
  refine (keeps_writeTags fun d hd p hp x hx => hx.disjoint ?_).tag_eq fun _ hx => hx
  have hBounds := bounds_of_mem hTiles (Chunk.mem_around.mpr (.inl hd))
  have hPlace : p = d.offset + 8 ∨ p = d.offset + 16 + d.size := hp
  have hWord : o = 32 ∨ ∃ c ∈ xs ++ ys, o = c.offset + 8 ∨ o = c.offset + 16 + c.size :=
    mem_tagWords.mp ho
  unfold wordSize
  rcases hWord with rfl | ⟨c, hc, ho⟩
  · omega
  · have hApart := hTiles.apart_of_split hd hc
    rw [stop_eq, stop_eq, payload_eq, payload_eq] at hApart
    omega

theorem word_writeTags_of_site (hTiles : Chunk.Tiles overhead prologue (xs ++ ds ++ ys) e)
    (hn : Site (xs ++ ds ++ ys) n) (ho : o = n ∨ o = n + wordSize) :
    (writeTags r ds).word o = r.word o := by
  refine (keeps_writeTags fun d hd p hp x hx => hx.disjoint ?_).word_eq fun _ hx => hx
  have hApart := site_apart hTiles hn
    (mem_tagWords.mpr (.inr ⟨d, Chunk.mem_around.mpr (.inl hd), hp⟩))
  unfold wordSize at *
  omega

/-- Writing the tags of a run makes it part of what is held, if it fits between chunks that are
there and no node of the list is lost. -/
theorem Holds.retag {e' : Nat} (h : Holds r e cs ns)
    (hTiles : Chunk.Tiles overhead prologue (xs ++ ds ++ ys) e') (hStop : e' + overhead ≤ r.size)
    (hOld : ∀ c ∈ xs ++ ys, c ∈ cs)
    (hFree : ∀ n ∈ ns, ∃ c ∈ xs ++ ds ++ ys, c.allocated = false ∧ n = payload c.offset) :
    Holds (writeTags r ds) e' (xs ++ ds ++ ys) ns ∧
      r.Keeps (Foreign r.anchor (header e') ((xs ++ ds ++ ys).map block)) (writeTags r ds) := by
  have hRun : ∀ d ∈ ds, d ∈ xs ++ ds ++ ys := fun d hd => Chunk.mem_around.mpr (.inl hd)
  have hKeeps :
      r.Keeps (Foreign r.anchor (header e') ((xs ++ ds ++ ys).map block)) (writeTags r ds) :=
    keeps_writeTags fun d hd o ho => tagWord_not_foreign hTiles
      (mem_tagWords.mpr (.inr ⟨d, hRun d hd, ho⟩))
  refine ⟨⟨hKeeps.anchored h.anchored, hTiles, hKeeps.size_eq ▸ hStop, ?_, ?_, ?_, h.nodup, hFree⟩,
    hKeeps⟩
  · rw [tag_writeTags_of_around hTiles (mem_tagWords.mpr (.inl rfl)), h.prologue_tag]
  · intro c hc
    rcases Chunk.mem_around.mp hc with hMem | hMem
    · refine tagged_writeTags ?_
        (fun d hd => word_tag_lt h.anchored hTiles hStop (hRun d hd)) c hMem
      exact (List.pairwise_append.mp (List.pairwise_append.mp hTiles.pairwise).1).2.1
    · obtain ⟨hHeader, hFooter⟩ := h.tagged c (hOld c hMem)
      constructor
      · rw [tag_writeTags_of_around hTiles (mem_tagWords.mpr (.inr ⟨c, hMem, .inl rfl⟩)), hHeader]
      · rw [tag_writeTags_of_around hTiles (mem_tagWords.mpr (.inr ⟨c, hMem, .inr rfl⟩)), hFooter]
  · refine h.linked.congr (fun m hm => ?_) fun m hm => ?_
    · refine word_writeTags_of_site hTiles (site_of_mem hFree ?_) (.inr rfl)
      rw [← List.cons_append]
      exact List.mem_append_left _ hm
    · exact word_writeTags_of_site hTiles (site_of_mem hFree (List.mem_cons_of_mem _ hm)) (.inl rfl)

/-- A run may be exchanged for another in its place, if every listed chunk of it has one to stand
for it. -/
theorem Holds.exchange (h : Holds r e (xs ++ ds ++ ys) ns)
    (hTiles : ∀ a b, Chunk.Tiles overhead a ds b → Chunk.Tiles overhead a es b)
    (hFree : ∀ d ∈ ds, d.allocated = false → payload d.offset ∈ ns →
      ∃ f ∈ es, f.allocated = false ∧ f.offset = d.offset) :
    Holds (writeTags r es) e (xs ++ es ++ ys) ns ∧
      r.Keeps (Foreign r.anchor (header e) ((xs ++ es ++ ys).map block)) (writeTags r es) := by
  refine h.retag (h.tiles.exchange hTiles) h.stop_le (fun c hc => Chunk.mem_around.mpr (.inr hc)) ?_
  · intro n hn
    obtain ⟨c, hc, hFlag, rfl⟩ := h.free n hn
    rcases Chunk.mem_around.mp hc with hMem | hMem
    · obtain ⟨f, hf, hFlag', hEq⟩ := hFree c hMem hFlag hn
      exact ⟨f, Chunk.mem_around.mpr (.inl hf), hFlag', by rw [hEq]⟩
    · exact ⟨c, Chunk.mem_around.mpr (.inr hMem), hFlag, rfl⟩

theorem Holds.replace (h : Holds r e (xs ++ c :: ys) ns)
    (hTiles : Chunk.Tiles overhead c.offset es (c.stop overhead))
    (hUnlisted : payload c.offset ∉ ns) :
    Holds (writeTags r es) e (xs ++ es ++ ys) ns ∧
      r.Keeps (Foreign r.anchor (header e) ((xs ++ es ++ ys).map block)) (writeTags r es) := by
  rw [List.append_cons] at h
  refine h.exchange (fun a b hOne => ?_) fun d hd _ hMem => ?_
  · obtain ⟨rfl, _, rfl⟩ := hOne
    exact hTiles
  · obtain rfl := List.mem_singleton.mp hd
    exact (hUnlisted hMem).elim

theorem Holds.not_listed (h : Holds r e cs ns) (hc : c ∈ cs) (hFlag : c.allocated = true) :
    payload c.offset ∉ ns := by
  intro hMem
  obtain ⟨d, hd, hFree, hEq⟩ := h.free _ hMem
  have hBounds := bounds_of_mem h.tiles hc
  have hBounds' := bounds_of_mem h.tiles hd
  rw [payload_eq, payload_eq] at hEq
  rcases apart_of_mem h.tiles hc hd with rfl | hApart | hApart
  · exact Bool.noConfusion (hFlag.symm.trans hFree)
  · omega
  · omega

theorem Holds.relink (h : Holds r e cs ns) (hLinked : Linked s freeList.first ms freeList.last)
    (hNodup : ms.Nodup) (hFree : ∀ n ∈ ms, ∃ c ∈ cs, c.allocated = false ∧ n = payload c.offset)
    (hs : r.Keeps (fun x => ∀ n, Site cs n → ¬ NodeAt r n x) s) :
    Holds s e cs ms ∧ r.Keeps (Foreign r.anchor (header e) (cs.map block)) s := by
  have hTag : ∀ o ∈ tagWords cs, s.tag o = r.tag o := by
    intro o ho
    refine hs.tag_eq fun x hx n hn hNode => ?_
    have hApart := site_apart h.tiles hn ho
    unfold Region.WordAt NodeAt Region.address FreeList.nodeSize wordSize at *
    omega
  refine ⟨⟨hs.anchored h.anchored, h.tiles, hs.size_eq ▸ h.stop_le, ?_, ?_, hLinked, hNodup, hFree⟩,
    ?_⟩
  · rw [hTag _ (mem_tagWords.mpr (.inl rfl)), h.prologue_tag]
  · intro c hc
    obtain ⟨hHeader, hFooter⟩ := h.tagged c hc
    exact ⟨(hTag _ (mem_tagWords.mpr (.inr ⟨c, hc, .inl rfl⟩))).trans hHeader,
      (hTag _ (mem_tagWords.mpr (.inr ⟨c, hc, .inr rfl⟩))).trans hFooter⟩
  · exact hs.mono fun x hx n hn hNode => site_not_foreign h.tiles hn x hNode hx

theorem Holds.remove (h : Holds r e cs ns) (hn : n ∈ ns) :
    Holds (FreeList.remove r n) e cs (ns.erase n) ∧
      r.Keeps (Foreign r.anchor (header e) (cs.map block)) (FreeList.remove r n) := by
  obtain ⟨xs, ys, _, hSplit, hErase⟩ := List.exists_erase_eq hn
  have hLinked := h.linked
  have hSpread := h.spread
  rw [hSplit] at hLinked hSpread
  refine h.relink ?_ (h.nodup.erase n) (fun m hm => h.free m (List.mem_of_mem_erase hm)) ?_
  · rw [hErase]
    exact FreeList.linked_remove hLinked hSpread
  · refine FreeList.keeps_remove hLinked fun m hm x hx hOutside => hOutside m
      (site_of_mem h.free ?_) hx
    rw [hSplit]
    exact hm

theorem Holds.push (h : Holds r e cs ns) (hc : c ∈ cs) (hFlag : c.allocated = false)
    (hNew : payload c.offset ∉ ns) :
    Holds (freeList.push r (payload c.offset)) e cs (ns ++ [payload c.offset]) ∧
      r.Keeps (Foreign r.anchor (header e) (cs.map block))
        (freeList.push r (payload c.offset)) := by
  have hNodup : (ns ++ [payload c.offset]).Nodup := by
    rw [List.nodup_append]
    refine ⟨h.nodup, List.pairwise_singleton _ _, ?_⟩
    rintro m hm k hk rfl
    exact hNew (List.mem_singleton.mp hk ▸ hm)
  have hFree :
      ∀ n ∈ ns ++ [payload c.offset], ∃ d ∈ cs, d.allocated = false ∧ n = payload d.offset := by
    intro n hn
    rcases List.mem_append.mp hn with hn | hn
    · exact h.free n hn
    · exact ⟨c, hc, hFlag, List.mem_singleton.mp hn⟩
  have hLt : payload c.offset < wordLimit := by
    have hEnd := h.anchored.end_lt
    have hStop := h.stop_le
    have hBounds := bounds_of_mem h.tiles hc
    rw [payload_eq]
    omega
  refine h.relink ?_ hNodup hFree ?_
  · exact FreeList.linked_push h.linked (spread_of_sites h.tiles hNodup hFree) hLt
  · exact FreeList.keeps_push h.linked fun m hm x hx hOutside => hOutside m
      (site_of_mem hFree hm) hx

theorem Holds.pushAll (h : Holds r e cs ns) (hNodup : (ns ++ ms).Nodup)
    (hFree : ∀ n ∈ ms, ∃ c ∈ cs, c.allocated = false ∧ n = payload c.offset) :
    Holds (ms.foldl freeList.push r) e cs (ns ++ ms) ∧
      r.Keeps (Foreign r.anchor (header e) (cs.map block)) (ms.foldl freeList.push r) := by
  induction ms generalizing r ns with
  | nil => exact ⟨by rwa [List.append_nil], Region.Keeps.refl _ r⟩
  | cons m ms ih =>
    obtain ⟨c, hc, hFlag, rfl⟩ := hFree m List.mem_cons_self
    have hNew : payload c.offset ∉ ns := fun hMem =>
      (List.nodup_append.mp hNodup).2.2 _ hMem _ List.mem_cons_self rfl
    obtain ⟨hPushed, hKeeps⟩ := h.push hc hFlag hNew
    rw [List.append_cons] at hNodup ⊢
    obtain ⟨hDone, hKeepsDone⟩ := ih hPushed hNodup fun n hn => hFree n (List.mem_cons_of_mem _ hn)
    exact ⟨hDone, hKeeps.foreign_trans hKeepsDone fun _ hb => hb⟩

end BlockHeap.Explicit
