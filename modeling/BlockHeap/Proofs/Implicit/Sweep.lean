import BlockHeap.Proofs.Implicit.Layout

/-!
# The sweep

The sweep writes the header of every merged chunk that is not there yet, and moves the end of the
span. After it the heap holds the merged chunks; only headers of chunks were written.
-/

namespace BlockHeap.Implicit

variable {K : Nat → Prop} {r s : Region} {span : Option Span} {c d : Chunk} {cs ms : List Chunk}
  {o : Nat}

theorem value_writeMerged (r : Region) (c : Chunk) : (writeMerged r c).value =
    if (r.tag c.offset).size = c.size then r else r.setTag c.offset c.tag := by
  simp [writeMerged]

theorem keeps_writeMerged (h : ∀ x, r.WordAt c.offset x → ¬ K x) :
    r.Keeps K (writeMerged r c).value := by
  rw [value_writeMerged]
  split
  · exact Region.Keeps.refl K r
  · exact Region.keeps_setTag h

theorem keeps_foldlM (h : ∀ c ∈ ms, ∀ x, r.WordAt c.offset x → ¬ K x) :
    r.Keeps K (ms.foldlM writeMerged r).value := by
  induction ms generalizing r with
  | nil => exact Region.Keeps.refl K r
  | cons c ms ih =>
    have hFirst : r.Keeps K (writeMerged r c).value := keeps_writeMerged (h c List.mem_cons_self)
    rw [List.foldlM_cons, Journaled.value_bind]
    refine hFirst.trans (ih fun d hd x hx => h d (List.mem_cons_of_mem _ hd) x ?_)
    simpa only [Region.WordAt, Region.address, hFirst.anchor_eq] using hx

theorem tag_writeMerged (hWord : c.tag.size % 2 = 0 ∧ c.tag.word < wordLimit)
    (hFlag : (r.tag c.offset).allocated = c.allocated) :
    (writeMerged r c).value.tag c.offset = c.tag := by
  rw [value_writeMerged]
  split
  · next hSize =>
    have hEta : r.tag c.offset = ⟨(r.tag c.offset).size, (r.tag c.offset).allocated⟩ := rfl
    rw [hEta, hSize, hFlag]
  · exact r.tag_setTag _ hWord.1 hWord.2

theorem tag_writeMerged_of_apart (h : o + wordSize ≤ c.offset ∨ c.offset + wordSize ≤ o) :
    (writeMerged r c).value.tag o = r.tag o :=
  (keeps_writeMerged fun _ hx => hx.disjoint h).tag_eq fun _ hx => hx

theorem tag_foldlM_of_apart (h : ∀ c ∈ ms, o + wordSize ≤ c.offset ∨ c.offset + wordSize ≤ o) :
    (ms.foldlM writeMerged r).value.tag o = r.tag o :=
  (keeps_foldlM fun c hc _ hx => hx.disjoint (h c hc)).tag_eq fun _ hx => hx

theorem tag_foldlM (hApart : ms.Pairwise fun c d => c.offset + wordSize ≤ d.offset)
    (hWord : ∀ c ∈ ms, c.tag.size % 2 = 0 ∧ c.tag.word < wordLimit)
    (hFlag : ∀ c ∈ ms, (r.tag c.offset).allocated = c.allocated) :
    ∀ c ∈ ms, (ms.foldlM writeMerged r).value.tag c.offset = c.tag := by
  induction ms generalizing r with
  | nil => exact fun c hc => (List.not_mem_nil hc).elim
  | cons c ms ih =>
    obtain ⟨hHead, hTail⟩ := List.pairwise_cons.mp hApart
    have hFirst := tag_writeMerged (hWord c List.mem_cons_self) (hFlag c List.mem_cons_self)
    have hOther : ∀ d ∈ ms, (writeMerged r c).value.tag d.offset = r.tag d.offset := fun d hd =>
      tag_writeMerged_of_apart (.inr (hHead d hd))
    rw [List.foldlM_cons, Journaled.value_bind]
    intro d hd
    rcases List.mem_cons.mp hd with rfl | hd
    · rw [tag_foldlM_of_apart fun e he => .inl (hHead e he), hFirst]
    · refine ih hTail (fun e he => hWord e (List.mem_cons_of_mem _ he)) (fun e he => ?_) d hd
      rw [hOther e he]
      exact hFlag e (List.mem_cons_of_mem _ he)

theorem tagged_mergeRuns {a : Nat} (hr : r.Anchored) (hTiles : Chunk.Tiles 0 a cs r.size)
    (hTagged : ∀ c ∈ cs, r.tag c.offset = c.tag) : ∀ d ∈ Chunk.mergeRuns 0 cs,
    ((Chunk.mergeRuns 0 cs).foldlM writeMerged r).value.tag d.offset = d.tag := by
  have hMerged := hTiles.mergeRuns (by decide)
  refine tag_foldlM hMerged.headers_apart (fun d hd => word_tag_lt hr hMerged hd) fun d hd => ?_
  obtain ⟨c, hc, hOffset, hFlag⟩ := Chunk.origin_of_mem_mergeRuns hd
  rw [← hOffset, hTagged c hc, ← hFlag]

theorem lastAfter_eq {last : Nat} (hLast : cs.getLast?.map Chunk.offset = some last)
    (hMerged : ms ≠ []) (s : Span) (hs : s.last = last) :
    ms.getLast?.map Chunk.offset = some (s.lastAfter cs ms) := by
  rw [Span.lastAfter, hs, if_pos hLast, List.getLast?_eq_some_getLast hMerged]
  rfl

theorem Represents.spanOf_mergeRuns (h : Represents r span cs) :
    span.map (fun s => { s with last := s.lastAfter cs (Chunk.mergeRuns 0 cs) }) =
      spanOf (Chunk.mergeRuns 0 cs) := by
  rw [h.span_eq]
  by_cases hNil : cs = []
  · subst hNil
    rfl
  · have hLast : cs.getLast?.map Chunk.offset = some (cs.getLast hNil).offset := by
      rw [List.getLast?_eq_some_getLast hNil]
      rfl
    have hMerged : Chunk.mergeRuns 0 cs ≠ [] := Chunk.mergeRuns_ne_nil hNil
    have hMoved := lastAfter_eq hLast hMerged ⟨start, _⟩ rfl
    rw [spanOf_eq_some hLast, spanOf_eq_some hMoved]
    rfl

theorem Represents.sweep (h : Represents r span cs) : ∃ s,
    (sweep r span).value = (Chunk.mergeRuns 0 cs, s, spanOf (Chunk.mergeRuns 0 cs)) ∧
    Represents s (spanOf (Chunk.mergeRuns 0 cs)) (Chunk.mergeRuns 0 cs) ∧
    r.Keeps (Foreign r.anchor r.size (cs.map block)) s := by
  have hTiles := h.tiles.mergeRuns (by decide)
  have hKeeps : r.Keeps (Foreign r.anchor r.size (cs.map block))
      ((Chunk.mergeRuns 0 cs).foldlM writeMerged r).value := by
    refine keeps_foldlM fun d hd => ?_
    obtain ⟨c, hc, hOffset, _⟩ := Chunk.origin_of_mem_mergeRuns hd
    exact hOffset ▸ header_not_foreign h.tiles hc
  refine ⟨((Chunk.mergeRuns 0 cs).foldlM writeMerged r).value, ?_, ?_, hKeeps⟩
  · simp only [Implicit.sweep, Journaled.value_bind, Journaled.value_pure, h.chunks_eq,
      h.spanOf_mergeRuns]
  · exact ⟨hKeeps.anchored h.anchored, hKeeps.size_eq ▸ hTiles,
      tagged_mergeRuns h.anchored h.tiles h.tagged, rfl⟩

end BlockHeap.Implicit
