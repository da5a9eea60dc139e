import BlockHeap.Proofs.Explicit.Check

/-!
# Corruption of a single word

Every tag and every link is kept twice: headers alone lead forwards over the chunks, and footers
alone lead backwards over them; so do the next and the previous links with the nodes. When one word
of a consistent heap changes, the readings of the other kind are as before, and a check that still
accepted would have found the same chunks and the same nodes, with the word as it was.
-/

namespace BlockHeap

structure Region.DiffersAt (o : Nat) (r s : Region) : Prop where
  size_eq : s.size = r.size
  word_ne : s.word o ≠ r.word o
  word_eq : ∀ p, p + wordSize ≤ o ∨ o + wordSize ≤ p → s.word p = r.word p

namespace Region.DiffersAt

variable {r s : Region} {o p v : Nat}

theorem tag_ne (h : DiffersAt o r s) : s.tag o ≠ r.tag o :=
  fun hTag => h.word_ne (Tag.ofWord_inj.mp hTag)

theorem tag_eq (h : DiffersAt o r s) (hApart : p + wordSize ≤ o ∨ o + wordSize ≤ p) :
    s.tag p = r.tag p := congrArg Tag.ofWord (h.word_eq p hApart)

theorem of_setWord (hv : v < wordLimit) (hNe : v ≠ r.word o) : DiffersAt o r (r.setWord o v) where
  size_eq := rfl
  word_ne := by rwa [r.word_setWord o hv]
  word_eq _ hApart := r.word_setWord_of_disjoint v hApart

end Region.DiffersAt

namespace Explicit

variable {r s : Region} {c : Chunk} {cs ds : List Chunk} {ns ms : List Nat} {m o : Nat}

/-- Headers are at odd multiples of the word size, and footers and nodes at even ones. So a header
is apart from every footer, and a next link from every previous one. -/
theorem header_mod (h : Represents r cs ns) (hc : c ∈ cs) : header c.offset % 16 = 8 := by
  have hBounds := bounds_of_mem h.holds.tiles hc
  rw [header_eq]
  omega

theorem footer_mod (h : Represents r cs ns) (hc : c ∈ cs) :
    (payload c.offset + c.size) % 16 = 0 := by
  have hBounds := bounds_of_mem h.holds.tiles hc
  rw [payload_eq]
  omega

theorem node_mod (h : Represents r cs ns) (hm : m ∈ freeList.first :: (ns ++ [freeList.last])) :
    m % 16 = 0 := by
  rcases site_of_mem h.holds.free hm with rfl | rfl | ⟨c, hc, _, rfl⟩
  · rfl
  · rfl
  · have hBounds := bounds_of_mem h.holds.tiles hc
    rw [payload_eq]
    omega

theorem Accepts.eq_of_headers (h : Accepts s ds ms)
    (hTiles : Chunk.Tiles overhead prologue cs (s.size - overhead))
    (hTags : ∀ c ∈ cs, s.tag (header c.offset) = c.tag) : ds = cs :=
  hTiles.eq_of_offset (f := fun b => s.tag (header b)) h.chained.tiles hTags
    fun d hd => (h.chained.tagged d hd).1

theorem Accepts.eq_of_footers (h : Accepts s ds ms)
    (hTiles : Chunk.Tiles overhead prologue cs (s.size - overhead))
    (hTags : ∀ c ∈ cs, s.tag (payload c.offset + c.size) = c.tag) : ds = cs :=
  hTiles.eq_of_stop h.chained.tiles hTags fun d hd => (h.chained.tagged d hd).2

theorem Represents.tag_eq (h : Represents r cs ns) (hDiff : r.DiffersAt o s)
    (hAccepts : Accepts s ds ms) (ho : o ∈ tagWords cs) : s.tag o = r.tag o := by
  have hTiles : Chunk.Tiles overhead prologue cs (s.size - overhead) :=
    hDiff.size_eq ▸ h.holds.tiles
  rcases mem_tagWords.mp ho with rfl | ⟨c, hc, rfl | rfl⟩
  · rw [hAccepts.prologue_tag, h.holds.prologue_tag]
  · have hMod := header_mod h hc
    have hFooters : ∀ d ∈ cs, s.tag (payload d.offset + d.size) = d.tag := by
      intro d hd
      have hMod' := footer_mod h hd
      rw [hDiff.tag_eq (by unfold wordSize; omega), (h.holds.tagged d hd).2]
    obtain rfl := hAccepts.eq_of_footers hTiles hFooters
    rw [(hAccepts.chained.tagged c hc).1, (h.holds.tagged c hc).1]
  · have hMod := footer_mod h hc
    have hHeaders : ∀ d ∈ cs, s.tag (header d.offset) = d.tag := by
      intro d hd
      have hMod' := header_mod h hd
      rw [hDiff.tag_eq (by unfold wordSize; omega), (h.holds.tagged d hd).1]
    obtain rfl := hAccepts.eq_of_headers hTiles hHeaders
    rw [(hAccepts.chained.tagged c hc).2, (h.holds.tagged c hc).2]

theorem Represents.next_eq (h : Represents r cs ns) (hDiff : r.DiffersAt (m + wordSize) s)
    (hAccepts : Accepts s ds ms) (hm : m ∈ freeList.first :: ns) :
    FreeList.next s m = FreeList.next r m := by
  have hMod := node_mod h (by rw [← List.cons_append]; exact List.mem_append_left _ hm)
  have hPrev : ∀ k ∈ ns ++ [freeList.last], FreeList.prev s k = FreeList.prev r k := by
    intro k hk
    have hMod' := node_mod h (List.mem_cons_of_mem _ hk)
    exact hDiff.word_eq k (by unfold wordSize; omega)
  obtain rfl := h.holds.linked.eq_of_prev hAccepts.listed.linked hPrev h.holds.not_mem.1
    hAccepts.first_not_mem
  exact h.holds.linked.next_eq hAccepts.listed.linked hm

theorem Represents.prev_eq (h : Represents r cs ns) (hDiff : r.DiffersAt m s)
    (hAccepts : Accepts s ds ms) (hm : m ∈ ns ++ [freeList.last]) :
    FreeList.prev s m = FreeList.prev r m := by
  have hMod := node_mod h (List.mem_cons_of_mem _ hm)
  have hNext : ∀ k ∈ freeList.first :: ns, FreeList.next s k = FreeList.next r k := by
    intro k hk
    have hMod' := node_mod h (by rw [← List.cons_append]; exact List.mem_append_left _ hk)
    exact hDiff.word_eq (k + wordSize) (by unfold wordSize; omega)
  obtain rfl := h.holds.linked.eq_of_next hAccepts.listed.linked hNext h.holds.not_mem.2
    hAccepts.listed.last_not_mem
  exact h.holds.linked.prev_eq hAccepts.listed.linked hm

/-- A check accepts no region that differs from a consistent one in a single tag or link, save the
two links that lead out of the list. -/
theorem Represents.not_accepts (h : Represents r cs ns) (hDiff : r.DiffersAt o s)
    (ho : o ∈ header (r.size - overhead) :: (tagWords cs ++ linkWords ns))
    (hFirst : o ≠ freeList.first) (hLast : o ≠ freeList.last + wordSize) : ¬ Accepts s ds ms := by
  intro hAccepts
  rcases List.mem_cons.mp ho with rfl | ho
  · refine hDiff.tag_ne ?_
    have hEnd := hAccepts.chained.epilogue_tag
    rw [hDiff.size_eq] at hEnd
    rw [hEnd, h.epilogue_tag]
  rcases List.mem_append.mp ho with ho | ho
  · exact hDiff.tag_ne (h.tag_eq hDiff hAccepts ho)
  · obtain ⟨m, hm, rfl | rfl⟩ := mem_linkWords.mp ho
    · have hMem := (List.mem_cons.mp hm).resolve_left hFirst
      exact hDiff.word_ne (h.prev_eq hDiff hAccepts hMem)
    · rw [← List.cons_append] at hm
      have hMem : m ∈ freeList.first :: ns := by
        refine (List.mem_append.mp hm).resolve_right fun hEq => hLast ?_
        rw [List.mem_singleton.mp hEq]
      exact hDiff.word_ne (h.next_eq hDiff hAccepts hMem)

end Explicit

end BlockHeap
