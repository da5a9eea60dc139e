import BlockHeap.Proofs.Chunk.Tiling

/-!
# Merging and carving

The two ways in which chunks change: runs of free neighbours become one chunk, and a free chunk
becomes an allocated one with what is left behind it. Both exchange one tiling for another of the
same stretch.
-/

namespace BlockHeap.Chunk

/-- A free chunk of which `need` bytes are taken; the rest is a free chunk, if it can be one. -/
def carve (gap need : Nat) (c : Chunk) : List Chunk :=
  if c.size - need < gap + 16 then [⟨c.offset, c.size, true⟩]
  else [⟨c.offset, need, true⟩, ⟨c.offset + gap + need, c.size - need - gap, false⟩]

variable {gap a b need : Nat} {c d : Chunk} {cs ds : List Chunk}

theorem fits_iff : c.fits need = true ↔ c.allocated = false ∧ need ≤ c.size := by
  simp [fits]

theorem tiles_carve (hg : gap % 16 = 0) (hc : c.tag.WellSized) (hNeed : 0 < need ∧ need % 16 = 0)
    (hLe : need ≤ c.size) : Tiles gap c.offset (carve gap need c) (c.stop gap) := by
  obtain ⟨hPos, hMod⟩ := size_of_wellSized hc
  unfold carve
  split
  · exact ⟨rfl, hc, rfl⟩
  · next hLarge =>
    refine ⟨rfl, (Tag.wellSized_iff _).mpr hNeed, rfl, (Tag.wellSized_iff _).mpr ?_, ?_⟩
    · simp only
      omega
    · rw [tiles_nil, stop_mk, stop]
      omega

theorem Tiles.carve {xs ys : List Chunk} (h : Tiles gap a (xs ++ c :: ys) b) (hg : gap % 16 = 0)
    (hNeed : 0 < need ∧ need % 16 = 0) (hLe : need ≤ c.size) :
    Tiles gap a (xs ++ Chunk.carve gap need c ++ ys) b := by
  obtain ⟨hx, hSized, hy⟩ := tiles_append_cons.mp h
  exact tiles_append.mpr ⟨_, tiles_append.mpr ⟨_, hx, tiles_carve hg hSized hNeed hLe⟩, hy⟩

theorem filter_carve (gap : Nat) (hLe : need ≤ c.size) :
    ∃ k, need ≤ k ∧ (carve gap need c).filter allocated = [⟨c.offset, k, true⟩] := by
  unfold carve
  split
  · exact ⟨c.size, hLe, rfl⟩
  · exact ⟨need, Nat.le_refl need, rfl⟩

theorem Separated.carve {xs ys : List Chunk} (h : Separated (xs ++ c :: ys))
    (hFlag : c.allocated = false) :
    Separated (xs ++ carve gap need c ++ ys) := by
  obtain ⟨hLeft, hRight, hMid⟩ := List.isChain_append.mp h
  obtain ⟨hTail, hHead⟩ := Separated.tail hRight hFlag
  rw [List.append_assoc]
  refine List.isChain_append.mpr ⟨hLeft, ?_, fun p hp _ _ => .inl ?_⟩
  · unfold Chunk.carve
    split
    · exact List.isChain_cons.mpr ⟨fun _ _ => .inl rfl, hTail⟩
    · refine List.isChain_cons.mpr
        ⟨fun _ _ => .inl rfl, List.isChain_cons.mpr ⟨fun d hd => .inr ?_, hTail⟩⟩
      exact hHead d hd
  · exact (hMid p hp c rfl).resolve_right (by simp [hFlag])

theorem Tiles.fuse {m : Chunk} (h : Tiles gap a (c :: cs) b) (hg : gap % 16 = 0)
    (hOffset : m.offset = c.offset) (hStop : m.stop gap = b) :
    Tiles gap a [m] b := by
  have hMod := h.mod_eq hg
  obtain ⟨rfl, hSized, hRest⟩ := h
  have hLe := hRest.le
  have hSize := size_of_wellSized hSized
  refine ⟨hOffset, (Tag.wellSized_iff _).mpr ?_, hStop⟩
  unfold stop size at *
  omega

theorem mergeRuns_cons (gap : Nat) (c : Chunk) (cs : List Chunk) : mergeRuns gap (c :: cs) =
    match mergeRuns gap cs with
    | [] => [c]
    | d :: ds =>
      if c.allocated || d.allocated then c :: d :: ds
      else ⟨c.offset, c.size + gap + d.size, false⟩ :: ds := rfl

theorem head_mergeRuns (gap : Nat) (c : Chunk) (cs : List Chunk) :
    ∃ d ds, mergeRuns gap (c :: cs) = d :: ds ∧
      d.offset = c.offset ∧ d.allocated = c.allocated := by
  rw [mergeRuns_cons]
  split
  · exact ⟨c, [], rfl, rfl, rfl⟩
  · next d ds _ =>
    split
    · exact ⟨c, d :: ds, rfl, rfl, rfl⟩
    · next hFree =>
      simp only [Bool.or_eq_true, not_or, Bool.not_eq_true] at hFree
      exact ⟨_, ds, rfl, rfl, hFree.1.symm⟩

theorem mergeRuns_cons_apart (h : ∀ d ∈ cs.head?, c.allocated = true ∨ d.allocated = true) :
    mergeRuns gap (c :: cs) = c :: mergeRuns gap cs := by
  rw [mergeRuns_cons]
  cases cs with
  | nil => rfl
  | cons d cs =>
    obtain ⟨e, es, hMerged, _, hFlag⟩ := head_mergeRuns gap d cs
    have hApart : (c.allocated || e.allocated) = true := by simpa [hFlag] using h d rfl
    rw [hMerged]
    exact if_pos hApart

/-- Whether the first two chunks of a run are merged at once or with the rest makes no
difference. -/
theorem mergeRuns_cons_joined (hc : c.allocated = false) (hd : d.allocated = false) :
    mergeRuns gap (c :: d :: cs) =
      mergeRuns gap (⟨c.offset, c.size + gap + d.size, false⟩ :: cs) := by
  rw [mergeRuns_cons, mergeRuns_cons gap d, mergeRuns_cons gap ⟨_, _⟩]
  cases mergeRuns gap cs with
  | nil => simp [hc, hd]
  | cons e es => cases he : e.allocated <;> simp [size, hc, hd, he, Nat.add_assoc]

theorem mergeRuns_of_separated (gap : Nat) (h : Separated cs) : mergeRuns gap cs = cs := by
  induction cs with
  | nil => rfl
  | cons c cs ih =>
    obtain ⟨hHead, hTail⟩ := List.isChain_cons.mp h
    rw [mergeRuns_cons_apart hHead, ih hTail]

theorem separated_mergeRuns (gap : Nat) (cs : List Chunk) : Separated (mergeRuns gap cs) := by
  induction cs with
  | nil => exact List.isChain_nil
  | cons c cs ih =>
    rw [mergeRuns_cons]
    split
    · exact List.isChain_singleton c
    · next d ds hMerged =>
      rw [hMerged] at ih
      split
      · next hApart => exact List.isChain_cons_cons.mpr ⟨Bool.or_eq_true_iff.mp hApart, ih⟩
      · next hJoin =>
        rw [Bool.or_eq_true, not_or, Bool.not_eq_true, Bool.not_eq_true] at hJoin
        obtain ⟨hTail, hHead⟩ := Separated.tail ih hJoin.2
        exact List.isChain_cons.mpr ⟨fun e he => .inr (hHead e he), hTail⟩

theorem mergeRuns_mergeRuns (gap : Nat) (cs : List Chunk) :
    mergeRuns gap (mergeRuns gap cs) = mergeRuns gap cs :=
  mergeRuns_of_separated gap (separated_mergeRuns gap cs)

theorem mergeRuns_ne_nil (h : cs ≠ []) : mergeRuns gap cs ≠ [] := by
  obtain ⟨c, cs, rfl⟩ := List.exists_cons_of_ne_nil h
  obtain ⟨d, ds, hEq, _⟩ := head_mergeRuns gap c cs
  rw [hEq]
  exact List.cons_ne_nil d ds

theorem Tiles.mergeRuns (h : Tiles gap a cs b) (hg : gap % 16 = 0) :
    Tiles gap a (mergeRuns gap cs) b := by
  induction cs generalizing a with
  | nil => exact h
  | cons c cs ih =>
    obtain ⟨hc, hSized, hRest⟩ := h
    have hMerged := ih hRest
    rw [mergeRuns_cons]
    split
    · next hNil =>
      rw [hNil] at hMerged
      exact ⟨hc, hSized, hMerged⟩
    · next d ds hCons =>
      rw [hCons] at hMerged
      split
      · exact ⟨hc, hSized, hMerged⟩
      · obtain ⟨hd, hSized', hRest'⟩ := hMerged
        have hc' := size_of_wellSized hSized
        have hd' := size_of_wellSized hSized'
        refine ⟨hc, (Tag.wellSized_iff _).mpr ⟨by simp only; omega, by simp only; omega⟩, ?_⟩
        have hStop : stop gap ⟨c.offset, c.size + gap + d.size, false⟩ = d.stop gap := by
          rw [stop_mk, stop, hd, stop]
          omega
        rw [hStop]
        exact hRest'

theorem filter_mergeRuns (gap : Nat) (cs : List Chunk) :
    (mergeRuns gap cs).filter allocated = cs.filter allocated := by
  induction cs with
  | nil => rfl
  | cons c cs ih =>
    rw [mergeRuns_cons, List.filter_cons, ← ih]
    split
    · next hNil => rw [hNil, List.filter_cons]
    · next d ds hCons =>
      rw [hCons]
      split
      · rw [List.filter_cons]
      · next hFree =>
        simp only [Bool.or_eq_true, not_or, Bool.not_eq_true] at hFree
        simp [hFree.1, hFree.2]

theorem origin_of_mem_mergeRuns (h : d ∈ mergeRuns gap cs) :
    ∃ c ∈ cs, c.offset = d.offset ∧ c.allocated = d.allocated := by
  induction cs generalizing d with
  | nil => cases h
  | cons c cs ih =>
    obtain ⟨e, es, hEq, hOffset, hAllocated⟩ := head_mergeRuns gap c cs
    rw [hEq] at h
    rcases List.mem_cons.mp h with rfl | hMem
    · exact ⟨c, List.mem_cons_self, hOffset.symm, hAllocated.symm⟩
    · have hRest : d ∈ mergeRuns gap cs := by
        rw [mergeRuns_cons] at hEq
        split at hEq
        · cases hEq
          cases hMem
        · next hCons =>
          rw [hCons]
          split at hEq
          · cases hEq
            exact hMem
          · cases hEq
            exact List.mem_cons_of_mem _ hMem
      obtain ⟨f, hf, hOrigin⟩ := ih hRest
      exact ⟨f, List.mem_cons_of_mem _ hf, hOrigin⟩

end BlockHeap.Chunk
