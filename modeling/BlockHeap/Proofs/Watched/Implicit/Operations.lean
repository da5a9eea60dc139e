import BlockHeap.Proofs.Watched.Implicit.Sweep

/-!
# Operations of an implicit heap under watch

On a secure bench every operation of the implicit strategy comes to an end, with the answer and the
region that it should have, and leaves the bench secure.
-/

namespace BlockHeap.Watched.Implicit

open Bench
open BlockHeap.Implicit
open Chunk (mergeRuns)

variable {b c : Bench} {span : Option Span} {last a need rounds : Nat} {x : Chunk}
  {cs ds xs ys : List Chunk}

theorem does_seek (h : Tail b last a cs) (hRounds : cs.length ≤ rounds) (need : Nat) :
    Does (seek last need rounds (cs.head?.map Chunk.offset)) b
      ((cs.find? (Chunk.fits need)).map fun x => (x.offset, x.size)) b := by
  induction cs generalizing a rounds with
  | nil => cases rounds <;> rfl
  | cons x cs ih =>
    rw [List.length_cons] at hRounds
    obtain ⟨rounds, rfl⟩ := Nat.exists_eq_add_one.mpr (Nat.zero_lt_of_lt hRounds)
    refine (h.does_fetchTag List.mem_cons_self).bind ?_
    rw [List.find?_cons]
    cases hFits : x.fits need with
    | true =>
      rw [if_pos (show (!x.tag.allocated && need ≤ x.tag.size) = true from hFits)]
      exact does_pure _ b
    | false =>
      rw [if_neg (show ¬ (!x.tag.allocated && need ≤ x.tag.size) = true from
        Bool.eq_false_iff.mp hFits)]
      have hSeek := ih h.rest (show cs.length ≤ rounds by omega)
      rw [← h.rest.cursor_eq] at hSeek
      exact (h.does_next List.mem_cons_self).bind hSeek

theorem Secure.does_search (h : Secure b span cs) (need : Nat) :
    Does (search span need) b ((cs.find? (Chunk.fits need)).map fun x => (x.offset, x.size)) b := by
  cases span with
  | none =>
    obtain rfl := h.eq_nil
    exact (does_get b).bind (does_pure _ b)
  | some span =>
    obtain ⟨first, last⟩ := span
    obtain ⟨rfl, hTail⟩ := h.tail
    have hRounds : cs.length ≤ (chunks b.region (some ⟨start, last⟩)).length := by
      rw [h.represents.chunks_eq]
    have hSeek := does_seek hTail hRounds need
    rw [← hTail.cursor_eq, if_pos (hTail.le_last_iff.mpr h.ne_nil)] at hSeek
    exact (does_get b).bind hSeek

theorem Secure.of_marks {os : List Nat} (hr : Represents c.region span ds) (hMarks : b.Marks os c)
    (hOwned : ∀ y ∈ ds, y.offset ∈ os ∨ b.Owned y.offset) : Secure c span ds :=
  ⟨hr, fun y hy => (hOwned y hy).elim (hMarks.owned _) hMarks.of_owned⟩

/-- Room for a header is also there before it is written. -/
theorem inside_of_mem {r : Region} (h : Represents r span cs) (hx : x ∈ cs)
    (hSize : b.region.size = r.size) : b.Inside x.offset ∧ x.size % 16 = 0 := by
  have hBounds := h.tiles.bounds hx
  have hMod := h.tiles.offset_mod (by decide) hx
  rw [start_eq] at hMod
  unfold Bench.Inside wordSize
  omega

theorem Secure.does_take (h : Secure b span (xs ++ x :: ys)) (hNeed : 0 < need ∧ need % 16 = 0)
    (hFits : x.fits need = true) :
    ∃ c, Does (take span x.offset x.size need) b (spanOf (xs ++ x.carve 0 need ++ ys)) c ∧
      c.region = setHeaders b.region (x.carve 0 need) ∧
      Secure c (spanOf (xs ++ x.carve 0 need ++ ys)) (xs ++ x.carve 0 need ++ ys) := by
  have hLe := (Chunk.fits_iff.mp hFits).2
  have hr := h.represents.anchored
  obtain ⟨hPlaced, -⟩ := h.represents.reuse hNeed hFits
  have hIn := inside_of_mem (b := b) h.represents (x := x) (by simp) rfl
  have hOld : ∀ y ∈ xs ++ ys, b.Owned y.offset := fun y hy =>
    h.owned y (by rcases List.mem_append.mp hy with hy | hy <;> simp [hy])
  rw [h.represents.spanOf_carve] at hPlaced ⊢
  unfold Chunk.carve at *
  by_cases hWhole : x.size - need < 16
  · rw [if_pos hWhole, if_pos (show x.size - need < 0 + 16 from hWhole)] at *
    refine ⟨b.store x.offset (Tag.mk x.size true).word, .ensured hLe
      ((does_minus hLe b).bind ?_), rfl, .of_marks hPlaced (marks_store _ _ _) ?_⟩
    · rw [if_pos (show x.size - need < alignment.value from hWhole)]
      exact (does_storeTag (t := ⟨x.size, true⟩) hr hIn.1 hIn.2).bind (does_pure _ _)
    · intro y hy
      rcases Chunk.mem_around.mp hy with hy | hy
      · exact .inl (by simp [List.mem_singleton.mp hy])
      · exact .inr (hOld y hy)
  · rw [if_neg hWhole, if_neg (show ¬ x.size - need < 0 + 16 from hWhole)] at *
    have hIn' := inside_of_mem (b := b) hPlaced
      (x := ⟨x.offset + 0 + need, x.size - need - 0, false⟩) (by simp) rfl
    have hMinus := does_minus hLe b
    have hPlus := does_plus (m := x.offset) (n := need) (by
      have hEnd := hr.end_lt
      have hInside := hIn'.1.2
      simp only at hInside
      omega) b
    have hFirst := does_storeTag (t := ⟨need, true⟩) hr hIn.1 hNeed.2
    have hSecond := does_storeTag (t := ⟨x.size - need, false⟩)
      (anchored_store hr x.offset (Tag.mk need true).word) (hIn'.1.store _ _) hIn'.2
    refine ⟨(b.store x.offset (Tag.mk need true).word).store (x.offset + need)
      (Tag.mk (x.size - need) false).word, .ensured hLe (hMinus.bind ?_), rfl,
      .of_marks hPlaced ((marks_store _ _ _).trans (marks_store _ _ _)) ?_⟩
    · rw [if_neg (show ¬ x.size - need < alignment.value from hWhole)]
      exact hPlus.bind (hFirst.bind (hSecond.bind (does_pure _ _)))
    · intro y hy
      rcases Chunk.mem_around.mp hy with hy | hy
      · exact .inl (by rcases List.mem_pair.mp hy with rfl | rfl <;> simp)
      · exact .inr (hOld y hy)

theorem Secure.does_append (h : Secure b span cs) (hNeed : 0 < need ∧ need % 16 = 0) {s : Region}
    (hGrown : b.region.Grown need s) :
    ∃ c, Does (storeTag b.region.size ⟨need, true⟩) { b with region := s } ⟨⟩ c ∧
      c.region = setHeaders s [⟨b.region.size, need, true⟩] ∧
      Secure c (spanOf (cs ++ [⟨b.region.size, need, true⟩]))
        (cs ++ [⟨b.region.size, need, true⟩]) := by
  obtain ⟨hAppended, -⟩ := h.represents.append hNeed hGrown
  have hIn := inside_of_mem (b := { b with region := s }) hAppended
    (x := ⟨b.region.size, need, true⟩) (by simp) rfl
  refine ⟨_, does_storeTag (t := ⟨need, true⟩) (hGrown.anchored h.represents.anchored) hIn.1 hIn.2,
    rfl, .of_marks hAppended (marks_store _ _ _) fun y hy => ?_⟩
  rcases List.mem_append.mp hy with hy | hy
  · exact .inr ((h.owned y hy).grown hGrown)
  · exact .inl (by simp [List.mem_singleton.mp hy])

theorem Secure.of_grown (h : Secure b span cs) {s : Region} (hGrown : b.region.Grown 0 s) :
    Secure { b with region := s } span cs :=
  ⟨h.represents.of_grown hGrown, fun y hy => (h.owned y hy).grown hGrown⟩

theorem does_payload {r : Region} (h : Represents r span cs) (hx : x ∈ cs) (b : Bench) :
    Does (plus x.offset wordSize) b (x.offset + wordSize) b := by
  have hBounds := h.tiles.bounds hx
  have hEnd := h.anchored.end_lt
  refine does_plus ?_ b
  unfold wordSize
  omega

theorem Secure.does_allocate (h : Secure b span cs) (n : Nat) : ∃ c ds,
    Does (allocate span n) b ((BlockHeap.Implicit.allocate b.region span n).value.1,
        (BlockHeap.Implicit.allocate b.region span n).value.2.2) c ∧
      c.region = (BlockHeap.Implicit.allocate b.region span n).value.2.1 ∧
      Secure c (BlockHeap.Implicit.allocate b.region span n).value.2.2 ds := by
  unfold allocate
  cases hNeed : required? n with
  | none =>
    rw [value_allocate_none hNeed]
    exact ⟨b, cs, does_pure _ b, rfl, h⟩
  | some need =>
    have hPos := required?_pos hNeed
    obtain ⟨c₁, hSweep, hValue, hSecure₁⟩ := h.does_sweep
    have hSearch := hSecure₁.does_search need
    rw [value_allocate_some hNeed hValue]
    cases hFind : (mergeRuns 0 cs).find? (Chunk.fits need) with
    | some x =>
      obtain ⟨hFits, xs, ys, hSplit, _⟩ := List.find?_eq_some_iff_append.mp hFind
      rw [hFind] at hSearch
      rw [hSplit] at hSecure₁ hSweep hSearch ⊢
      obtain ⟨c, hTake, hRegion, hSecure⟩ := hSecure₁.does_take hPos hFits
      have hPayload := does_payload hSecure₁.represents (x := x) (by simp) c
      simp only [hSecure₁.represents.value_place]
      exact ⟨c, _, hSweep.bind (hSearch.bind (hTake.bind (hPayload.bind (does_pure _ c)))), hRegion,
        hSecure⟩
    | none =>
      have hGrow := does_grow hSecure₁.represents.anchored need
      rw [hFind] at hSearch
      rcases c₁.region.grow_cases need with ⟨_, s, hGrew, hGrown⟩ | ⟨_, s, hGrew, hGrown⟩
      · rw [hGrew] at hGrow ⊢
        obtain ⟨c, hStore, hRegion, hSecure⟩ := hSecure₁.does_append hPos hGrown
        have hPayload := does_payload hSecure.represents
          (x := ⟨c₁.region.size, need, true⟩) (by simp) c
        have hSpan : some (extend (spanOf (mergeRuns 0 cs)) c₁.region.size) =
            spanOf (mergeRuns 0 cs ++ [⟨c₁.region.size, need, true⟩]) := by
          refine spanOf_extend _ _ fun hNil => ?_
          have hTiles := hSecure₁.represents.tiles
          rw [hNil] at hTiles
          exact hTiles.symm
        simp only [hSpan]
        refine ⟨c, _, hSweep.bind (hSearch.bind (hGrow.bind (hStore.bind (hPayload.bind ?_)))),
          hRegion, hSecure⟩
        rw [hSpan]
        exact does_pure _ c
      · rw [hGrew] at hGrow ⊢
        exact ⟨_, _, hSweep.bind (hSearch.bind (hGrow.bind (does_pure _ _))), rfl,
          hSecure₁.of_grown hGrown⟩

section Block

variable (h : Secure b span cs) (hx : x ∈ cs)

include h hx

theorem Secure.does_fetchTag : Does (fetchTag x.offset) b x.tag b := by
  have hFetch := Watched.does_fetchTag h.represents.anchored
    (inside_of_mem h.represents hx rfl).1 (h.owned x hx)
  rwa [h.represents.tagged x hx] at hFetch

theorem Secure.does_capacity :
    Does (capacity (x.offset + wordSize)) b (x.size - wordSize) b := by
  have hBounds := h.represents.tiles.bounds hx
  have hMinus := does_minus (m := x.offset + wordSize) (n := wordSize) (Nat.le_add_left _ _) b
  have hMinus' := does_minus (m := x.size) (n := wordSize) (by unfold wordSize; omega) b
  rw [Nat.add_sub_cancel] at hMinus
  exact hMinus.bind ((h.does_fetchTag hx).bind hMinus')

theorem Secure.does_describe : Does (describe x.offset) b (block x) b := by
  have hBounds := h.represents.tiles.bounds hx
  have hMinus := does_minus (m := x.size) (n := wordSize) (by unfold wordSize; omega) b
  exact (h.does_fetchTag hx).bind ((does_payload h.represents hx b).bind
    (hMinus.bind (does_pure _ b)))

end Block

theorem Secure.does_deallocate (h : Secure b span (xs ++ x :: ys)) (hFlag : x.allocated = true) :
    ∃ c ds, Does (deallocate (x.offset + wordSize)) b ⟨⟩ c ∧
      c.region = free b.region (x.offset + wordSize) ∧ Secure c span ds := by
  have hx : x ∈ xs ++ x :: ys := by simp
  have hIn := inside_of_mem (b := b) h.represents hx rfl
  have hFreed := h.represents.free.1
  have hRegion : free b.region (x.offset + wordSize) =
      (b.store x.offset (Tag.mk x.size false).word).region := by
    rw [free, Nat.add_sub_cancel, h.represents.tagged x hx]
    rfl
  have hMinus := does_minus (m := x.offset + wordSize) (n := wordSize) (Nat.le_add_left _ _) b
  rw [Nat.add_sub_cancel] at hMinus
  rw [hRegion] at hFreed ⊢
  refine ⟨_, _, hMinus.bind ((h.does_fetchTag hx).bind (.ensured hFlag
    (does_storeTag (t := ⟨x.size, false⟩) h.represents.anchored hIn.1 hIn.2))), rfl,
    .of_marks hFreed (marks_store _ _ _) fun y hy => .inr ?_⟩
  rcases List.mem_append.mp hy with hy | hy
  · exact h.owned y (List.mem_append_left _ hy)
  · rcases List.mem_cons.mp hy with rfl | hy
    · exact h.owned x hx
    · exact h.owned y (List.mem_append_right _ (List.mem_cons_of_mem _ hy))

theorem does_setUp (b : Bench) : ∃ c, Does setUp b (layOut b.region).value.1 c ∧
    c.region = (layOut b.region).value.2 ∧
    ((layOut b.region).value.1 = true → Secure c none []) := by
  have hReanchor := does_reanchor b
  cases hAnchor : b.region.reanchor.value with
  | mk anchored r =>
    rw [hAnchor] at hReanchor
    cases anchored with
    | false =>
      have hValue : (layOut b.region).value = (false, r) := by simp [layOut, hAnchor]
      rw [hValue]
      exact ⟨_, hReanchor.bind (does_pure _ _), rfl, nofun⟩
    | true =>
      obtain ⟨hr, -, -⟩ := Region.reanchor_value hAnchor
      have hGrow := does_grow (b := { b with region := r }) hr (alignment.value - wordSize)
      have hValue : (layOut b.region).value =
          ((r.grow (alignment.value - wordSize)).value.1.isSome,
            (r.grow (alignment.value - wordSize)).value.2) := by simp [layOut, hAnchor]
      refine ⟨{ b with region := (r.grow (alignment.value - wordSize)).value.2 },
        hReanchor.bind (hGrow.bind ?_), ?_, fun hDone => ⟨?_, nofun⟩⟩
      · rw [hValue]
        exact does_pure _ _
      · rw [hValue]
      · have hRepresents := (represents_layOut (Prod.ext hDone rfl)).1
        rwa [hValue] at hRepresents

theorem Tail.does_nextBlock (h : Tail b last a (x :: cs)) :
    Does (nextBlock (some ⟨start, last⟩) x.offset) b (cs.head?.map Chunk.offset) b := by
  rw [← h.rest.cursor_eq]
  exact (h.does_fetchTag List.mem_cons_self).bind
    ((h.does_next List.mem_cons_self).bind (does_pure _ b))

theorem Secure.does_walk (h : Secure b span cs) (hTail : Tail b last a ds)
    (hMem : ∀ x ∈ ds, x ∈ cs) (hRounds : ds.length ≤ rounds) :
    Does (walk describe (nextBlock (some ⟨start, last⟩)) rounds (ds.head?.map Chunk.offset)) b
      (ds.map fun x => { block x with payload := b.region.address (block x).payload }) b := by
  induction ds generalizing a rounds with
  | nil => exact does_walk_none _ _ rounds b
  | cons x ds ih =>
    rw [List.length_cons] at hRounds
    obtain ⟨rounds, rfl⟩ := Nat.exists_eq_add_one.mpr (Nat.zero_lt_of_lt hRounds)
    have hx := hMem x List.mem_cons_self
    have hBounds := hTail.bounds_of_mem List.mem_cons_self
    have hPointer := does_pointer (o := (block x).payload) h.represents.anchored (by
      show x.offset + wordSize ≤ _
      unfold wordSize
      omega)
    have hRest := ih hTail.rest (fun y hy => hMem y (List.mem_cons_of_mem _ hy))
      (show ds.length ≤ rounds by omega)
    exact (h.does_describe hx).bind (hTail.does_nextBlock.bind
      (hPointer.bind (hRest.bind (does_pure _ b))))

end BlockHeap.Watched.Implicit
