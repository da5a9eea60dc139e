import BlockHeap.Proofs.Implicit.Sweep
import BlockHeap.Proofs.Region.Anchoring

/-!
# Operations of an implicit heap

Each operation takes a region that represents chunks to one that represents the chunks it should.
Allocation is described by `Outcome`: which answer and which chunks there are afterwards, in terms
of the chunks before and of the bytes left in the arena alone.
-/

namespace BlockHeap.Implicit

variable {r s : Region} {span : Option Span} {c d : Chunk} {cs xs ys : List Chunk} {n need : Nat}

/-- Chunks after an allocation of `n` bytes, and the payload that it answers. -/
inductive Outcome (n left size : Nat) (cs : List Chunk) : Option Nat → List Chunk → Prop where
  | unrepresentable : required? n = none → Outcome n left size cs none cs
  | reused {need : Nat} {xs : List Chunk} {c : Chunk} {ys : List Chunk} : required? n = some need →
      Chunk.mergeRuns 0 cs = xs ++ c :: ys → (∀ d ∈ xs, d.fits need = false) → c.fits need = true →
      Outcome n left size cs (some (c.offset + wordSize)) (xs ++ c.carve 0 need ++ ys)
  | appended {need : Nat} :
      required? n = some need → (∀ d ∈ Chunk.mergeRuns 0 cs, d.fits need = false) → need ≤ left →
      Outcome n left size cs (some (size + wordSize)) (Chunk.mergeRuns 0 cs ++ [⟨size, need, true⟩])
  | exhausted {need : Nat} :
      required? n = some need → (∀ d ∈ Chunk.mergeRuns 0 cs, d.fits need = false) →
      left < need → Outcome n left size cs none (Chunk.mergeRuns 0 cs)

theorem required?_eq (n : Nat) : required? n =
    if wordLimit ≤ (n + 8 + 15) / 16 * 16 then none else some ((n + 8 + 15) / 16 * 16) := by
  unfold required?
  rw [PowerOfTwo.alignment_roundUp?]
  unfold wordSize wordLimit
  split
  · split
    · rw [if_neg (by omega)]
    · rw [if_pos (by omega)]
  · rw [if_pos (by omega)]

theorem required?_eq_none_iff (n : Nat) :
    required? n = none ↔ wordLimit ≤ (n + 8 + 15) / 16 * 16 := by
  rw [required?_eq]
  split
  · next h => exact iff_of_true rfl h
  · next h => exact iff_of_false (Option.some_ne_none _) h

theorem required?_eq_some_iff :
    required? n = some need ↔ (n + 8 + 15) / 16 * 16 = need ∧ need < wordLimit := by
  rw [required?_eq]
  split
  · exact iff_of_false nofun (by omega)
  · rw [Option.some.injEq]
    omega

theorem required?_eq_some (h : required? n = some need) :
    n + wordSize ≤ need ∧ need < n + 24 ∧ need % 16 = 0 := by
  obtain ⟨rfl, _⟩ := required?_eq_some_iff.mp h
  unfold wordSize
  omega

theorem required?_pos (h : required? n = some need) : 0 < need ∧ need % 16 = 0 := by
  obtain ⟨hLe, _, hMod⟩ := required?_eq_some h
  exact ⟨Nat.lt_of_lt_of_le (Nat.succ_pos _) hLe, hMod⟩

theorem spanOf_congr (h : xs.map Chunk.offset = ys.map Chunk.offset) : spanOf xs = spanOf ys := by
  have hLast := congrArg List.getLast? h
  rw [List.getLast?_map, List.getLast?_map] at hLast
  have hEq := congrArg (Option.map (Span.mk start)) hLast
  rwa [Option.map_map, Option.map_map] at hEq

theorem spanOf_append_singleton (cs : List Chunk) (c : Chunk) :
    spanOf (cs ++ [c]) = some ⟨start, c.offset⟩ := by
  rw [spanOf, List.getLast?_append]
  rfl

theorem spanOf_append_of_ne_nil (xs : List Chunk) (h : ys ≠ []) :
    spanOf (xs ++ ys) = spanOf ys := by
  rw [spanOf, spanOf, List.getLast?_append, List.getLast?_eq_some_getLast h]
  rfl

def setHeaders (r : Region) (ds : List Chunk) : Region :=
  ds.foldl (fun r d => r.setTag d.offset d.tag) r

theorem setHeaders_cons (r : Region) (d : Chunk) (ds : List Chunk) :
    setHeaders r (d :: ds) = setHeaders (r.setTag d.offset d.tag) ds := rfl

theorem keeps_setHeaders {K : Nat → Prop} {ds : List Chunk}
    (h : ∀ d ∈ ds, ∀ x, r.WordAt d.offset x → ¬ K x) : r.Keeps K (setHeaders r ds) := by
  induction ds generalizing r with
  | nil => exact Region.Keeps.refl K r
  | cons d ds ih =>
    rw [setHeaders_cons]
    exact (Region.keeps_setTag (h d List.mem_cons_self)).trans
      (ih fun e he => h e (List.mem_cons_of_mem _ he))

theorem tag_setHeaders {ds : List Chunk}
    (hApart : ds.Pairwise fun c d => c.offset + wordSize ≤ d.offset)
    (hWord : ∀ d ∈ ds, d.tag.size % 2 = 0 ∧ d.tag.word < wordLimit) :
    ∀ d ∈ ds, (setHeaders r ds).tag d.offset = d.tag := by
  induction ds generalizing r with
  | nil => exact fun d hd => (List.not_mem_nil hd).elim
  | cons d ds ih =>
    obtain ⟨hHead, hTail⟩ := List.pairwise_cons.mp hApart
    obtain ⟨hEven, hLt⟩ := hWord d List.mem_cons_self
    rw [setHeaders_cons]
    intro e he
    rcases List.mem_cons.mp he with rfl | he
    · have hKeep : (r.setTag e.offset e.tag).Keeps ((r.setTag e.offset e.tag).WordAt e.offset)
          (setHeaders (r.setTag e.offset e.tag) ds) :=
        keeps_setHeaders fun f hf _ hx => hx.disjoint (.inl (hHead f hf))
      rw [hKeep.tag_eq fun _ hx => hx, r.tag_setTag _ hEven hLt]
    · exact ih hTail (fun f hf => hWord f (List.mem_cons_of_mem _ hf)) e he

/-- Writing the headers of a run is enough to make it part of the heap, if it fits between what is
there. -/
theorem represents_setHeaders {ds : List Chunk} (hr : r.Anchored)
    (hTiles : Chunk.Tiles 0 start (xs ++ ds ++ ys) r.size)
    (hTags : ∀ d ∈ xs ++ ys, r.tag d.offset = d.tag) :
    Represents (setHeaders r ds) (spanOf (xs ++ ds ++ ys)) (xs ++ ds ++ ys) ∧
      r.Keeps (Foreign r.anchor r.size ((xs ++ ds ++ ys).map block)) (setHeaders r ds) := by
  have hKeeps : r.Keeps (Foreign r.anchor r.size ((xs ++ ds ++ ys).map block)) (setHeaders r ds) :=
    keeps_setHeaders fun d hd => header_not_foreign hTiles (by simp [hd])
  have hOther : ∀ d ∈ xs ++ ys, (setHeaders r ds).tag d.offset = d.tag := by
    intro d hd
    have hBounds := hTiles.bounds (Chunk.mem_around.mpr (.inr hd))
    rw [← hTags d hd]
    refine (keeps_setHeaders fun e he x hx => hx.disjoint ?_).tag_eq fun _ hx => hx
    have hApart := hTiles.apart_of_split he hd
    have hBounds' := hTiles.bounds (c := e) (by simp [he])
    unfold Chunk.stop at hApart
    unfold wordSize
    omega
  refine ⟨⟨hKeeps.anchored hr, hKeeps.size_eq ▸ hTiles, ?_, rfl⟩, hKeeps⟩
  intro d hd
  rcases Chunk.mem_around.mp hd with hMem | hMem
  · have hApart := (List.pairwise_append.mp hTiles.headers_apart).1
    exact tag_setHeaders (List.pairwise_append.mp hApart).2.1
      (fun e he => word_tag_lt hr hTiles (by simp [he])) d hMem
  · exact hOther d hMem

theorem Represents.exchange {ds : List Chunk} (h : Represents r span (xs ++ c :: ys))
    (hTiles : Chunk.Tiles 0 c.offset ds (c.stop 0)) :
    Represents (setHeaders r ds) (spanOf (xs ++ ds ++ ys)) (xs ++ ds ++ ys) ∧
      r.Keeps (Foreign r.anchor r.size ((xs ++ ds ++ ys).map block)) (setHeaders r ds) := by
  rw [List.append_cons] at h
  apply represents_setHeaders h.anchored
  · refine h.tiles.exchange fun m n hOne => ?_
    obtain ⟨rfl, _, rfl⟩ := hOne
    exact hTiles
  · exact fun d hd => h.tagged d (Chunk.mem_around.mpr (.inr hd))

theorem Represents.spanOf_carve (h : Represents r span (xs ++ c :: ys)) (need : Nat) :
    spanOf (xs ++ c.carve 0 need ++ ys) =
      if c.size - need < 16 then span
      else span.map fun s => if s.last = c.offset then
        { s with last := c.offset + need } else s := by
  rw [h.span_eq]
  unfold Chunk.carve
  simp only [Nat.zero_add, Nat.add_zero]
  by_cases hNil : ys = []
  · subst hNil
    rw [List.append_nil, spanOf_append_singleton xs c]
    split
    · rw [spanOf_append_singleton]
    · rw [List.append_cons, spanOf_append_singleton]
      simp
  · have hOld : spanOf (xs ++ c :: ys) = spanOf ys := by
      rw [List.append_cons, spanOf_append_of_ne_nil _ hNil]
    have hLast : spanOf ys = some ⟨start, (ys.getLast hNil).offset⟩ := by
      rw [spanOf, List.getLast?_eq_some_getLast hNil]
      rfl
    have hAfter : c.offset < (ys.getLast hNil).offset := by
      obtain ⟨_, hSized, hRest⟩ := Chunk.tiles_append_cons.mp h.tiles
      have hLe := hRest.le_offset (List.getLast_mem hNil)
      have hPos := Chunk.size_of_wellSized hSized
      unfold Chunk.stop at hLe
      omega
    rw [spanOf_append_of_ne_nil _ hNil, hOld, hLast]
    split
    · rfl
    · rw [Option.map_some, if_neg (Nat.ne_of_gt hAfter)]

theorem Represents.value_place (h : Represents r span (xs ++ c :: ys)) (need : Nat) :
    (place r span c need).value =
      (setHeaders r (c.carve 0 need), spanOf (xs ++ c.carve 0 need ++ ys)) := by
  rw [h.spanOf_carve]
  unfold place Chunk.carve
  simp only [Nat.zero_add, Nat.add_zero, Nat.sub_zero, Journaled.value_ite]
  by_cases hWhole : c.size - need < 16
  · rw [if_pos hWhole, if_pos hWhole, if_pos (show c.size - need < alignment.value from hWhole)]
    rfl
  · rw [if_neg hWhole, if_neg hWhole, if_neg (show ¬ c.size - need < alignment.value from hWhole)]
    rfl

theorem value_allocate_none (h : required? n = none) :
    (allocate r span n).value = (none, r, span) := by
  simp [allocate, h]

theorem value_allocate_some {ms : List Chunk} {span' : Option Span} (h : required? n = some need)
    (hSweep : (sweep r span).value = (ms, s, span')) : (allocate r span n).value =
      match ms.find? (Chunk.fits need) with
      | some c => (some (c.offset + wordSize), (place s span' c need).value)
      | none =>
        match (s.grow need).value with
        | (none, t) => (none, t, span')
        | (some block, t) =>
          (some (block + wordSize), setHeaders t [⟨block, need, true⟩],
            some (extend span' block)) := by
  simp only [allocate, h, Journaled.value_bind, hSweep]
  cases ms.find? (Chunk.fits need) with
  | some c => rfl
  | none =>
    obtain ⟨⟨fresh, t⟩, events⟩ := s.grow need
    cases fresh with
    | none => rfl
    | some block => rfl

theorem spanOf_extend {o : Nat} (cs : List Chunk) (t : Tag) (h : cs = [] → o = start) :
    some (extend (spanOf cs) o) = spanOf (cs ++ [⟨o, t⟩]) := by
  rw [spanOf_append_singleton]
  by_cases hNil : cs = []
  · subst hNil
    rw [h rfl]
    rfl
  · rw [spanOf, List.getLast?_eq_some_getLast hNil]
    rfl

theorem Represents.reuse (h : Represents r span (xs ++ c :: ys)) (hNeed : 0 < need ∧ need % 16 = 0)
    (hFits : c.fits need = true) :
    Represents (setHeaders r (c.carve 0 need)) (spanOf (xs ++ c.carve 0 need ++ ys))
      (xs ++ c.carve 0 need ++ ys) ∧
    r.Evolves ((xs ++ c :: ys).map block) (setHeaders r (c.carve 0 need)) := by
  obtain ⟨hFree, hLe⟩ := Chunk.fits_iff.mp hFits
  have hTiles : Chunk.Tiles 0 c.offset (c.carve 0 need) (c.stop 0) :=
    Chunk.tiles_carve (by decide) (h.tiles.wellSized (by simp)) hNeed hLe
  obtain ⟨hPlaced, hKept⟩ := h.exchange hTiles
  refine ⟨hPlaced, (hKept.evolves le_rfl).mono ?_⟩
  rw [List.append_cons]
  exact held_map_exchange allocated_block (by simpa using hFree) _

theorem Represents.append (h : Represents r span cs) (hNeed : 0 < need ∧ need % 16 = 0)
    (hGrown : r.Grown need s) :
    Represents (setHeaders s [⟨r.size, need, true⟩]) (spanOf (cs ++ [⟨r.size, need, true⟩]))
      (cs ++ [⟨r.size, need, true⟩]) ∧
    r.Evolves (cs.map block) (setHeaders s [⟨r.size, need, true⟩]) := by
  have hTiles : Chunk.Tiles 0 start (cs ++ [⟨r.size, need, true⟩] ++ []) s.size := by
    rw [List.append_nil, Chunk.tiles_append_cons]
    exact ⟨h.tiles, (Tag.wellSized_iff _).mpr hNeed, hGrown.size_eq.symm⟩
  have hTags : ∀ d ∈ cs ++ [], s.tag d.offset = d.tag := by
    intro d hd
    rw [hGrown.tag_eq, h.tagged d (by simpa using hd)]
  obtain ⟨hAppended, hKept⟩ := represents_setHeaders (hGrown.anchored h.anchored) hTiles hTags
  rw [List.append_nil] at hAppended hKept
  refine ⟨hAppended, hGrown.evolves.trans (hKept.evolves le_rfl) ?_⟩
  exact held_map_subset allocated_block fun d hd _ => List.mem_append_left _ hd

theorem Represents.of_grown (h : Represents r span cs) (hGrown : r.Grown 0 s) :
    Represents s span cs where
  anchored := hGrown.anchored h.anchored
  tiles := hGrown.size_eq ▸ h.tiles
  tagged c hc := (hGrown.tag_eq _).trans (h.tagged c hc)
  span_eq := h.span_eq

theorem Represents.allocate (h : Represents r span cs) (n : Nat) : ∃ answer s ds,
    (allocate r span n).value = (answer, s, spanOf ds) ∧
    Outcome n (r.arena.capacity - r.arena.size) r.size cs answer ds ∧
    Represents s (spanOf ds) ds ∧ r.Evolves (cs.map block) s := by
  cases hNeed : required? n with
  | none =>
    refine ⟨none, r, cs, ?_, .unrepresentable hNeed, h.span_eq ▸ h, Region.Evolves.refl _ r⟩
    rw [← h.span_eq]
    exact value_allocate_none hNeed
  | some need =>
    obtain ⟨s, hSweep, hs, hKeeps⟩ := h.sweep
    have hPos := required?_pos hNeed
    have hHeld : ∀ b ∈ held (cs.map block), b ∈ held ((Chunk.mergeRuns 0 cs).map block) := by
      refine held_map_subset allocated_block fun c hc hFlag => ?_
      exact List.mem_of_mem_filter (Chunk.filter_mergeRuns 0 cs ▸ List.mem_filter.mpr ⟨hc, hFlag⟩)
    rw [value_allocate_some hNeed hSweep]
    cases hFind : (Chunk.mergeRuns 0 cs).find? (Chunk.fits need) with
    | some c =>
      obtain ⟨hFits, xs, ys, hSplit, hOther⟩ := List.find?_eq_some_iff_append.mp hFind
      rw [hSplit] at hs hHeld
      obtain ⟨hPlaced, hEvolves⟩ := hs.reuse hPos hFits
      refine ⟨some (c.offset + wordSize), _, xs ++ c.carve 0 need ++ ys, ?_,
        .reused hNeed hSplit (fun d hd => by simpa using hOther d hd) hFits, hPlaced,
        (hKeeps.evolves le_rfl).trans hEvolves hHeld⟩
      rw [hSplit, ← hs.value_place]
    | none =>
      have hNone : ∀ d ∈ Chunk.mergeRuns 0 cs, d.fits need = false := by
        simpa using List.find?_eq_none.mp hFind
      have hSize := hKeeps.size_eq
      have hLeft : s.arena.capacity - s.arena.size = r.arena.capacity - r.arena.size := by
        rw [hKeeps.shape]
        rfl
      rcases s.grow_cases need with ⟨hRoom, t, hGrow, hGrown⟩ | ⟨hRoom, t, hGrow, hGrown⟩
      · obtain ⟨hAppended, hEvolves⟩ := hs.append hPos hGrown
        rw [hSize] at hAppended hEvolves hGrow
        refine ⟨some (r.size + wordSize), _, _, ?_, .appended hNeed hNone (hLeft ▸ hRoom),
          hAppended, (hKeeps.evolves le_rfl).trans hEvolves hHeld⟩
        rw [hGrow]
        refine congrArg (fun x => (some (r.size + wordSize), _, x))
          (spanOf_extend _ _ fun hNil => ?_)
        have hTiles := hs.tiles
        rw [hNil, hSize] at hTiles
        exact hTiles.symm
      · refine ⟨none, t, Chunk.mergeRuns 0 cs, ?_, .exhausted hNeed hNone (hLeft ▸ hRoom),
          hs.of_grown hGrown, (hKeeps.evolves le_rfl).trans hGrown.evolves hHeld⟩
        rw [hGrow]

theorem Represents.free (h : Represents r span (xs ++ c :: ys)) :
    Represents (free r (c.offset + wordSize)) span (xs ++ ⟨c.offset, c.size, false⟩ :: ys) ∧
    r.Evolves ((xs ++ ⟨c.offset, c.size, false⟩ :: ys).map block)
      (free r (c.offset + wordSize)) := by
  have hTag : (r.tag c.offset).size = c.size := congrArg Tag.size (h.tagged c (by simp))
  have hFree :
      Implicit.free r (c.offset + wordSize) = setHeaders r [⟨c.offset, c.size, false⟩] := by
    rw [Implicit.free, Nat.add_sub_cancel, hTag]
    rfl
  have hSpan : span = spanOf (xs ++ ⟨c.offset, c.size, false⟩ :: ys) := by
    rw [h.span_eq]
    exact spanOf_congr (by simp)
  have hSized := h.tiles.wellSized (c := c) (by simp)
  have hOne : Chunk.Tiles 0 c.offset [(⟨c.offset, c.size, false⟩ : Chunk)] (c.stop 0) :=
    ⟨rfl, hSized, rfl⟩
  obtain ⟨hFreed, hKept⟩ := h.exchange hOne
  rw [List.append_assoc, List.singleton_append] at hFreed hKept
  rw [hFree, hSpan]
  exact ⟨hFreed, hKept.evolves le_rfl⟩

theorem represents_layOut (h : (layOut r).value = (true, s)) :
    Represents s none [] ∧ s.arena.memory = r.arena.memory := by
  unfold layOut at h
  cases hAnchor : r.reanchor.value with
  | mk anchored t =>
    simp only [Journaled.value_bind, hAnchor] at h
    cases anchored with
    | false => simp at h
    | true =>
      obtain ⟨ht, hSize, hMemory⟩ := Region.reanchor_value hAnchor
      rcases t.grow_cases (alignment.value - wordSize) with ⟨_, u, hGrow, hGrown⟩ | ⟨_, u, hGrow, _⟩
      · simp [hGrow] at h
        subst h
        refine ⟨⟨hGrown.anchored ht, ?_, by simp, rfl⟩, hGrown.memory_eq.trans hMemory⟩
        rw [Chunk.tiles_nil, hGrown.size_eq, hSize, Nat.zero_add, start]
      · simp [hGrow] at h

theorem memory_layOut (r : Region) : (layOut r).value.2.arena.memory = r.arena.memory := by
  have hMemory := r.memory_reanchor
  unfold layOut
  cases hAnchor : r.reanchor.value with
  | mk anchored s =>
    rw [hAnchor] at hMemory
    cases anchored with
    | false => simpa [hAnchor] using hMemory
    | true =>
      rcases s.grow_cases (alignment.value - wordSize) with ⟨_, t, hGrow, hGrown⟩ |
        ⟨_, t, hGrow, hGrown⟩
      · simpa [hAnchor, hGrow] using hGrown.memory_eq.trans hMemory
      · simpa [hAnchor, hGrow] using hGrown.memory_eq.trans hMemory

theorem laidOut (r : Region) : r.LaidOut 8 (layOut r).value.1 (layOut r).value.2 := by
  show r.LaidOut (alignment.value - wordSize) _ _
  unfold layOut
  rcases r.laidOut_cases (alignment.value - wordSize) with ⟨s, hAnchor, hLaidOut⟩ |
    ⟨s, hAnchor, ⟨t, hGrow, hLaidOut⟩ | ⟨t, hGrow, hLaidOut⟩⟩
  · simpa [hAnchor] using hLaidOut
  · simpa [hAnchor, hGrow] using hLaidOut
  · simpa [hAnchor, hGrow] using hLaidOut

theorem base_layOut (h : (layOut r).value = (true, s)) : s.arena.base = r.arena.base := by
  unfold layOut at h
  rcases r.reanchor_cases with ⟨_, t, hAnchor, _, _, _, hBase, _, _⟩ | ⟨_, t, hAnchor, _⟩
  · rcases t.grow_cases (alignment.value - wordSize) with ⟨_, u, hGrow, hGrown⟩ | ⟨_, u, hGrow, _⟩
    · obtain rfl : u = s := by simpa [hAnchor, hGrow] using h
      exact hGrown.base_eq.trans hBase
    · simp [hAnchor, hGrow] at h
  · simp [hAnchor] at h

theorem layOut_congr (h : r.arena = s.arena) :
    Region.SameOrLeft r s (layOut r).value (layOut s).value := by
  unfold layOut
  rcases Region.reanchor_congr h with hSame | ⟨a, hr, hs⟩
  · exact .inl (by simp only [Journaled.value_bind, hSame])
  · exact .inr ⟨a, by simp [hr], by simp [hs]⟩

end BlockHeap.Implicit
