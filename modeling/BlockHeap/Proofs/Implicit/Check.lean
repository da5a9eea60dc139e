import BlockHeap.Implicit.Check
import BlockHeap.Proofs.Implicit.Layout

/-!
# What the check of an implicit heap accepts

The check accepts exactly the regions in which the headers lead from the first block of the span to
its last one, over chunks of possible sizes with aligned payloads, and in which this last one ends
where the region does.
-/

namespace BlockHeap.Implicit

structure Chained (r : Region) (a last : Nat) (cs : List Chunk) : Prop where
  tiles : Chunk.Tiles 0 a cs r.size
  tagged : ∀ c ∈ cs, r.tag c.offset = c.tag
  aligned : ∀ c ∈ cs, r.address (c.offset + wordSize) % 16 = 0
  getLast_eq : cs.getLast?.map Chunk.offset = some last

variable {r : Region} {span : Span} {c d : Chunk} {cs : List Chunk} {a last fuel : Nat}

theorem Chained.ne_nil (h : Chained r a last cs) : cs ≠ [] := by
  rintro rfl
  cases h.getLast_eq

theorem chained_singleton : Chained r a last [c] ↔
    c.offset = a ∧ c.tag.WellSized ∧ r.tag c.offset = c.tag ∧
      r.address (c.offset + wordSize) % 16 = 0 ∧ c.stop 0 = r.size ∧ c.offset = last := by
  constructor
  · rintro ⟨⟨hOffset, hSized, hEnd⟩, hTag, hAddress, hLast⟩
    exact ⟨hOffset, hSized, hTag c List.mem_cons_self, hAddress c List.mem_cons_self, hEnd,
      Option.some.inj hLast⟩
  · rintro ⟨hOffset, hSized, hTag, hAddress, hEnd, hLast⟩
    exact ⟨⟨hOffset, hSized, hEnd⟩, List.forall_mem_singleton.mpr hTag,
      List.forall_mem_singleton.mpr hAddress, congrArg some hLast⟩

theorem chained_cons_cons : Chained r a last (c :: d :: cs) ↔
    c.offset = a ∧ c.tag.WellSized ∧ r.tag c.offset = c.tag ∧
      r.address (c.offset + wordSize) % 16 = 0 ∧ Chained r (c.stop 0) last (d :: cs) := by
  constructor
  · rintro ⟨⟨hOffset, hSized, hTiles⟩, hTag, hAddress, hLast⟩
    obtain ⟨hTag, hTagged⟩ := List.forall_mem_cons.mp hTag
    obtain ⟨hAddress, hAligned⟩ := List.forall_mem_cons.mp hAddress
    rw [List.getLast?_cons_cons] at hLast
    exact ⟨hOffset, hSized, hTag, hAddress, hTiles, hTagged, hAligned, hLast⟩
  · rintro ⟨hOffset, hSized, hTag, hAddress, hTiles, hTagged, hAligned, hLast⟩
    refine ⟨⟨hOffset, hSized, hTiles⟩, List.forall_mem_cons.mpr ⟨hTag, hTagged⟩,
      List.forall_mem_cons.mpr ⟨hAddress, hAligned⟩, ?_⟩
    rwa [List.getLast?_cons_cons]

theorem Chained.le_last (h : Chained r a last cs) : a ≤ last := by
  obtain ⟨c, hc, rfl⟩ := Option.map_eq_some_iff.mp h.getLast_eq
  exact h.tiles.le_offset (List.mem_of_getLast? hc)

theorem checkFrom_succ_eq_ok_iff (hTag : r.tag c.offset = c.tag) :
    checkFrom r last (fuel + 1) c.offset = .ok () ↔
      c.tag.WellSized ∧ r.address (c.offset + wordSize) % 16 = 0 ∧
        ((c.offset = last ∧ c.stop 0 = r.size) ∨
          (c.offset ≠ last ∧ c.stop 0 ≤ last ∧ c.stop 0 ≤ r.size ∧
            checkFrom r last fuel (c.stop 0) = .ok ())) := by
  have hStop : c.offset + c.tag.size = c.stop 0 := rfl
  simp only [checkFrom, hTag, hStop, HeapError.guard_eq_ok_iff, alignment_rem, not_not]
  constructor
  · rintro ⟨_, hSized, hAligned, hFits, h⟩
    refine ⟨hSized, hAligned, ?_⟩
    split at h
    · next hLast =>
      split at h
      · next hEnd => exact .inl ⟨hLast, hEnd⟩
      · cases h
    · next hNot =>
      obtain ⟨hNext, hRest⟩ := HeapError.guard_eq_ok_iff.mp h
      exact .inr ⟨hNot, by omega, by omega, hRest⟩
  · rintro ⟨hSized, hAligned, h⟩
    have hSize := Chunk.size_of_wellSized hSized
    have hLength : c.offset + c.size = c.stop 0 := rfl
    have hWord : wordSize = 8 := rfl
    rcases h with ⟨hLast, hEnd⟩ | ⟨hNot, hNext, hFits, hRest⟩
    · refine ⟨by omega, hSized, hAligned, by omega, ?_⟩
      rw [if_pos hLast, if_pos hEnd]
    · refine ⟨by omega, hSized, hAligned, by omega, ?_⟩
      rw [if_neg hNot]
      exact HeapError.guard_eq_ok_iff.mpr ⟨by omega, hRest⟩

theorem checkFrom_eq_ok_iff :
    checkFrom r last fuel a = .ok () ↔ ∃ cs, Chained r a last cs ∧ cs.length ≤ fuel := by
  induction fuel generalizing a with
  | zero =>
    refine ⟨nofun, ?_⟩
    rintro ⟨cs, hChained, hLength⟩
    exact (hChained.ne_nil (List.eq_nil_of_length_eq_zero (Nat.le_zero.mp hLength))).elim
  | succ fuel ih =>
    constructor
    · intro h
      obtain ⟨hSized, hAligned, ⟨hLast, hEnd⟩ | ⟨_, _, _, hRest⟩⟩ :=
        (checkFrom_succ_eq_ok_iff (c := ⟨a, r.tag a⟩) rfl).mp h
      · exact ⟨[⟨a, r.tag a⟩], chained_singleton.mpr ⟨rfl, hSized, rfl, hAligned, hEnd, hLast⟩,
          Nat.succ_le_succ (Nat.zero_le fuel)⟩
      · obtain ⟨cs, hChained, hLength⟩ := ih.mp hRest
        cases cs with
        | nil => exact (hChained.ne_nil rfl).elim
        | cons d cs =>
          exact ⟨⟨a, r.tag a⟩ :: d :: cs,
            chained_cons_cons.mpr ⟨rfl, hSized, rfl, hAligned, hChained⟩, Nat.succ_le_succ hLength⟩
    · rintro ⟨cs, hChained, hLength⟩
      cases cs with
      | nil => exact (hChained.ne_nil rfl).elim
      | cons c cs =>
        cases cs with
        | nil =>
          obtain ⟨rfl, hSized, hTag, hAligned, hEnd, hLast⟩ := chained_singleton.mp hChained
          exact (checkFrom_succ_eq_ok_iff hTag).mpr ⟨hSized, hAligned, .inl ⟨hLast, hEnd⟩⟩
        | cons d cs =>
          obtain ⟨rfl, hSized, hTag, hAligned, hRest⟩ := chained_cons_cons.mp hChained
          have hPos := Chunk.size_of_wellSized hSized
          have hNext : c.offset + 0 + c.size ≤ last := hRest.le_last
          exact (checkFrom_succ_eq_ok_iff hTag).mpr ⟨hSized, hAligned, .inr ⟨by omega, hNext,
            hRest.tiles.le, ih.mpr ⟨_, hRest, Nat.le_of_succ_le_succ hLength⟩⟩⟩

theorem chained_iff : Chained r a last cs ↔
    Chunk.Tiles 0 a cs r.size ∧
      (∀ c ∈ cs, c.size ≠ 0 ∧ c.size % 16 = 0 ∧ r.address (c.offset + 8) % 16 = 0 ∧
        c.offset + c.size ≤ r.size ∧ r.tag c.offset = c.tag) ∧
      cs.getLast?.map Chunk.offset = some last := by
  constructor
  · intro h
    refine ⟨h.tiles, fun c hc => ?_, h.getLast_eq⟩
    have hBounds := h.tiles.bounds hc
    exact ⟨by omega, hBounds.2.2.2, h.aligned c hc, hBounds.2.1, h.tagged c hc⟩
  · rintro ⟨hTiles, hChunks, hLast⟩
    exact ⟨hTiles, fun c hc => (hChunks c hc).2.2.2.2, fun c hc => (hChunks c hc).2.2.1, hLast⟩

theorem check_eq_ok_iff :
    check r (some span) = .ok () ↔ ∃ cs, Chained r span.first span.last cs := by
  rw [check, checkFrom_eq_ok_iff]
  constructor
  · rintro ⟨cs, hChained, _⟩
    exact ⟨cs, hChained⟩
  · rintro ⟨cs, hChained⟩
    have hLength := hChained.tiles.length_le
    exact ⟨cs, hChained, by omega⟩

/-- What the operations maintain is all that the check asks for. -/
theorem Represents.check_eq_ok {span : Option Span} (h : Represents r span cs) :
    check r span = .ok () := by
  cases hSpan : span with
  | none => rfl
  | some t =>
    have hFirst := h.first_eq (hSpan ▸ rfl : t ∈ span)
    have hLast : cs.getLast?.map Chunk.offset = some t.last := by
      obtain ⟨c, hc, rfl⟩ := Option.map_eq_some_iff.mp (h.span_eq ▸ hSpan : spanOf cs = some t)
      rw [hc]
      rfl
    refine check_eq_ok_iff.mpr ⟨cs, hFirst ▸ h.tiles, h.tagged, fun c hc => ?_, hLast⟩
    have hAnchor := h.anchored.aligned
    have hMod := h.tiles.offset_mod (by decide) hc
    rw [start_eq] at hMod
    unfold Region.address wordSize
    omega

end BlockHeap.Implicit
