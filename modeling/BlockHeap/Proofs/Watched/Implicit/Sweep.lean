import BlockHeap.Proofs.Watched.Implicit.Basic

/-!
# The sweep under watch

The inner loop merges the chunks of one run one by one, and so its invariant is that merging what it
has with what is left gives the same chunks. The outer loop then goes through the merged chunks.
-/

namespace BlockHeap.Watched.Implicit

open Bench
open BlockHeap.Implicit
open Chunk (mergeRuns)

variable {b c : Bench} {span : Option Span} {last a n rounds stop : Nat} {x m : Chunk}
  {cs ds : List Chunk}

/-- What becomes of a run: the chunks behind it, the size of the merged chunk, and where the last
block starts. -/
structure Gathered (b : Bench) (last stop : Nat) (x : Chunk) (cs ds : List Chunk)
    (size stop' : Nat) : Prop where
  merged : mergeRuns 0 (x :: cs) = ⟨x.offset, size, x.allocated⟩ :: mergeRuns 0 ds
  tail : Tail b last (x.offset + size) ds
  length_le : ds.length ≤ cs.length
  stop_eq : stop' = if ds = [] ∧ cs ≠ [] then x.offset else stop

theorem does_absorb (h : Tail b last (m.stop 0) cs) (hFree : m.allocated = false)
    (hRounds : cs.length ≤ rounds) (stop : Nat) :
    ∃ ds size stop', Gathered b last stop m cs ds size stop' ∧
      Does (absorb m.offset last rounds m.size (m.stop 0) stop) b (size, stop') b := by
  induction cs generalizing m stop rounds with
  | nil =>
    have hPast : ¬ m.stop 0 ≤ last := fun hLe => h.le_last_iff.mp hLe rfl
    refine ⟨[], m.size, stop, ⟨rfl, h, le_rfl, rfl⟩, ?_⟩
    cases rounds with
    | zero => exact .ensured hPast (does_pure _ b)
    | succ rounds =>
      rw [absorb, if_pos hPast]
      exact does_pure _ b
  | cons d cs ih =>
    rw [List.length_cons] at hRounds
    obtain ⟨rounds, rfl⟩ := Nat.exists_eq_add_one.mpr (Nat.zero_lt_of_lt hRounds)
    have hNext : m.stop 0 ≤ last := h.le_last_iff.mpr (List.cons_ne_nil d cs)
    have hOffset : d.offset = m.stop 0 := h.tiles.1
    have hFetch := h.does_fetchTag List.mem_cons_self
    rw [absorb, if_neg (not_not.mpr hNext), ← hOffset]
    cases hd : d.allocated with
    | true =>
      refine ⟨d :: cs, m.size, stop, ⟨?_, h, le_rfl, rfl⟩, hFetch.bind ?_⟩
      · exact Chunk.mergeRuns_cons_apart fun e he => .inr (Option.some.inj he ▸ hd)
      · rw [if_pos hd]
        exact does_pure _ b
    | false =>
      have hBounds := h.bounds_of_mem (x := d) List.mem_cons_self
      have hEnd := h.anchored.end_lt
      have hRest := h.rest
      have hLast := h.offset_eq_last_iff
      have hStop : d.stop 0 = (⟨m.offset, m.size + d.size, false⟩ : Chunk).stop 0 := by
        rw [Chunk.stop, hOffset, Chunk.stop, Chunk.stop_mk]
        omega
      have hPlus := does_plus (m := m.size) (n := d.size) (by
        unfold Chunk.stop at *
        omega) b
      have hPlus' := h.does_next (x := d) List.mem_cons_self
      rw [hStop] at hRest hPlus'
      obtain ⟨ds, size, stop', hGathered, hDoes⟩ := ih hRest rfl
        (show cs.length ≤ rounds by omega) (if d.offset = last then m.offset else stop)
      refine ⟨ds, size, stop', ⟨?_, hGathered.tail, ?_, ?_⟩, hFetch.bind ?_⟩
      · rw [Chunk.mergeRuns_cons_joined hFree hd, Nat.add_zero, hGathered.merged, hFree]
      · exact hGathered.length_le.trans (Nat.le_succ _)
      · rw [hGathered.stop_eq]
        have hLength := hGathered.length_le
        by_cases hNil : cs = []
        · subst hNil
          obtain rfl := List.length_eq_zero_iff.mp (Nat.le_zero.mp hLength)
          simp [hLast.mpr rfl]
        · simp [hNil, mt hLast.mp hNil]
      · rw [if_neg (by simp [hd])]
        exact hPlus.bind (hPlus'.bind hDoes)

theorem does_enlarge (h : Tail b last a (x :: cs)) (hRest : Tail b last (x.offset + n) ds)
    (hSize : n % 16 = 0 ∧ 16 ≤ n) :
    ∃ c, Does (enlarge x.offset x.size n) b ⟨⟩ c ∧
      c.region = (writeMerged b.region ⟨x.offset, n, false⟩).value ∧
      Tail c last (x.offset + n) ds ∧ b.Marks [] c := by
  rw [value_writeMerged, h.tagged x List.mem_cons_self]
  by_cases hSame : x.size = n
  · refine ⟨b, ?_, (if_pos hSame).symm, hRest, .refl b⟩
    rw [enlarge, if_neg (not_not.mpr hSame.symm)]
    exact does_pure _ b
  · refine ⟨b.store x.offset (Tag.mk n false).word, ?_, (if_neg hSame).symm, hRest.store ?_,
      (marks_store _ _ _).mono nofun⟩
    · rw [enlarge, if_pos (Ne.symm hSame)]
      exact does_storeTag h.anchored (h.inside_of_mem List.mem_cons_self) hSize.1
    · unfold wordSize
      omega

/-- Gathering a run does what writing its merged chunk does. -/
theorem does_gather (h : Tail b last a (x :: cs)) (hRounds : cs.length ≤ rounds) (stop : Nat) :
    ∃ ds size stop' c, Gathered c last stop x cs ds size stop' ∧
      Does (gather x.offset last rounds stop) b (size, stop') c ∧
      c.region = (writeMerged b.region ⟨x.offset, size, x.allocated⟩).value ∧ b.Marks [] c := by
  have hFetch := h.does_fetchTag List.mem_cons_self
  cases hx : x.allocated with
  | true =>
    refine ⟨cs, x.size, stop, b, ⟨?_, h.rest, le_rfl, by simp⟩, hFetch.bind ?_, ?_, .refl b⟩
    · exact Chunk.mergeRuns_cons_apart fun _ _ => .inl hx
    · rw [if_pos hx]
      exact does_pure _ b
    · rw [value_writeMerged, h.tagged x List.mem_cons_self]
      exact (if_pos rfl).symm
  | false =>
    obtain ⟨ds, size, stop', hGathered, hAbsorb⟩ := does_absorb h.rest hx hRounds stop
    have hNext := h.does_next (x := x) List.mem_cons_self
    have hSized : 16 ≤ size ∧ size % 16 = 0 := by
      have hMerged := h.tiles.mergeRuns (by decide)
      rw [hGathered.merged] at hMerged
      exact Chunk.size_of_wellSized hMerged.2.1
    obtain ⟨c, hEnlarge, hRegion, hTail, hMarks⟩ := does_enlarge h hGathered.tail hSized.symm
    refine ⟨ds, size, stop', c, ⟨hGathered.merged, hTail, hGathered.length_le, hGathered.stop_eq⟩,
      hFetch.bind ?_, hRegion, hMarks⟩
    rw [if_neg (by simp [hx])]
    exact hNext.bind (hAbsorb.bind (hEnlarge.bind (does_pure _ c)))

theorem Gathered.stop_getD {stop' : Nat} (h : Gathered b last stop x cs ds n stop')
    (hLast : cs = [] → stop = x.offset) :
    ((mergeRuns 0 (x :: cs)).getLast?.map Chunk.offset).getD stop =
      ((mergeRuns 0 ds).getLast?.map Chunk.offset).getD stop' := by
  rw [h.merged, h.stop_eq, List.getLast?_cons]
  by_cases hNil : ds = []
  · subst hNil
    by_cases hOne : cs = []
    · rw [if_neg fun hEnd => hEnd.2 hOne, hLast hOne]
      rfl
    · rw [if_pos ⟨rfl, hOne⟩]
      rfl
  · rw [List.getLast?_eq_some_getLast (Chunk.mergeRuns_ne_nil hNil)]
    rfl

/-- The sweep of the rest of the heap does what writing its merged chunks does. -/
theorem does_sweepFrom {total : Nat} (h : Tail b last a cs) (hTotal : cs.length ≤ total)
    (hRounds : cs.length ≤ rounds) (hStop : cs ≠ [] → stop = last) :
    ∃ c, Does (sweepFrom last total rounds (cs.head?.map Chunk.offset) stop) b
        (((mergeRuns 0 cs).getLast?.map Chunk.offset).getD stop) c ∧
      c.region = ((mergeRuns 0 cs).foldlM writeMerged b.region).value ∧ b.Marks [] c := by
  induction rounds generalizing b a cs stop with
  | zero =>
    obtain rfl := List.length_eq_zero_iff.mp (Nat.le_zero.mp hRounds)
    exact ⟨b, rfl, rfl, .refl b⟩
  | succ rounds ih =>
    cases cs with
    | nil => exact ⟨b, rfl, rfl, .refl b⟩
    | cons x cs =>
      rw [List.length_cons] at hTotal hRounds
      obtain ⟨ds, size, stop', c₁, hGathered, hGather, hRegion₁, hMarks₁⟩ :=
        does_gather h (show cs.length ≤ total by omega) stop
      have hLength := hGathered.length_le
      have hTail := hGathered.tail
      have hStop' : ds ≠ [] → stop' = last := by
        intro hNil
        rw [hGathered.stop_eq, if_neg fun hEnd => hNil hEnd.1]
        exact hStop (List.cons_ne_nil x cs)
      obtain ⟨c, hSweep, hRegion, hMarks⟩ := ih hTail (by omega) (by omega) hStop'
      refine ⟨c, ?_, ?_, hMarks₁.trans hMarks⟩
      · have hLe := hTail.tiles.le
        have hEnd := hTail.anchored.end_lt
        have hNext := does_plus (m := x.offset) (n := size) (by omega) c₁
        rw [← hTail.cursor_eq] at hSweep
        rw [hGathered.stop_getD fun hNil => (hStop (List.cons_ne_nil x cs)).trans
          (h.offset_eq_last_iff.mpr hNil).symm]
        exact hGather.bind (hNext.bind hSweep)
      · rw [hGathered.merged, List.foldlM_cons, Journaled.value_bind, ← hRegion₁, hRegion]

theorem Tail.does_sweep (h : Tail b last a cs) (hNil : cs ≠ [])
    (hChunks : chunks b.region (some ⟨a, last⟩) = cs) : ∃ c,
    Does (sweep (some ⟨a, last⟩)) b
        (some ⟨a, ((mergeRuns 0 cs).getLast?.map Chunk.offset).getD last⟩) c ∧
      c.region = ((mergeRuns 0 cs).foldlM writeMerged b.region).value ∧ b.Marks [] c := by
  have hRounds : cs.length ≤ (chunks b.region (some ⟨a, last⟩)).length := by rw [hChunks]
  obtain ⟨c, hSweep, hRegion, hMarks⟩ := does_sweepFrom h hRounds hRounds fun _ => rfl
  rw [← h.cursor_eq, if_pos (h.le_last_iff.mpr hNil)] at hSweep
  exact ⟨c, (does_get b).bind (hSweep.bind (does_pure _ c)), hRegion, hMarks⟩

theorem Secure.does_sweep (h : Secure b span cs) : ∃ c,
    Does (sweep span) b (spanOf (mergeRuns 0 cs)) c ∧
      (BlockHeap.Implicit.sweep b.region span).value =
        (mergeRuns 0 cs, c.region, spanOf (mergeRuns 0 cs)) ∧
      Secure c (spanOf (mergeRuns 0 cs)) (mergeRuns 0 cs) := by
  obtain ⟨s, hValue, hSwept, -⟩ := h.represents.sweep
  have hRegion : s = ((mergeRuns 0 cs).foldlM writeMerged b.region).value := by
    have hUnfolded := congrArg (fun x => x.2.1) hValue
    simpa [BlockHeap.Implicit.sweep, h.represents.chunks_eq] using hUnfolded.symm
  cases span with
  | none =>
    obtain rfl := h.eq_nil
    obtain rfl : s = b.region := hRegion
    exact ⟨b, (does_get b).bind (does_pure _ b), hValue, h⟩
  | some span =>
    obtain ⟨first, last⟩ := span
    obtain ⟨rfl, hTail⟩ := h.tail
    have hNil := h.ne_nil
    obtain ⟨c, hSweep, hDone, hMarks⟩ := hTail.does_sweep hNil h.represents.chunks_eq
    rw [← hDone] at hRegion
    rw [hRegion] at hValue hSwept
    refine ⟨c, ?_, hValue, hSwept, fun x hx => ?_⟩
    · rw [List.getLast?_eq_some_getLast (Chunk.mergeRuns_ne_nil hNil)] at hSweep
      rwa [spanOf, List.getLast?_eq_some_getLast (Chunk.mergeRuns_ne_nil hNil)]
    · obtain ⟨y, hy, hOffset, _⟩ := Chunk.origin_of_mem_mergeRuns hx
      exact hMarks.of_owned (hOffset ▸ h.owned y hy)

end BlockHeap.Watched.Implicit
