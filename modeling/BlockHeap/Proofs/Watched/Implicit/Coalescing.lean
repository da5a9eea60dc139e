import BlockHeap.Proofs.Chunk.Runs
import BlockHeap.Proofs.Implicit.Check
import BlockHeap.Proofs.Watched.Implicit.Sweep

/-!
# What the sweep makes of a heap

Any heap that the check accepts may be swept, wherever its runs of free blocks are and however many
blocks they have. The headers of two blocks share no byte, so the header that the sweep compares
with the size of a run is the one that was there before, and it is another one if and only if the
run has two blocks or more. A heap that has been swept has no such run.
-/

namespace BlockHeap.Implicit

open Bench Watched
open Chunk (fuse mergeRuns)

/-- What becomes of the runs of two blocks or more. All others are one chunk already. -/
def joined (cs : List Chunk) : List Chunk :=
  ((runs Chunk.allocated cs).filter fun run => 2 ≤ run.length).map (fuse 0)

/-- The second heap is the first one with every run of free neighbours as one block, and only the
headers of the blocks that grew are written for it. -/
structure Swept (r : Region) (span : Option Span) (s : Region) (span' : Option Span) : Prop where
  chunks_eq : chunks s span' = (runs Chunk.allocated (chunks r span)).map (fuse 0)
  first_eq : span'.map Span.first = span.map Span.first
  last_eq : span'.map Span.last = (chunks s span').getLast?.map Chunk.offset
  size_eq : s.size = r.size
  region_eq : s = setHeaders r (joined (chunks r span))
  word_eq : ∀ o, (∀ d ∈ joined (chunks r span), o + wordSize ≤ d.offset ∨ d.offset + wordSize ≤ o) →
    s.word o = r.word o
  check_eq : check s span' = .ok ()

variable {r s : Region} {span : Option Span} {cs ms : List Chunk} {a last : Nat}

theorem keeps_setHeaders_none (r : Region) (ds : List Chunk) :
    r.Keeps (fun _ => False) (setHeaders r ds) := keeps_setHeaders fun _ _ _ _ => not_false

theorem word_setHeaders_of_apart {ds : List Chunk} {o : Nat}
    (h : ∀ d ∈ ds, o + wordSize ≤ d.offset ∨ d.offset + wordSize ≤ o) :
    (setHeaders r ds).word o = r.word o :=
  (keeps_setHeaders fun d hd _ hx => hx.disjoint (h d hd)).word_eq fun _ hx => hx

theorem value_foldlM_writeMerged (h : ms.Pairwise fun c d => c.offset + wordSize ≤ d.offset)
    (r : Region) : (ms.foldlM writeMerged r).value =
      setHeaders r (ms.filter fun m => (r.tag m.offset).size ≠ m.size) := by
  induction ms generalizing r with
  | nil => rfl
  | cons m ms ih =>
    obtain ⟨hHead, hTail⟩ := List.pairwise_cons.mp h
    have hSame : (ms.filter fun d => ((writeMerged r m).value.tag d.offset).size ≠ d.size) =
        ms.filter fun d => (r.tag d.offset).size ≠ d.size := by
      refine List.filter_congr fun d hd => ?_
      rw [tag_writeMerged_of_apart (.inr (hHead d hd))]
    rw [List.foldlM_cons, Journaled.value_bind, ih hTail, hSame, value_writeMerged]
    by_cases hThere : (r.tag m.offset).size = m.size
    · rw [if_pos hThere, List.filter_cons_of_neg (by simpa using hThere)]
    · rw [if_neg hThere, List.filter_cons_of_pos (by simpa using hThere), setHeaders_cons]

theorem foldlM_writeMerged_of_tagged (h : ∀ m ∈ ms, r.tag m.offset = m.tag) :
    ms.foldlM writeMerged r = pure r := by
  induction ms with
  | nil => rfl
  | cons m ms ih =>
    obtain ⟨hHead, hTail⟩ := List.forall_mem_cons.mp h
    have hFirst : writeMerged r m = pure r := by
      rw [writeMerged, hHead]
      exact if_pos rfl
    rw [List.foldlM_cons, hFirst]
    exact ih hTail

namespace Chained

theorem chunks_eq (h : Chained r a last cs) : chunks r (some ⟨a, last⟩) = cs := by
  have hLength := h.tiles.length_le
  obtain ⟨c, ds, rfl⟩ := List.exists_cons_of_ne_nil h.ne_nil
  exact chunksFrom_eq h.tiles h.tagged h.getLast_eq (by omega)

theorem filter_mergeRuns (h : Chained r a last cs) :
    ((mergeRuns 0 cs).filter fun m => (r.tag m.offset).size ≠ m.size) = joined cs := by
  rw [Chunk.mergeRuns_eq, List.filter_map, joined]
  refine congrArg (List.map (fuse 0)) (List.filter_congr fun run hRun => ?_)
  obtain ⟨c, ds, rfl⟩ := List.exists_cons_of_ne_nil (ne_nil_of_mem_runs hRun)
  have hTag : r.tag c.offset = c.tag := h.tagged c (mem_of_mem_runs hRun List.mem_cons_self)
  change decide ((r.tag c.offset).size ≠ (fuse 0 (c :: ds)).size) = _
  rw [hTag, decide_eq_decide]
  cases ds with
  | nil => simp [fuse]
  | cons d ds =>
    have hMem : d ∈ cs := mem_of_mem_runs hRun (by simp)
    have hPos := Chunk.size_of_wellSized (h.tiles.wellSized hMem)
    have hMore : c.size < (fuse 0 (c :: d :: ds)).size := by
      simp only [fuse, Chunk.size, List.map_cons, List.sum_cons] at hPos ⊢
      omega
    exact iff_of_true (Nat.ne_of_lt hMore) (by simp)

theorem value_foldlM (h : Chained r a last cs) :
    ((mergeRuns 0 cs).foldlM writeMerged r).value = setHeaders r (joined cs) := by
  rw [value_foldlM_writeMerged (h.tiles.mergeRuns (by decide)).headers_apart, h.filter_mergeRuns]

theorem sweep (h : Chained r a last cs) (hr : r.Anchored) : ∃ last',
    (Implicit.sweep r (some ⟨a, last⟩)).value =
      (mergeRuns 0 cs, setHeaders r (joined cs), some ⟨a, last'⟩) ∧
    Chained (setHeaders r (joined cs)) a last' (mergeRuns 0 cs) := by
  have hRegion := h.value_foldlM
  have hKeeps := keeps_setHeaders_none r (joined cs)
  have hTagged := tagged_mergeRuns hr h.tiles h.tagged
  have hNil : mergeRuns 0 cs ≠ [] := Chunk.mergeRuns_ne_nil h.ne_nil
  have hLast := lastAfter_eq h.getLast_eq hNil ⟨a, last⟩ rfl
  refine ⟨_, ?_, hKeeps.size_eq ▸ h.tiles.mergeRuns (by decide), hRegion ▸ hTagged, ?_, hLast⟩
  · simp only [Implicit.sweep, h.chunks_eq, Journaled.value_bind, Journaled.value_pure, hRegion]
    rfl
  · intro d hd
    obtain ⟨c, hc, hOffset, _⟩ := Chunk.origin_of_mem_mergeRuns hd
    have hAligned := h.aligned c hc
    rw [Region.address] at hAligned ⊢
    rwa [hKeeps.anchor_eq, ← hOffset]

theorem swept {last' : Nat} (h : Chained r a last cs)
    (hs : Chained (setHeaders r (joined cs)) a last' (mergeRuns 0 cs)) :
    Swept r (some ⟨a, last⟩) (setHeaders r (joined cs)) (some ⟨a, last'⟩) where
  chunks_eq := by rw [hs.chunks_eq, h.chunks_eq, Chunk.mergeRuns_eq]
  first_eq := rfl
  last_eq := by
    rw [hs.chunks_eq, hs.getLast_eq]
    rfl
  size_eq := (keeps_setHeaders_none r (joined cs)).size_eq
  region_eq := by rw [h.chunks_eq]
  word_eq o ho := word_setHeaders_of_apart (h.chunks_eq ▸ ho)
  check_eq := check_eq_ok_iff.mpr ⟨_, hs⟩

theorem sweep_eq_pure (h : Chained r a last cs) (hMerged : mergeRuns 0 cs = cs) :
    Implicit.sweep r (some ⟨a, last⟩) = pure (cs, r, some ⟨a, last⟩) := by
  have hLast : Span.lastAfter ⟨a, last⟩ cs cs = last := by
    rw [Span.lastAfter, h.getLast_eq]
    exact if_pos rfl
  simp only [Implicit.sweep, h.chunks_eq, hMerged, foldlM_writeMerged_of_tagged h.tagged]
  rw [Option.map_some, hLast]
  rfl

theorem tail (h : Chained r a last cs) (hr : r.Anchored) :
    Watched.Implicit.Tail ⟨r, fun _ => true⟩ last a cs := by
  have hMod : a % 16 = 8 := by
    obtain ⟨c, ds, rfl⟩ := List.exists_cons_of_ne_nil h.ne_nil
    obtain rfl : c.offset = a := h.tiles.1
    have hAligned := h.aligned c List.mem_cons_self
    have hAnchor := hr.aligned
    unfold Region.address wordSize at hAligned
    omega
  refine ⟨hr, ?_, hMod, h.tiles, h.tagged, fun _ _ _ _ => rfl, fun c hc => ?_, ?_⟩
  · rw [start_eq]
    omega
  · have hLast := h.getLast_eq
    rw [hc] at hLast
    exact Option.some.inj hLast
  · exact fun hNil => (h.ne_nil hNil).elim

end Chained

/-- The sweep comes to an end, on a heap of any length, without a lapse of its two loops; the heap
is then what it should be, and sweeping it again neither changes nor reports anything. -/
theorem sweep_coalesces (hr : r.Anchored) (hCheck : check r span = .ok ()) : ∃ s span',
    (sweep r span).value = (chunks s span', s, span') ∧ Swept r span s span' ∧
    sweep s span' = pure (chunks s span', s, span') ∧
    ∃ b, Does (Watched.Implicit.sweep span) ⟨r, fun _ => true⟩ span' b ∧ b.region = s := by
  cases span with
  | none =>
    refine ⟨r, none, rfl, ⟨rfl, rfl, rfl, rfl, rfl, fun _ _ => rfl, rfl⟩, rfl,
      ⟨r, fun _ => true⟩, ?_, rfl⟩
    exact (does_get _).bind (does_pure _ _)
  | some span =>
    obtain ⟨first, last⟩ := span
    obtain ⟨cs, h⟩ := check_eq_ok_iff.mp hCheck
    obtain ⟨last', hValue, hs⟩ := h.sweep hr
    obtain ⟨b, hDoes, hRegion, _⟩ := (h.tail hr).does_sweep h.ne_nil h.chunks_eq
    have hAgain := hs.sweep_eq_pure (Chunk.mergeRuns_mergeRuns 0 cs)
    rw [← hs.chunks_eq] at hValue hAgain
    rw [hs.getLast_eq] at hDoes
    exact ⟨_, _, hValue, h.swept hs, hAgain, b, hDoes, hRegion.trans h.value_foldlM⟩

theorem sweep_coalesces_of_two :
    let r := setHeaders (Region.blank.grow 8).value.2 [⟨8, 16, false⟩, ⟨24, 16, false⟩,
      ⟨40, 16, true⟩, ⟨56, 16, false⟩, ⟨72, 32, false⟩]
    let ms : List Chunk := [⟨8, 32, false⟩, ⟨40, 16, true⟩, ⟨56, 48, false⟩]
    r.Anchored ∧ check r (some ⟨8, 72⟩) = .ok () ∧ ∃ s,
      (sweep r (some ⟨8, 72⟩)).value = (ms, s, some ⟨8, 56⟩) ∧ chunks s (some ⟨8, 56⟩) = ms ∧
      s.tag 72 = r.tag 72 ∧ sweep s (some ⟨8, 56⟩) = pure (ms, s, some ⟨8, 56⟩) ∧
      ∃ b, Does (Watched.Implicit.sweep (some ⟨8, 72⟩)) ⟨r, fun _ => true⟩ (some ⟨8, 56⟩) b ∧
        b.region = s := by
  intro r ms
  have hr : r.Anchored := ⟨by decide, le_rfl, rfl⟩
  obtain ⟨hCheck, hChunks⟩ : check r (some ⟨8, 72⟩) = .ok () ∧ chunks r (some ⟨8, 72⟩) =
      [⟨8, 16, false⟩, ⟨24, 16, false⟩, ⟨40, 16, true⟩, ⟨56, 16, false⟩, ⟨72, 32, false⟩] := by
    decide +kernel
  obtain ⟨s, span', hValue, hSwept, hAgain, hDoes⟩ := sweep_coalesces hr hCheck
  have hMerged : chunks s span' = ms := by
    rw [hSwept.chunks_eq, hChunks]
    rfl
  have hSpan : span' = some ⟨8, 56⟩ := by
    have hFirst := hSwept.first_eq
    have hLast := hSwept.last_eq
    rw [hMerged] at hLast
    cases span' with
    | none => cases hFirst
    | some t =>
      obtain ⟨first, last⟩ := t
      obtain rfl : first = 8 := Option.some.inj hFirst
      obtain rfl : last = 56 := Option.some.inj hLast
      rfl
  subst hSpan
  rw [hMerged] at hValue hAgain
  have hTag : s.tag 72 = r.tag 72 := by
    refine congrArg Tag.ofWord (hSwept.word_eq 72 ?_)
    rw [hChunks]
    decide
  exact ⟨hr, hCheck, s, hValue, hMerged, hTag, hAgain, hDoes⟩

end BlockHeap.Implicit
