import BlockHeap.Proofs.Ledger.Heap
import BlockHeap.Proofs.Session.Soundness

/-!
# Heaps refine their ledgers

Whatever a client asks of a heap, the ledger that knows nothing but sizes, flags and the order of
the free blocks gives the same answers, step by step, and its books show the same blocks. One
request keeps the description of the heap by the ledger; the rest is an induction on the run.
-/

namespace BlockHeap

namespace Session

/-- The relation between a session and a ledger that a run keeps: the ledger describes the heap, and
the client holds the blocks that are allocated in its books. -/
structure Simulated (s : Session) (l : Ledger) : Prop where
  sound : s.Sound l.blocks
  describes : l.Describes s.heap

variable {strategy : Strategy} {arena : Arena} {s t : Session} {q : Request} {qs : List Request}
  {bs : List Block} {l : Ledger} {p : Nat}

theorem Sound.simulated (hs : s.Sound bs) (hl : l.Describes s.heap) : s.Simulated l := by
  have hBlocks : bs = l.blocks :=
    hs.represents.blockOffsets_eq.symm.trans hl.represents.blockOffsets_eq
  exact ⟨hBlocks ▸ hs, hl⟩

theorem simulated_start (strategy : Strategy) (arena : Arena) :
    (start strategy arena).Simulated (Ledger.start strategy arena) :=
  (sound_start strategy arena).simulated (Ledger.describes_start strategy arena)

/-- A lawful request is answered alike, and the description goes on. -/
theorem Simulated.describes_step (h : s.Simulated l) (hLawful : s.Lawful q) :
    s.answer q = (l.serve q).1 ∧ (l.serve q).2.Describes (s.step q).heap := by
  obtain ⟨hs, hl⟩ := h
  cases q with
  | layOut => exact ⟨rfl, Ledger.describes_layOut hl.strategy_eq hl.mark_eq hl.limit_eq⟩
  | allocate n => exact hl.value_allocate n
  | zeroAllocate count n => exact hl.zeroAllocate count n
  | free pointer =>
    cases pointer with
    | none => exact ⟨rfl, hl⟩
    | some p =>
      obtain ⟨c, hc, rfl⟩ := hs.exists_of_mem hLawful
      exact ⟨rfl, hl.free hc⟩
  | reallocate pointer n =>
    cases pointer with
    | none => exact hl.value_allocate n
    | some p =>
      obtain ⟨c, hc, rfl⟩ := hs.exists_of_mem hLawful
      exact hl.reallocate hc n
  | write a bytes => exact ⟨rfl, hl.mapMemory (hs.agree_write hLawful)⟩

theorem Simulated.step (h : s.Simulated l) (hLawful : s.Lawful q) :
    s.answer q = (l.serve q).1 ∧ (s.step q).Simulated (l.serve q).2 := by
  obtain ⟨hAnswer, hNext⟩ := h.describes_step hLawful
  obtain ⟨cs, hStep, _⟩ := h.sound.step hLawful
  exact ⟨hAnswer, hStep.simulated hNext⟩

theorem Simulated.run (h : s.Simulated l) (hRun : s.Run qs t) :
    s.answers qs = l.answers qs ∧ t.Simulated (l.after qs) := by
  induction hRun generalizing l with
  | nil s => exact ⟨rfl, h⟩
  | @cons s t q qs hLawful _ ih =>
    obtain ⟨hAnswer, hNext⟩ := h.step hLawful
    obtain ⟨hAnswers, hEnd⟩ := ih hNext
    refine ⟨?_, hEnd⟩
    rw [Session.answers, Ledger.answers, hAnswer, hAnswers]

theorem describes_of_run (hRun : (start strategy arena).Run qs s) :
    (start strategy arena).answers qs = (Ledger.start strategy arena).answers qs ∧
      ((Ledger.start strategy arena).after qs).Describes s.heap ∧ s.heap.strategy = strategy := by
  obtain ⟨_, _, hStrategy⟩ := (sound_start strategy arena).run hRun
  obtain ⟨hAnswers, hEnd⟩ := (simulated_start strategy arena).run hRun
  exact ⟨hAnswers, hEnd.describes, hStrategy.trans (strategy_start strategy arena)⟩

@[simp] theorem live_step_free (s : Session) (p : Nat) :
    (s.step (.free (some p))).live = s.live.filter fun other => !(other == p) := rfl

theorem Run.live_eq (hRun : s.Run qs t) : t.live = (qs.zip (s.answers qs)).foldl
    (fun live e => e.2.toList ++ live.filter fun p => !e.1.ends e.2 p) s.live := by
  induction hRun with
  | nil s => rfl
  | cons _ _ ih => exact ih

/-- The explicit strategy refines its books: along every run both answer the same, and have the same
anchor, the same blocks, and the same nodes from the newest on. -/
theorem explicit_refines_books (hRun : (start .explicit arena).Run qs s) :
    let l := (Ledger.start .explicit arena).after qs
    (start .explicit arena).answers qs = (Ledger.start .explicit arena).answers qs ∧
    s.heap.arena.mark = l.mark ∧
    (s.heap.ready = false → l.heap = none ∧ s.heap.blockOffsets = []) ∧
    (s.heap.ready = true → ∃ books, l.heap = some (s.heap.region.anchor, .explicit books) ∧
      s.heap.blockOffsets = books.blocks ∧ s.heap.size = books.size ∧
      Explicit.freeList.newestFirst s.heap.region = books.newest) := by
  intro l
  obtain ⟨hAnswers, hl, hStrategy⟩ := describes_of_run hRun
  have hBlocks : s.heap.blockOffsets = Books.recorded l.heap :=
    hl.represents.blockOffsets_eq
  refine ⟨hAnswers, hl.mark_eq.symm, fun hReady => ?_, fun hReady => ?_⟩
  · have hNone := hl.recorded.of_bare hReady
    exact ⟨hNone, hBlocks.trans (congrArg Books.recorded hNone)⟩
  · obtain ⟨books, hHeap, hNewest⟩ := hl.recorded.of_explicit hReady hStrategy
    have hRecorded := hl.recorded
    rw [hHeap] at hRecorded
    exact ⟨books, hHeap, hBlocks.trans (congrArg Books.recorded hHeap), hRecorded.size_eq.symm,
      hNewest⟩

theorem explicit_refines_books_of_three :
    let s := ((((((start .explicit Arena.page).step (.allocate 24)).step (.allocate 40)).step
      (.allocate 8)).step (.free (some 65600))).step (.free (some 65648))).step (.allocate 24)
    let qs : List Request := [.allocate 24, .allocate 40, .allocate 8, .free (some 65600),
      .free (some 65648), .allocate 24]
    (start .explicit Arena.page).answers qs =
      [some 65600, some 65648, some 65712, none, none, some 65600] ∧
    s.heap.blockOffsets = [⟨48, 32, true⟩, ⟨96, 48, false⟩, ⟨160, 16, true⟩] ∧
    Explicit.freeList.newestFirst s.heap.region = [96] := by
  intro s qs
  let t := (((start .explicit Arena.page).step (.allocate 24)).step (.allocate 40)).step
    (.allocate 8)
  have hStart : (start .explicit Arena.page).Run [.allocate 24, .allocate 40, .allocate 8] t :=
    .cons trivial (.cons trivial (.cons trivial (.nil _)))
  have hLive : t.live = [65712, 65648, 65600] := by
    rw [hStart.live_eq, (explicit_refines_books hStart).1]
    decide
  have hFirst : t.Lawful (.free (some 65600)) := by simp [Lawful, hLive]
  have hSecond : (t.step (.free (some 65600))).Lawful (.free (some 65648)) := by
    simp [Lawful, hLive]
  have hRun : (start .explicit Arena.page).Run qs s := .cons trivial (.cons trivial
    (.cons trivial (.cons hFirst (.cons hSecond (.cons trivial (.nil _))))))
  obtain ⟨hAnswers, _, hBare, hBooks⟩ := explicit_refines_books hRun
  have hLedger : ((Ledger.start .explicit Arena.page).after qs).heap = some (65552, .explicit
      ⟨[⟨32, true⟩, ⟨48, false⟩, ⟨16, true⟩], [96]⟩) := by decide
  have hReady : s.heap.ready = true := eq_true_of_ne_false fun hNot =>
    Option.some_ne_none _ (hLedger.symm.trans (hBare hNot).1)
  obtain ⟨books, hHeap, hBlocks, _, hNewest⟩ := hBooks hReady
  rw [hLedger, Option.some.injEq, Prod.mk.injEq, Books.explicit.injEq] at hHeap
  obtain ⟨-, rfl⟩ := hHeap
  exact ⟨hAnswers.trans (by decide), hBlocks.trans (by decide), hNewest⟩

/-- The implicit strategy refines its books, in the same way. -/
theorem implicit_refines_books (hRun : (start .implicit arena).Run qs s) :
    let l := (Ledger.start .implicit arena).after qs
    (start .implicit arena).answers qs = (Ledger.start .implicit arena).answers qs ∧
    s.heap.arena.mark = l.mark ∧
    (s.heap.ready = false → l.heap = none ∧ s.heap.blockOffsets = []) ∧
    (s.heap.ready = true → ∃ books, l.heap = some (s.heap.region.anchor, .implicit books) ∧
      s.heap.blockOffsets = books.blocks ∧ s.heap.size = books.size) := by
  intro l
  obtain ⟨hAnswers, hl, hStrategy⟩ := describes_of_run hRun
  have hBlocks : s.heap.blockOffsets = Books.recorded l.heap :=
    hl.represents.blockOffsets_eq
  refine ⟨hAnswers, hl.mark_eq.symm, fun hReady => ?_, fun hReady => ?_⟩
  · have hNone := hl.recorded.of_bare hReady
    exact ⟨hNone, hBlocks.trans (congrArg Books.recorded hNone)⟩
  · obtain ⟨books, hHeap⟩ := hl.recorded.of_implicit hReady hStrategy
    have hRecorded := hl.recorded
    rw [hHeap] at hRecorded
    exact ⟨books, hHeap, hBlocks.trans (congrArg Books.recorded hHeap), hRecorded.size_eq.symm⟩

theorem implicit_refines_books_of_three :
    let s := ((((((start .implicit Arena.page).step (.allocate 24)).step (.allocate 24)).step
      (.allocate 8)).step (.free (some 65600))).step (.free (some 65568))).step (.allocate 4000)
    let qs : List Request := [.allocate 24, .allocate 24, .allocate 8, .free (some 65600),
      .free (some 65568), .allocate 4000]
    (start .implicit Arena.page).answers qs =
      [some 65568, some 65600, some 65632, none, none, none] ∧
    s.heap.blockOffsets = [⟨16, 56, false⟩, ⟨80, 8, true⟩] := by
  intro s qs
  let t := (((start .implicit Arena.page).step (.allocate 24)).step (.allocate 24)).step
    (.allocate 8)
  have hStart : (start .implicit Arena.page).Run [.allocate 24, .allocate 24, .allocate 8] t :=
    .cons trivial (.cons trivial (.cons trivial (.nil _)))
  have hLive : t.live = [65632, 65600, 65568] := by
    rw [hStart.live_eq, (implicit_refines_books hStart).1]
    decide
  have hSecond : t.Lawful (.free (some 65600)) := by simp [Lawful, hLive]
  have hFirst : (t.step (.free (some 65600))).Lawful (.free (some 65568)) := by
    simp [Lawful, hLive]
  have hRun : (start .implicit Arena.page).Run qs s := .cons trivial (.cons trivial
    (.cons trivial (.cons hSecond (.cons hFirst (.cons trivial (.nil _))))))
  obtain ⟨hAnswers, _, hBare, hBooks⟩ := implicit_refines_books hRun
  have hLedger : ((Ledger.start .implicit Arena.page).after qs).heap = some (65552, .implicit
      ⟨[⟨64, false⟩, ⟨16, true⟩]⟩) := by decide
  have hReady : s.heap.ready = true := eq_true_of_ne_false fun hNot =>
    Option.some_ne_none _ (hLedger.symm.trans (hBare hNot).1)
  obtain ⟨books, hHeap, hBlocks, _⟩ := hBooks hReady
  rw [hLedger, Option.some.injEq, Prod.mk.injEq, Books.implicit.injEq] at hHeap
  obtain ⟨-, rfl⟩ := hHeap
  exact ⟨hAnswers.trans (by decide), hBlocks.trans (by decide)⟩

end Session

end BlockHeap
