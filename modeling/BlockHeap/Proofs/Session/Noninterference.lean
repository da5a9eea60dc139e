import BlockHeap.Proofs.Session.Abreast

/-!
# Noninterference

What is in the memory of an arena when a heap is laid out over it, and what its client writes to the
payloads that it holds, makes no difference to the heap. Two runs whose requests are the same, but
for the writes, stay abreast in one and the same place.
-/

namespace BlockHeap

def Arena.littered : Arena := { Arena.page with memory := Memory.fill {} 65536 4096 255 }

namespace Request

def isWrite : Request → Bool
  | .write _ _ => true
  | _ => false

@[simp] theorem shift_zero (q : Request) : q.shift (0 + ·) = q := by
  cases q <;> simp [shift]

end Request

theorem Ledger.abreast_self {l : Ledger} (hNone : l.heap = none) :
    l.Abreast 0 0 l.limit l.limit l where
  aligned := ⟨rfl, rfl⟩
  le := Nat.le_refl _
  strategy_eq := rfl
  limit_eq := ⟨(Nat.zero_add _).symm, (Nat.zero_add _).symm⟩
  next_eq := ⟨l.next, (Nat.zero_add _).symm, (Nat.zero_add _).symm⟩
  heap_eq := .inl ⟨hNone, hNone⟩

namespace Session

variable {strategy : Strategy} {arena arena' : Arena} {s s' t t' : Session} {q : Request}
  {qs qs' : List Request} {l l' : Ledger} {a a' b b' p : Nat}

/-- What a run shows of a heap: all requests but the writes, with their answers. -/
def observed (s : Session) (qs : List Request) : List (Request × Option Nat) :=
  (qs.zip (s.answers qs)).filter fun e => !e.1.isWrite

theorem observed_cons_of_write (hWrite : q.isWrite = true) :
    s.observed (q :: qs) = (s.step q).observed qs :=
  List.filter_cons_of_neg (by simp [hWrite])

theorem observed_cons (hNot : q.isWrite = false) :
    s.observed (q :: qs) = (q, s.answer q) :: (s.step q).observed qs :=
  List.filter_cons_of_pos (by simp [hNot])

theorem live_step_of_write (hWrite : q.isWrite = true) : (s.step q).live = s.live := by
  cases q with
  | write a bytes => exact List.filter_eq_self.mpr fun _ _ => rfl
  | _ => cases hWrite

theorem size_step_of_write (hWrite : q.isWrite = true) :
    (s.step q).heap.size = s.heap.size := by
  cases q with
  | write a bytes => rfl
  | _ => cases hWrite

theorem Simulated.step_of_write (h : s.Simulated l) (hLawful : s.Lawful q)
    (hWrite : q.isWrite = true) : (s.step q).Simulated l := by
  cases q with
  | write a bytes => exact (h.step hLawful).2
  | _ => cases hWrite

theorem Abreast.write_left (h : Abreast a a' b b' s s' l l') (hLawful : s.Lawful q)
    (hWrite : q.isWrite = true) : Abreast a a' b b' (s.step q) s' l l' where
  left := h.left.step_of_write hLawful hWrite
  right := h.right
  ledgers := h.ledgers
  size_eq := h.size_eq.trans (size_step_of_write hWrite).symm
  live_eq := by rw [live_step_of_write hWrite]; exact h.live_eq

theorem Abreast.write_right (h : Abreast a a' b b' s s' l l') (hLawful : s'.Lawful q)
    (hWrite : q.isWrite = true) : Abreast a a' b b' s (s'.step q) l l' where
  left := h.left
  right := h.right.step_of_write hLawful hWrite
  ledgers := h.ledgers
  size_eq := (size_step_of_write hWrite).trans h.size_eq
  live_eq := by rw [live_step_of_write hWrite]; exact h.live_eq

theorem Abreast.step_same (h : Abreast 0 0 b b s s' l l') (hLawful : s.Lawful q) :
    s'.answer q = s.answer q ∧ ∃ m m', Abreast 0 0 b b (s.step q) (s'.step q) m m' := by
  obtain ⟨answer, hHere, hThere, hNext⟩ :=
    h.step (r := q) (by rwa [Request.shift_zero]) (.inl rfl)
  simp only [Request.shift_zero] at hHere hThere hNext
  exact ⟨hThere.trans hHere.symm, hNext⟩

/-- The runs need not be of the same length: in each of them the client writes as it likes between
two requests. -/
theorem Abreast.run_same (h : Abreast 0 0 b b s s' l l') (hRun : s.Run qs t)
    (hRun' : s'.Run qs' t')
    (hSame : (qs.filter fun q => !q.isWrite) = qs'.filter fun q => !q.isWrite) :
    s'.observed qs' = s.observed qs ∧ ∃ m m', Abreast 0 0 b b t t' m m' := by
  induction hRun generalizing s' t' l l' qs' with
  | nil s =>
    induction hRun' with
    | nil s' => exact ⟨rfl, l, l', h⟩
    | @cons s' t' q' qs' hLawful' _ ih' =>
      cases hWrite' : q'.isWrite with
      | true =>
        rw [observed_cons_of_write hWrite']
        exact ih' (h.write_right hLawful' hWrite') (by simpa [hWrite'] using hSame)
      | false => simp [hWrite'] at hSame
  | @cons s t q qs hLawful _ ih =>
    cases hWrite : q.isWrite with
    | true =>
      rw [observed_cons_of_write hWrite]
      exact ih (h.write_left hLawful hWrite) hRun' (by simpa [hWrite] using hSame)
    | false =>
      rw [observed_cons hWrite]
      induction hRun' with
      | nil s' => simp [hWrite] at hSame
      | @cons s' t' q' qs' hLawful' hRun' ih' =>
        cases hWrite' : q'.isWrite with
        | true =>
          rw [observed_cons_of_write hWrite']
          exact ih' (h.write_right hLawful' hWrite') (by simpa [hWrite'] using hSame)
        | false =>
          simp only [hWrite, hWrite', Bool.not_false, List.filter_cons_of_pos, List.cons.injEq]
            at hSame
          obtain ⟨rfl, hSame⟩ := hSame
          obtain ⟨hAnswer, m, m', hNext⟩ := h.step_same hLawful
          obtain ⟨hObserved, hEnd⟩ := ih hNext hRun' hSame
          rw [observed_cons hWrite, hAnswer, hObserved]
          exact ⟨rfl, hEnd⟩

theorem Abreast.live_same (h : Abreast 0 0 b b' s s' l l') : s'.live = s.live := by
  obtain ⟨os, hLive, hLive'⟩ := h.live_eq
  rw [hLive, hLive']

theorem Abreast.usableSize_same (h : Abreast 0 0 b b' s s' l l') (hp : p ∈ s.live) :
    s'.heap.usableSize p = s.heap.usableSize p := by
  have hUsable := h.usableSize_eq (o := p) (by rwa [Nat.zero_add])
  rwa [Nat.zero_add] at hUsable

theorem Abreast.blocks_same (h : Abreast 0 0 b b' s s' l l') (hMatches : s.heap.Matches s'.heap) :
    s'.heap.blocks = s.heap.blocks := by
  cases hReady : s.heap.ready with
  | true =>
    obtain ⟨k, hAnchor, hAnchor'⟩ := h.anchor_eq hReady
    exact Heap.blocks_congr (hAnchor'.trans hAnchor.symm) hMatches.blockOffsets_eq
  | false =>
    have hReady' : s'.heap.ready = false := hMatches.ready_eq.trans hReady
    simp [Heap.blocks, Heap.blockOffsets, hReady, hReady']

theorem abreast_same (strategy : Strategy) (hMark : arena'.mark = arena.mark)
    (hLimit : arena'.limit = arena.limit) :
    let l := Ledger.start strategy arena
    Abreast 0 0 arena.limit arena.limit (start strategy arena) (start strategy arena') l l := by
  intro l
  have hLedger : Ledger.start strategy arena' = l := by
    show (⟨strategy, arena'.mark, arena'.limit, none⟩ : Ledger) = ⟨strategy, _, arena.limit, none⟩
    rw [hMark, hLimit]
  exact ⟨simulated_start strategy arena, hLedger ▸ simulated_start strategy arena',
    Ledger.abreast_self (l := l) rfl, rfl, [], rfl, rfl⟩

/-- Two runs whose requests differ in nothing but the writes of the clients show the same, whatever
the memories hold, and a run reads no byte but those that its heap wrote last. -/
theorem noninterference (hMark : arena'.mark = arena.mark) (hLimit : arena'.limit = arena.limit)
    (hRun : (start strategy arena).Run qs s) (hRun' : (start strategy arena').Run qs' s')
    (hSame : (qs.filter fun q => !q.isWrite) = qs'.filter fun q => !q.isWrite) :
    (start strategy arena').observed qs' = (start strategy arena).observed qs ∧
    s'.live = s.live ∧ (∀ p ∈ s.live, s'.heap.usableSize p = s.heap.usableSize p) ∧
    s.heap.Matches s'.heap ∧ s'.heap.blocks = s.heap.blocks ∧
    s'.heap.statistics = s.heap.statistics ∧ s'.heap.size = s.heap.size ∧
    s'.heap.check.value = s.heap.check.value ∧
    ∃ f b, Watched.Does (Front.serveAll (.new strategy) qs) (.new arena)
        ((start strategy arena).answers qs, f) b ∧
      (∀ p ∈ s.live, Watched.Does (f.usableSize p) b (s.heap.usableSize p) b) ∧
      Watched.Does f.blocks b s.heap.blocks b ∧ ∀ o ∈ s.heap.metadata, b.Owned o := by
  obtain ⟨hObserved, _, _, h⟩ := (abreast_same strategy hMark hLimit).run_same hRun hRun' hSame
  have hMatches := h.matches (closed_of_run hRun) (closed_of_run hRun')
  obtain ⟨f, b, bs, hDoes, hAttended⟩ := (attended_start strategy arena).run hRun
  have hBlocks := hAttended.secure.does_blocks
  rw [hAttended.heap_eq] at hBlocks
  refine ⟨hObserved, h.live_same, fun p hp => h.usableSize_same hp, hMatches,
    h.blocks_same hMatches, hMatches.statistics_eq, hMatches.size_eq, ?_, f, b, hDoes,
    fun p hp => hAttended.does_usableSize hp, hBlocks, fun o ho => hAttended.secure.owned ?_⟩
  · rw [Heap.value_check, Heap.value_check, h.left.sound.verdict_eq_ok,
      h.right.sound.verdict_eq_ok]
  · rwa [hAttended.heap_eq]

theorem noninterference_of_two :
    let qs : List Request := [.allocate 24, .free (some 65600), .allocate 8, .allocate 40]
    let qs' : List Request := [.allocate 24, .write 65608 [1, 2, 3, 4, 5, 6, 7, 8],
      .free (some 65600), .allocate 8, .allocate 40, .write 65600 [9]]
    ∃ s s', (start .explicit Arena.page).Run qs s ∧ (start .explicit Arena.littered).Run qs' s' ∧
      (start .explicit Arena.littered).observed qs' = (start .explicit Arena.page).observed qs ∧
      s.live = [65648, 65600] ∧ s'.live = [65648, 65600] ∧ s'.heap.blocks = s.heap.blocks ∧
      s'.heap.usableSize 65600 = s.heap.usableSize 65600 := by
  intro qs qs'
  let t := (start .explicit Arena.page).step (.allocate 24)
  let s := ((t.step (.free (some 65600))).step (.allocate 8)).step (.allocate 40)
  let t' := (start .explicit Arena.littered).step (.allocate 24)
  let u' := t'.step (.write 65608 [1, 2, 3, 4, 5, 6, 7, 8])
  let v' := ((u'.step (.free (some 65600))).step (.allocate 8)).step (.allocate 40)
  have hFree : t.Lawful (.free (some 65600)) := by decide +kernel
  have hRun : (start .explicit Arena.page).Run qs s :=
    .cons trivial (.cons hFree (.cons trivial (.cons trivial (.nil _))))
  have hWrite : t'.Lawful (.write 65608 [1, 2, 3, 4, 5, 6, 7, 8]) := by decide +kernel
  have hFree' : u'.Lawful (.free (some 65600)) := by decide +kernel
  have hWrite' : v'.Lawful (.write 65600 [9]) := by decide +kernel
  have hRun' : (start .explicit Arena.littered).Run qs' (v'.step (.write 65600 [9])) :=
    .cons trivial (.cons hWrite (.cons hFree' (.cons trivial (.cons trivial
      (.cons hWrite' (.nil _))))))
  have hMark : Arena.littered.mark = Arena.page.mark := rfl
  have hLimit : Arena.littered.limit = Arena.page.limit := rfl
  obtain ⟨hObserved, hLive', hUsable, -, hBlocks, -⟩ :=
    noninterference hMark hLimit hRun hRun' (by decide)
  have hLive : s.live = [65648, 65600] := by decide +kernel
  refine ⟨s, _, hRun, hRun', hObserved, hLive, hLive'.trans hLive, hBlocks, hUsable _ ?_⟩
  simp [hLive]

end Session

end BlockHeap
