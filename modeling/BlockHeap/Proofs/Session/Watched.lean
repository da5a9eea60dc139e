import BlockHeap.Proofs.Session.Refinement
import BlockHeap.Proofs.Watched.Heap

/-!
# Sessions under watch

The requests of a run, served under watch, give the same answers and leave the same heap, and no
computation lapses: all reads and writes are of words in the region, no word is read that the heap
has not written itself since it last belonged to a client, sums are words, differences are not
negative, what is asserted holds, and no loop takes more rounds than there are blocks.
-/

namespace BlockHeap

namespace Front

open Watched

def serve (f : Front) : Request → Watched (Option Nat × Front)
  | .layOut => do return (none, ← f.layOut)
  | .allocate n => f.allocate n
  | .zeroAllocate count n => f.zeroAllocate count n
  | .free pointer => do
    f.free pointer
    return (none, f)
  | .reallocate pointer n => f.reallocate pointer n
  | .write address bytes => do
    write address bytes
    return (none, f)

def serveAll (f : Front) : List Request → Watched (List (Option Nat) × Front)
  | [] => return ([], f)
  | q :: qs => do
    let (answer, f) ← f.serve q
    let (answers, f) ← f.serveAll qs
    return (answer :: answers, f)

end Front

namespace Session

open Watched

/-- The relation between a session and its heap under watch. -/
structure Attended (s : Session) (f : Front) (b : Bench) (bs : List Block) : Prop where
  heap_eq : f.heap b = s.heap
  sound : s.Sound bs
  secure : f.Secure b bs

variable {strategy : Strategy} {arena : Arena} {s t : Session} {q : Request} {qs : List Request}
  {f : Front} {b : Bench} {bs : List Block} {p : Nat}

theorem attended_start (strategy : Strategy) (arena : Arena) :
    (start strategy arena).Attended (.new strategy) (.new arena) [] :=
  ⟨rfl, sound_start strategy arena, .bare⟩

theorem Attended.does_write (h : s.Attended f b bs) {a : Nat} {bytes : List UInt8}
    (hLawful : s.Lawful (.write a bytes)) : ∃ c, Does (Front.write a bytes) b ⟨⟩ c ∧
      f.heap c = s.heap.mapMemory (·.write a bytes) ∧ f.Secure c bs := by
  obtain ⟨heap, live⟩ := s
  obtain ⟨rfl, hs, hSecure⟩ := h
  have hAgree := hs.agree_write hLawful
  obtain ⟨p, hp, hStart, hEnd⟩ := hLawful
  obtain ⟨d, hd, rfl⟩ := hs.exists_of_mem hp
  have hUsable : (f.heap b).usableSize (pointerOf (f.heap b) d) = d.size :=
    hs.represents.usableSize_eq (List.mem_of_mem_filter hd)
  refine ⟨_, rfl, rfl, hSecure.of_client
    (Region.keeps_mapMemory (r := b.region) (f := (·.write a bytes)) hAgree) fun x hx hOwn =>
    Bench.own_yield hOwn fun hIn => hx ⟨d, hd, ?_⟩⟩
  rw [hUsable] at hEnd
  unfold pointerOf Region.address at hStart hEnd
  unfold Block.At
  rw [Front.region_heap] at hStart hEnd
  omega

/-- A lawful request is served without a lapse. -/
theorem Attended.does_serve (h : s.Attended f b bs) (hLawful : s.Lawful q) : ∃ g c cs,
    Does (f.serve q) b (s.answer q, g) c ∧ g.heap c = (s.step q).heap ∧ g.Secure c cs := by
  have hWritten := @h.does_write
  obtain ⟨heap, live⟩ := s
  obtain ⟨rfl, hs, hSecure⟩ := h
  cases q with
  | layOut =>
    obtain ⟨g, c, hDoes, hHeap, hSecure⟩ := f.does_layOut b
    exact ⟨g, c, [], hDoes.bind (does_pure _ c), hHeap, hSecure⟩
  | allocate n => exact hSecure.does_allocate n
  | zeroAllocate count n => exact hSecure.does_zeroAllocate count n
  | free pointer =>
    cases pointer with
    | none => exact ⟨f, b, bs, does_pure _ b, rfl, hSecure⟩
    | some p =>
      obtain ⟨d, hd, rfl⟩ := hs.exists_of_mem hLawful
      obtain ⟨c, cs, hDoes, hHeap, hSecure⟩ := hSecure.does_free hd
      exact ⟨f, c, cs, hDoes.bind (does_pure _ c), hHeap, hSecure⟩
  | reallocate pointer n =>
    cases pointer with
    | none => exact hSecure.does_allocate n
    | some p =>
      obtain ⟨d, hd, rfl⟩ := hs.exists_of_mem hLawful
      exact hSecure.does_reallocate hd n
  | write a bytes =>
    obtain ⟨c, hDoes, hHeap, hSecure⟩ := hWritten hLawful
    exact ⟨f, c, bs, hDoes.bind (does_pure _ c), hHeap, hSecure⟩

theorem Attended.step (h : s.Attended f b bs) (hLawful : s.Lawful q) : ∃ g c cs,
    Does (f.serve q) b (s.answer q, g) c ∧ (s.step q).Attended g c cs := by
  obtain ⟨g, c, cs, hDoes, hHeap, hSecure⟩ := h.does_serve hLawful
  obtain ⟨ds, hs, _⟩ := h.sound.step hLawful
  obtain rfl : cs = ds := hSecure.eq_of_represents (hHeap ▸ hs.represents)
  exact ⟨g, c, cs, hDoes, hHeap, hs, hSecure⟩

theorem Attended.run (h : s.Attended f b bs) (hRun : s.Run qs t) : ∃ g c cs,
    Does (f.serveAll qs) b (s.answers qs, g) c ∧ t.Attended g c cs := by
  induction hRun generalizing f b bs with
  | nil s => exact ⟨f, b, bs, does_pure _ b, h⟩
  | cons hLawful _ ih =>
    obtain ⟨f₁, b₁, bs₁, hServe, hNext⟩ := h.step hLawful
    obtain ⟨g, c, cs, hServeAll, hEnd⟩ := ih hNext
    exact ⟨g, c, cs, hServe.bind (hServeAll.bind (does_pure _ c)), hEnd⟩

theorem Attended.does_usableSize (h : s.Attended f b bs) (hp : p ∈ s.live) :
    Does (f.usableSize p) b (s.heap.usableSize p) b := by
  obtain ⟨heap, live⟩ := s
  obtain ⟨rfl, hs, hSecure⟩ := h
  obtain ⟨d, hd, rfl⟩ := hs.exists_of_mem hp
  exact hSecure.does_usableSize (List.mem_of_mem_filter hd)

theorem closed_of_run (hRun : (start strategy arena).Run qs s) (hReady : s.heap.ready = true)
    (hStrategy : s.heap.strategy = .explicit) : Explicit.freeList.Closed s.heap.region := by
  obtain ⟨f, b, bs, -, h⟩ := (attended_start strategy arena).run hRun
  obtain ⟨heap, live⟩ := s
  obtain ⟨rfl, -, hSecure⟩ := h
  exact hSecure.closed hReady hStrategy

/-- No lawful run on any arena lapses, nor do the queries of usable sizes and the walk over the
blocks after it. -/
theorem does_serveAll (hRun : (start strategy arena).Run qs s) : ∃ f b,
    Does (Front.serveAll (.new strategy) qs) (.new arena)
      ((start strategy arena).answers qs, f) b ∧ f.heap b = s.heap ∧
    (∀ p ∈ s.live, Does (f.usableSize p) b (s.heap.usableSize p) b) ∧
    Does f.blocks b s.heap.blocks b := by
  obtain ⟨f, b, bs, hDoes, h⟩ := (attended_start strategy arena).run hRun
  have hBlocks := h.secure.does_blocks
  rw [h.heap_eq] at hBlocks
  exact ⟨f, b, hDoes, h.heap_eq, fun p hp => h.does_usableSize hp, hBlocks⟩

theorem does_serveAll_of_two :
    let qs : List Request :=
      [.allocate 24, .allocate 40, .free (some 65600), .reallocate (some 65648) 100]
    ∃ s f b, (start .explicit Arena.page).Run qs s ∧
      Does (Front.serveAll (.new .explicit) qs) (.new Arena.page)
        ([some 65600, some 65648, none, some 65712], f) b ∧
      Does (f.usableSize 65712) b 112 b ∧
      Does f.blocks b [⟨65600, 96, false⟩, ⟨65712, 112, true⟩] b := by
  intro qs
  let t := ((start .explicit Arena.page).step (.allocate 24)).step (.allocate 40)
  let u := t.step (.free (some 65600))
  let s := u.step (.reallocate (some 65648) 100)
  have hStart : (start .explicit Arena.page).Run [.allocate 24, .allocate 40] t :=
    .cons trivial (.cons trivial (.nil _))
  have hLive : t.live = [65648, 65600] := by
    rw [hStart.live_eq, (describes_of_run hStart).1]
    decide
  have hFree : t.Lawful (.free (some 65600)) := by simp [Lawful, hLive]
  have hMove : u.Lawful (.reallocate (some 65648) 100) := by simp [Lawful, u, hLive]
  have hRun : (start .explicit Arena.page).Run qs s :=
    .cons trivial (.cons trivial (.cons hFree (.cons hMove (.nil _))))
  have hAnswers : (start .explicit Arena.page).answers qs =
      [some 65600, some 65648, none, some 65712] := (describes_of_run hRun).1.trans (by decide)
  have hMoved : 65712 ∈ s.live := by
    rw [hRun.live_eq, hAnswers]
    decide
  have hShown : s.heap.usableSize 65712 = 112 ∧
      s.heap.blocks = [⟨65600, 96, false⟩, ⟨65712, 112, true⟩] := by decide +kernel
  obtain ⟨f, b, hServe, -, hUsable, hBlocks⟩ := does_serveAll hRun
  have hSize := hUsable 65712 hMoved
  rw [hAnswers] at hServe
  rw [hShown.1] at hSize
  rw [hShown.2] at hBlocks
  exact ⟨s, f, b, hRun, hServe, hSize, hBlocks⟩

end Session

end BlockHeap
