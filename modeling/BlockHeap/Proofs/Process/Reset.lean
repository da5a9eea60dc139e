import BlockHeap.Proofs.Process.Refinement

/-!
# Resets of the process-wide heap

A reset leaves nothing of what was before. What is served from then on is what a new heap over a
fresh reservation serves, wherever this lies, and the same as if the process had just started.
-/

namespace BlockHeap

namespace ProcessHeap

/-- The process has this strategy, and all reservations that are still to come are granted. -/
structure Ready (strategy : Strategy) (p : ProcessHeap) : Prop where
  strategy_eq : p.strategy = strategy
  granted : Granted p.places

variable {strategy : Strategy} {places : Nat → Option Nat} {p : ProcessHeap} {c : Call}
  {m n : Client ProcessHeap} {s : Client Heap} {before es : List Exchange} {bs : List Block}
  {k : Int}

theorem Ready.renew (h : Ready strategy p) : Ready strategy p.renew :=
  ⟨h.strategy_eq, fun i => h.granted (i + 1)⟩

theorem Ready.ensure (h : Ready strategy p) : Ready strategy p.ensure := by
  unfold ProcessHeap.ensure
  split
  · exact h
  · exact h.renew

theorem Ready.withHeap (h : Ready strategy p)
    (operation : Heap → Journaled (Option Nat × Heap)) :
    Ready strategy (p.withHeap operation).value.2 := by
  unfold ProcessHeap.withHeap
  simp only
  split
  · exact h.ensure
  · exact ⟨h.ensure.strategy_eq, h.ensure.granted⟩

theorem Ready.serve (h : Ready strategy p) (c : Call) : Ready strategy (p.serve c).2 := by
  cases c with
  | ask q =>
    cases q with
    | layOut =>
      simp only [ProcessHeap.serve, reset]
      split
      · exact h.renew
      · exact ⟨h.renew.strategy_eq, h.renew.granted⟩
    | allocate n => exact h.withHeap (·.allocate n)
    | zeroAllocate count n => exact h.withHeap (·.zeroAllocate count n)
    | reallocate pointer n => exact h.withHeap (·.reallocate pointer n)
    | free pointer =>
      cases pointer with
      | none => exact h
      | some p =>
        simp only [ProcessHeap.serve, free]
        split
        · exact h.ensure
        · exact ⟨h.ensure.strategy_eq, h.ensure.granted⟩
    | write address bytes => exact ⟨h.strategy_eq, h.granted⟩
  | usableSize pointer =>
    simp only [ProcessHeap.serve, usableSize]
    split
    · exact h.ensure
    · exact h.ensure
  | checkHeap verbose => exact h

theorem Ready.exists_fresh (h : Ready strategy p) :
    ∃ arena : Arena, arena.Fresh ∧ p.renew.heap = some (Heap.new arena strategy) := by
  obtain ⟨base, hBase, hPos, hAligned, hEnd⟩ := h.granted 0
  let arena : Arena :=
    { base, capacity := Allocator.defaultCapacity, base_pos := hPos, base_aligned := hAligned,
      end_lt := hEnd }
  refine ⟨arena, ⟨rfl, rfl⟩, ?_⟩
  have hPlace : Arena.place? base Allocator.defaultCapacity = some arena :=
    dif_pos ⟨hPos, hAligned, hEnd⟩
  rw [ProcessHeap.renew, hBase, h.strategy_eq, Option.bind_some, Allocator.place?, hPlace]
  rfl

theorem Ready.mirrors_of_none (h : Ready strategy p) (hNone : p.heap = none) :
    ∃ arena : Arena, arena.Fresh ∧
      Mirrors { state := p } { state := Heap.new arena strategy } := by
  obtain ⟨arena, hFresh, hHeap⟩ := h.exists_fresh
  have hEnsured := (congrArg heap (ensure_of_none hNone)).trans hHeap
  exact ⟨arena, hFresh, hEnsured, rfl, fun _ => ⟨rfl, rfl⟩⟩

/-- A reset succeeds, and leaves a heap that has just been laid out. -/
theorem Ready.reset (h : Ready strategy m.state) : service.reply m (.ask .layOut) = .status 0 ∧
    ∃ arena : Arena, arena.Fresh ∧ Mirrors (service.step m (.ask .layOut))
      ⟨(Heap.new arena strategy).layOut.value.2, []⟩ := by
  obtain ⟨arena, hFresh, hHeap⟩ := h.exists_fresh
  have hValue : m.state.reset.value =
      (0, { m.state.renew with heap := some (Heap.new arena strategy).layOut.value.2 }) := by
    simp only [ProcessHeap.reset, hHeap, Journaled.value_bind, hFresh.layOut_eq_ok]
    rfl
  have hState : (service.step m (.ask .layOut)).state =
      { m.state.renew with heap := some (Heap.new arena strategy).layOut.value.2 } :=
    congrArg Prod.snd hValue
  refine ⟨congrArg (fun e : Int × ProcessHeap => Reply.status e.1) hValue, arena, hFresh, ?_, ?_,
    fun hNone => ?_⟩
  · rw [hState]
    rfl
  · exact List.filter_eq_nil_iff.mpr fun _ _ => by simp [Call.ends, Request.ends]
  · rw [hState] at hNone
    cases hNone

/-- The invariant of all runs: what is mirrored is a sound session. -/
structure Kept (strategy : Strategy) (m : Client ProcessHeap) : Prop where
  ready : Ready strategy m.state
  mirrors : ∃ s bs, Mirrors m s ∧ s.session.Sound bs

theorem status_of_sound (hs : s.session.Sound bs) (hNot : c ≠ .ask .layOut)
    (hReply : Heap.service.reply s c = .status k) : k = 0 := by
  cases c with
  | ask q =>
    cases q with
    | layOut => exact (hNot rfl).elim
    | _ => cases hReply
  | usableSize pointer => cases hReply
  | checkHeap verbose => exact Reply.status.inj (hReply.symm.trans (hs.reply_checkHeap verbose))

theorem Kept.step (h : Kept strategy m) (hLawful : service.Lawful m c) :
    (∀ k, service.reply m c = .status k → k = 0) ∧ Kept strategy (service.step m c) := by
  obtain ⟨hReady, s, bs, hMirrors, hs⟩ := h
  by_cases hNot : c = .ask .layOut
  · subst hNot
    obtain ⟨hReply, arena, -, hNext⟩ := hReady.reset
    refine ⟨fun k hStatus => Reply.status.inj (hStatus.symm.trans hReply),
      hReady.serve _, _, [], hNext, ?_⟩
    exact Session.Sound.layOut (Session.start strategy arena)
  · have hLawful' := hMirrors.lawful_iff.mp hLawful
    obtain ⟨hReply, hNext⟩ := hMirrors.call hNot hLawful'
    obtain ⟨cs, hSound⟩ := hs.call hLawful'
    exact ⟨fun k hStatus => status_of_sound hs hNot (hReply.trans hStatus), hReady.serve _, _, cs,
      hNext, hSound⟩

theorem Kept.run (h : Kept strategy m) (hRun : service.Run m es n) :
    (∀ e ∈ es, ∀ k, e.reply = .status k → k = 0) ∧ Kept strategy n := by
  induction hRun with
  | nil m => exact ⟨fun _ he => (List.not_mem_nil he).elim, h⟩
  | cons hLawful _ ih =>
    obtain ⟨hHead, hNext⟩ := h.step hLawful
    obtain ⟨hTail, hEnd⟩ := ih hNext
    exact ⟨List.forall_mem_cons.mpr ⟨hHead, hTail⟩, hEnd⟩

theorem kept_start (hPlaces : Granted places) :
    Kept strategy { state := { strategy, places } } := by
  have hReady : Ready strategy { strategy, places } := ⟨rfl, hPlaces⟩
  obtain ⟨arena, -, hMirrors⟩ := hReady.mirrors_of_none rfl
  exact ⟨hReady, _, [], hMirrors, Session.sound_start strategy arena⟩

/-- The process is at its start, or its last call was a reset. Nothing else is known of the calls
before, but that they were lawful, and that all reservations are granted. -/
structure Renewed (strategy : Strategy) (before : List Exchange) (m : Client ProcessHeap) :
    Prop where
  run : ∃ places, Granted places ∧ service.Run { state := { strategy, places } } before m
  reset : ∀ e ∈ before.getLast?, e.call = .ask .layOut

theorem Renewed.exists_fresh (h : Renewed strategy es m) : ∃ (arena : Arena) (s : Client Heap),
    arena.Fresh ∧ m.state.base? = some arena.base ∧ Mirrors m s ∧
      Heap.Laid s { state := Heap.new arena strategy } := by
  obtain ⟨⟨places, hPlaces, hRun⟩, hReset⟩ := h
  rcases List.eq_nil_or_concat' es with rfl | ⟨before, ⟨c, r⟩, rfl⟩
  · cases hRun
    have hReady : Ready strategy { strategy, places } := ⟨rfl, hPlaces⟩
    obtain ⟨arena, hFresh, hMirrors⟩ := hReady.mirrors_of_none rfl
    exact ⟨arena, _, hFresh, congrArg (Option.map _) hMirrors.heap_eq, hMirrors, .same _⟩
  · obtain ⟨t, hBefore, hLast⟩ := hRun.split
    have hReady := ((kept_start hPlaces).run hBefore).2.ready
    obtain rfl : c = .ask .layOut := hReset ⟨c, r⟩ (by simp)
    cases hLast with
    | cons _ hEnd =>
      cases hEnd
      obtain ⟨-, arena, hFresh, hMirrors⟩ := hReady.reset
      have hDone := (Heap.layOut_ok_iff _).mp (hFresh.layOut_eq_ok strategy)
      refine ⟨arena, _, hFresh, ?_, hMirrors, .done rfl hDone⟩
      rw [base?, hMirrors.heap_eq, Option.map_some, Heap.base_layOut hDone]
      rfl

theorem Renewed.statuses (h : Renewed strategy before m) (hRun : service.Run m es n) :
    ∀ e ∈ before ++ es, ∀ k, e.reply = .status k → k = 0 := by
  obtain ⟨⟨places, hPlaces, hBefore⟩, -⟩ := h
  obtain ⟨hStatus, hKept⟩ := (kept_start hPlaces).run hBefore
  exact List.forall_mem_append.mpr ⟨hStatus, (hKept.run hRun).1⟩

/-- A reset starts the heap anew: whatever is asked since the last one is answered as by a new heap
over any fresh arena, at the same distances from its base. All resets and checks succeed. -/
theorem replies_since_reset (hRenewed : Renewed strategy before m) (hRun : service.Run m es n)
    (hSince : ∀ e ∈ es, e.call ≠ .ask .layOut) :
    (∀ e ∈ before ++ es, ∀ k, e.reply = .status k → k = 0) ∧
    ∃ (base : Nat) (xs : List Exchange), m.state.base? = some base ∧
      es = xs.map (Exchange.shift base) ∧
      (∀ arena : Arena, arena.Fresh → ∃ t, Heap.service.Run { state := Heap.new arena strategy }
        (xs.map (Exchange.shift arena.base)) t) ∧
      (∀ base', relative ((xs.map (Exchange.shift base')).map Exchange.reply) =
        relative (es.map Exchange.reply)) ∧
      ∀ before' m' cs, Renewed strategy before' m' →
        (cs.filter fun c => !c.isIdle) = (xs.map Exchange.call).filter (fun c => !c.isIdle) →
        ∃ (base' : Nat) (ys : List Exchange), m'.state.base? = some base' ∧
          ys.map Exchange.call = cs ∧
          (ys.filter fun y => !y.call.isIdle) = (xs.filter fun x => !x.call.isIdle) ∧
          ∃ n', service.Run m' (ys.map (Exchange.shift base')) n' := by
  -- The process is followed by its heap, that heap by a new one that has yet to be laid out, and
  -- only this last one is moved to other arenas; for another process the way is taken back.
  obtain ⟨arena, s, hFresh, hBase, hMirrors, hLaid⟩ := hRenewed.exists_fresh
  obtain ⟨u, hMirrored, -⟩ := hRun.simulate simulates_heap hSince hMirrors
  obtain ⟨v, hNew, -⟩ := hMirrored.simulate Heap.simulates_laid hSince hLaid
  obtain ⟨xs, rfl, hElsewhere⟩ := hFresh.run_elsewhere hNew hSince
  refine ⟨hRenewed.statuses hRun, arena.base, xs, hBase, rfl, hElsewhere, fun base' => ?_,
    fun before' m' cs hRenewed' hSame => ?_⟩
  · rw [Exchange.map_reply_shift, relative_shift, Exchange.map_reply_shift, relative_shift]
  · have hSinceOffsets := Exchange.since_shift_iff.mp hSince
    obtain ⟨ys, hCalls, hActive, hAnywhere⟩ :=
      hFresh.run_elsewhere_of_active hNew hSinceOffsets hSame
    have hSince' (base' : Nat) : ∀ e ∈ ys.map (Exchange.shift base'), e.call ≠ .ask .layOut :=
      Exchange.since_shift_iff.mpr (Exchange.since_of_active hSinceOffsets hActive)
    obtain ⟨arena', s', hFresh', hBase', hMirrors', hLaid'⟩ := hRenewed'.exists_fresh
    obtain ⟨t', hThere⟩ := hAnywhere arena' hFresh'
    obtain ⟨u', hMirrored', -⟩ := hThere.simulate Heap.simulates_bare (hSince' _) hLaid'
    obtain ⟨n', hServed, -⟩ := hMirrored'.simulate heap_simulates (hSince' _) hMirrors'
    exact ⟨arena'.base, ys, hBase', hCalls, hActive, n', hServed⟩

theorem replies_since_reset_of_lazy :
    let start (base : Nat) : Client ProcessHeap :=
      { state := { strategy := .explicit, places := fun _ => some base } }
    let reset := service.step (service.step (start 131072) (.ask (.allocate 100))) (.ask .layOut)
    (∃ n, service.Run (start 65536) [⟨.ask (.allocate 24), .pointer (some 65584)⟩,
      ⟨.checkHeap true, .status 0⟩, ⟨.ask (.free (some 65584)), .nothing⟩,
      ⟨.ask (.allocate 8), .pointer (some 65584)⟩] n) ∧
    ∃ n, service.Run reset [⟨.ask (.allocate 24), .pointer (some 131120)⟩,
      ⟨.ask (.free (some 131120)), .nothing⟩, ⟨.ask (.allocate 8), .pointer (some 131120)⟩] n := by
  intro start reset
  let xs : List Exchange := [⟨.ask (.allocate 24), .pointer (some 48)⟩,
    ⟨.checkHeap true, .status 0⟩, ⟨.ask (.free (some 48)), .nothing⟩,
    ⟨.ask (.allocate 8), .pointer (some 48)⟩]
  let cs : List Call := [.ask (.allocate 24), .ask (.free (some 48)), .ask (.allocate 8)]
  have hGranted : Granted fun _ => some 65536 := fun _ => ⟨65536, rfl, by decide⟩
  have hGranted' : Granted fun _ => some 131072 := fun _ => ⟨131072, rfl, by decide⟩
  have hRenewed : Renewed .explicit [] (start 65536) := ⟨⟨_, hGranted, .nil _⟩, by simp⟩
  have hRenewed' : Renewed .explicit [⟨.ask (.allocate 100), _⟩, ⟨.ask .layOut, _⟩] reset :=
    ⟨⟨_, hGranted', .cons trivial (.cons trivial (.nil _))⟩, by simp⟩
  let m := service.step (service.step (start 65536) (.ask (.allocate 24))) (.checkHeap true)
  have hFree : service.Lawful m (.ask (.free (some 65584))) := by
    show 65584 ∈ m.live
    decide +kernel
  have hRun : service.Run (start 65536) [⟨.ask (.allocate 24), .pointer (some 65584)⟩,
      ⟨.checkHeap true, .status 0⟩, ⟨.ask (.free (some 65584)), .nothing⟩,
      ⟨.ask (.allocate 8), .pointer (some 65584)⟩] _ :=
    .cons_of_reply trivial (by decide +kernel) (.cons_of_reply trivial (by decide +kernel)
      (.cons_of_reply hFree rfl (.cons_of_reply trivial (by decide +kernel) (.nil _))))
  obtain ⟨-, base, ys, hBase, hShift, -, -, hOther⟩ :=
    replies_since_reset hRenewed hRun (by decide)
  obtain rfl : 65536 = base := Option.some.inj (.trans (by decide +kernel) hBase)
  have hShift' : xs.map (Exchange.shift 65536) = ys.map (Exchange.shift 65536) := hShift
  obtain rfl := (Exchange.shift_injective 65536).list_map hShift'
  obtain ⟨base', zs, hBase', hCalls, hActive, n, hRun'⟩ := hOther _ reset cs hRenewed' (by decide)
  obtain rfl : 131072 = base' := Option.some.inj (.trans (by decide +kernel) hBase')
  have hNotIdle : ∀ c ∈ cs, (!c.isIdle) = true := by decide
  have hAll : (zs.filter fun z => !z.call.isIdle) = zs := List.filter_eq_self.mpr fun z hz =>
    hNotIdle z.call (hCalls ▸ List.mem_map_of_mem hz)
  obtain rfl : zs = [⟨.ask (.allocate 24), .pointer (some 48)⟩, ⟨.ask (.free (some 48)), .nothing⟩,
    ⟨.ask (.allocate 8), .pointer (some 48)⟩] := hAll.symm.trans (hActive.trans (by decide))
  exact ⟨⟨_, hRun⟩, n, hRun'⟩

end ProcessHeap

end BlockHeap
