import BlockHeap.Proofs.Process.Basic
import BlockHeap.Proofs.Session.Placement
import BlockHeap.Proofs.Session.Isolation

/-!
# Calls to heaps in two places

Two new heaps over reservations of the same size serve the same calls, whatever their places are,
and reply at the same distances. One of them may have been laid out already, since the other one
does so as soon as it matters. Idle calls may come and go.
-/

namespace BlockHeap

def Client.session (s : Client Heap) : Session := ⟨s.state, s.live⟩

namespace Heap

variable {h : Heap} {c : Call} {q : Request} {s t : Client Heap} {cs : List Call}
  {es : List Exchange} {bs : List Block}

theorem lawful_ask : service.Lawful s (.ask q) ↔ s.session.Lawful q := by
  cases q with
  | free pointer => cases pointer <;> rfl
  | reallocate pointer n => cases pointer <;> rfl
  | _ => rfl

theorem session_step_ask (s : Client Heap) (q : Request) :
    (service.step s (.ask q)).session = s.session.step q := by
  cases q <;> rfl

theorem reply_ask (hNot : q ≠ .layOut) :
    service.reply s (.ask q) = q.replied (s.session.answer q) := by
  cases q with
  | layOut => exact (hNot rfl).elim
  | _ => rfl

theorem step_eq_self (hState : (s.state.serve c).2 = s.state)
    (hGranted : (s.state.serve c).1.granted = none) (hEnds : ∀ p, c.ends none p = false) :
    service.step s c = s := by
  have hLive : (service.step s c).live = s.live := by
    show (s.state.serve c).1.granted.toList ++
      s.live.filter (fun p => !c.ends (s.state.serve c).1.granted p) = s.live
    rw [hGranted]
    exact List.filter_eq_self.mpr fun p _ => by rw [hEnds p, Bool.not_false]
  exact congrArg₂ Client.mk hState hLive

@[simp] theorem step_usableSize (s : Client Heap) (pointer : Option Nat) :
    service.step s (.usableSize pointer) = s :=
  step_eq_self rfl rfl fun _ => rfl

@[simp] theorem step_checkHeap (s : Client Heap) (verbose : Bool) :
    service.step s (.checkHeap verbose) = s :=
  step_eq_self rfl rfl fun _ => rfl

theorem step_of_isIdle (hIdle : c.isIdle = true) (s : Client Heap) : service.step s c = s := by
  obtain rfl | rfl | ⟨verbose, rfl⟩ := Call.cases_of_isIdle hIdle
  · exact step_eq_self rfl rfl fun _ => rfl
  · exact step_usableSize s none
  · exact step_checkHeap s verbose

theorem lawful_of_isIdle (hIdle : c.isIdle = true) (s : Client Heap) : service.Lawful s c := by
  obtain rfl | rfl | ⟨verbose, rfl⟩ := Call.cases_of_isIdle hIdle
  · trivial
  · trivial
  · trivial

theorem run_of_idle_removed (hRun : service.Run s es t) :
    service.Run s (es.filter fun e => !e.call.isIdle) t := by
  induction hRun with
  | nil s => exact .nil s
  | @cons s t c es hLawful _ ih =>
    cases hIdle : c.isIdle with
    | true =>
      rw [List.filter_cons_of_neg (by simp [hIdle])]
      rwa [step_of_isIdle hIdle] at ih
    | false =>
      rw [List.filter_cons_of_pos (by simp [hIdle])]
      exact .cons hLawful ih

theorem run_of_idle_inserted (hRun : service.Run s es t)
    (hSame : (cs.filter fun c => !c.isIdle) = es.map Exchange.call) : ∃ fs : List Exchange,
      fs.map Exchange.call = cs ∧ service.Run s fs t ∧
      (fs.filter fun e => !e.call.isIdle) = es := by
  -- On the calls that are to be made and not on the run, which takes no step for an idle one.
  induction cs generalizing s es with
  | nil =>
    obtain rfl := List.map_eq_nil_iff.mp hSame.symm
    exact ⟨[], rfl, hRun, rfl⟩
  | cons c cs ih =>
    cases hIdle : c.isIdle with
    | true =>
      rw [List.filter_cons_of_neg (by simp [hIdle])] at hSame
      obtain ⟨fs, hCalls, hRest, hActive⟩ := ih hRun hSame
      refine ⟨⟨c, service.reply s c⟩ :: fs, congrArg (c :: ·) hCalls,
        .cons (lawful_of_isIdle hIdle s) ?_, ?_⟩
      · rwa [step_of_isIdle hIdle]
      · rwa [List.filter_cons_of_neg (by simp [hIdle])]
    | false =>
      rw [List.filter_cons_of_pos (by simp [hIdle])] at hSame
      cases hRun with
      | nil => cases hSame
      | cons hLawful hNext =>
        obtain ⟨rfl, hTail⟩ := List.cons.inj hSame
        obtain ⟨fs, hCalls, hRest, hActive⟩ := ih hNext hTail
        refine ⟨⟨c, service.reply s c⟩ :: fs, congrArg (c :: ·) hCalls, .cons hLawful hRest, ?_⟩
        rw [List.filter_cons_of_pos (by simp [hIdle]), hActive]

/-- Runs with the same calls, but for idle ones, reply the same to them. -/
theorem run_of_same_active (hRun : service.Run s es t)
    (hSame : (cs.filter fun c => !c.isIdle) = (es.map Exchange.call).filter fun c => !c.isIdle) :
    ∃ fs : List Exchange, fs.map Exchange.call = cs ∧ service.Run s fs t ∧
      (fs.filter fun e => !e.call.isIdle) = es.filter fun e => !e.call.isIdle := by
  rw [List.filter_map] at hSame
  exact run_of_idle_inserted (run_of_idle_removed hRun) hSame

/-- The client of a heap that has been laid out, beside that of one that will be. There were no
pointers whose lives this could end. -/
inductive Laid : Client Heap → Client Heap → Prop where
  | same (s : Client Heap) : Laid s s
  | done {h : Heap} : h.ready = false → h.layOut.value.2.ready = true →
      Laid ⟨h.layOut.value.2, []⟩ ⟨h, []⟩

/-- Both serve a call alike, and unless it needs a layout, it changes neither of the heaps. -/
theorem serve_of_bare (hReady : h.ready = false) (hDone : h.layOut.value.2.ready = true)
    (hNot : c ≠ .ask .layOut) {usable : Nat → Nat} (hLawful : c.Lawful [] usable) :
    h.layOut.value.2.serve c = h.serve c ∨ (h.layOut.value.2.serve c).1 = (h.serve c).1 ∧
      (h.serve c).1.granted = none ∧ (h.layOut.value.2.serve c).2 = h.layOut.value.2 ∧
      (h.serve c).2 = h := by
  have hAllocate : ∀ n, (h.layOut.value.2.allocate n).value = (h.allocate n).value := by
    intro n
    rcases allocate_of_bare hReady n with ⟨hRefused, -⟩ | ⟨-, hSame⟩
    · exact Bool.noConfusion (hRefused.symm.trans hDone)
    · exact hSame.symm
  cases c with
  | ask q =>
    cases q with
    | layOut => exact (hNot rfl).elim
    | allocate n => exact .inl (congrArg (Prod.map Reply.pointer id) (hAllocate n))
    | zeroAllocate count n =>
      rcases Nat.lt_or_ge (count * n) wordLimit with hLt | hLimit
      · have hSame := (value_zeroAllocate hLt (hAllocate (count * n))).trans
          (value_zeroAllocate hLt rfl).symm
        exact .inl (congrArg (Prod.map Reply.pointer id) hSame)
      · simp only [serve, value_zeroAllocate_of_le hLimit]
        exact .inr ⟨rfl, rfl, rfl, rfl⟩
    | free pointer =>
      cases pointer with
      | none => exact .inr ⟨rfl, rfl, rfl, rfl⟩
      | some p => cases hLawful
    | reallocate pointer n =>
      cases pointer with
      | none => exact .inl (congrArg (Prod.map Reply.pointer id) (hAllocate n))
      | some p => cases hLawful
    | write address bytes =>
      obtain ⟨p, hp, -⟩ := hLawful
      cases hp
  | usableSize pointer =>
    cases pointer with
    | none => exact .inr ⟨rfl, rfl, rfl, rfl⟩
    | some p => cases hLawful
  | checkHeap verbose =>
    have hVerdict : h.verdict = .ok () := by rw [verdict, hReady]; rfl
    have hVerdict' : h.layOut.value.2.verdict = .ok () :=
      (Session.Sound.layOut ⟨h, []⟩).verdict_eq_ok
    simp only [serve, value_check, hVerdict, hVerdict']
    exact .inr ⟨trivial, rfl, trivial, trivial⟩

theorem Laid.call (hLaid : Laid s t) (hNot : c ≠ .ask .layOut) :
    (service.Lawful s c ↔ service.Lawful t c) ∧ (service.Lawful t c →
      service.reply s c = service.reply t c ∧ Laid (service.step s c) (service.step t c)) := by
  cases hLaid with
  | same => exact ⟨Iff.rfl, fun _ => ⟨rfl, .same _⟩⟩
  | @done h hReady hDone =>
    refine ⟨⟨Call.Lawful.of_nil, Call.Lawful.of_nil⟩, fun hLawful => ?_⟩
    rw [Service.step_of_nil, Service.step_of_nil]
    unfold Service.reply service
    rcases serve_of_bare hReady hDone hNot hLawful with hSame | ⟨hReply, hNone, hHere, hThere⟩
    · simp only [hSame]
      exact ⟨trivial, .same _⟩
    · simp only [hReply, hNone, hHere, hThere]
      exact ⟨trivial, .done hReady hDone⟩

theorem simulates_laid : service.Simulates service Laid := by
  intro s t c hLaid hNot hLawful
  obtain ⟨hIff, hStep⟩ := hLaid.call hNot
  obtain ⟨hReply, hNext⟩ := hStep (hIff.mp hLawful)
  exact ⟨hIff.mp hLawful, hReply.symm, hNext⟩

theorem simulates_bare : service.Simulates service fun s t => Laid t s := by
  intro s t c hLaid hNot hLawful
  obtain ⟨hIff, hStep⟩ := hLaid.call hNot
  exact ⟨hIff.mpr hLawful, hStep hLawful⟩

end Heap

namespace Session

variable {s s' : Client Heap} {l l' : Ledger} {a a' b : Nat} {c d : Call} {bs : List Block}
  {es : List Exchange} {t : Client Heap}

theorem Sound.reply_checkHeap (hs : s.session.Sound bs) (verbose : Bool) :
    Heap.service.reply s (.checkHeap verbose) = .status 0 := by
  have hCheck : s.state.check.value = .ok () := s.state.value_check.trans hs.verdict_eq_ok
  show Reply.status (if s.state.check.value.isOk then 0 else -1) = .status 0
  rw [hCheck]
  rfl

theorem Sound.call (hs : s.session.Sound bs) (hLawful : Heap.service.Lawful s c) :
    ∃ cs, (Heap.service.step s c).session.Sound cs := by
  cases c with
  | ask q =>
    obtain ⟨cs, hStep, -⟩ := hs.step (Heap.lawful_ask.mp hLawful)
    exact ⟨cs, Heap.session_step_ask s q ▸ hStep⟩
  | usableSize pointer =>
    rw [Heap.step_usableSize]
    exact ⟨bs, hs⟩
  | checkHeap verbose =>
    rw [Heap.step_checkHeap]
    exact ⟨bs, hs⟩

theorem Abreast.exists_call (h : Abreast a a' b b s.session s'.session l l')
    (hLawful : Heap.service.Lawful s c) : ∃ d, c = Call.shift (a + ·) d := by
  cases c with
  | ask q =>
    obtain ⟨r, rfl⟩ := h.exists_shift (Heap.lawful_ask.mp hLawful)
    exact ⟨.ask r, rfl⟩
  | usableSize pointer =>
    cases pointer with
    | none => exact ⟨.usableSize none, rfl⟩
    | some p =>
      obtain ⟨os, hLive, -⟩ := h.live_eq
      have hMem : p ∈ s.session.live := hLawful
      obtain ⟨o, -, rfl⟩ := List.mem_map.mp (hLive ▸ hMem)
      exact ⟨.usableSize (some o), rfl⟩
  | checkHeap verbose => exact ⟨.checkHeap verbose, rfl⟩

theorem Abreast.call (h : Abreast a a' b b s.session s'.session l l') (hNot : d ≠ .ask .layOut)
    (hLawful : Heap.service.Lawful s (d.shift (a + ·))) :
    Heap.service.Lawful s' (d.shift (a' + ·)) ∧ ∃ r : Reply Nat,
      Heap.service.reply s (d.shift (a + ·)) = r.map (a + ·) ∧
      Heap.service.reply s' (d.shift (a' + ·)) = r.map (a' + ·) ∧
      ∃ m m', Abreast a a' b b (Heap.service.step s (d.shift (a + ·))).session
        (Heap.service.step s' (d.shift (a' + ·))).session m m' := by
  cases d with
  | ask q =>
    have hAsk := Heap.lawful_ask.mp hLawful
    obtain ⟨answer, hHere, hThere, m, m', hNext⟩ := h.step hAsk (.inl rfl)
    have hOther : ∀ f : Nat → Nat, q.shift f ≠ .layOut := by
      cases q with
      | layOut => exact (hNot rfl).elim
      | _ => exact fun _ => Request.noConfusion
    refine ⟨Heap.lawful_ask.mpr (h.lawful hAsk), q.replied answer, ?_, ?_, m, m', ?_⟩
    · exact (Heap.reply_ask (hOther _)).trans (hHere ▸ Request.replied_shift _ _ answer q)
    · exact (Heap.reply_ask (hOther _)).trans (hThere ▸ Request.replied_shift _ _ answer q)
    · simp only [Call.shift, Heap.session_step_ask]
      exact hNext
  | usableSize pointer =>
    simp only [Call.shift, Heap.step_usableSize]
    cases pointer with
    | none => exact ⟨trivial, .size 0, rfl, rfl, l, l', h⟩
    | some o =>
      have hUsable := h.usableSize_eq hLawful
      exact ⟨h.mem_live_iff.mpr hLawful, .size (s.state.usableSize (a + o)), rfl,
        congrArg Reply.size hUsable, l, l', h⟩
  | checkHeap verbose =>
    simp only [Call.shift, Heap.step_checkHeap]
    exact ⟨trivial, .status 0, h.left.sound.reply_checkHeap verbose,
      h.right.sound.reply_checkHeap verbose, l, l', h⟩

theorem Abreast.calls (h : Abreast a a' b b s.session s'.session l l')
    (hRun : Heap.service.Run s es t) (hSince : ∀ e ∈ es, e.call ≠ .ask .layOut) :
    ∃ (xs : List Exchange) (t' : Client Heap), es = xs.map (Exchange.shift a) ∧
      Heap.service.Run s' (xs.map (Exchange.shift a')) t' := by
  induction hRun generalizing s' l l' with
  | nil s => exact ⟨[], s', rfl, .nil s'⟩
  | @cons s t c es hLawful _ ih =>
    obtain ⟨hHead, hTail⟩ := List.forall_mem_cons.mp hSince
    obtain ⟨d, rfl⟩ := h.exists_call hLawful
    have hNot : d ≠ .ask .layOut := by
      rintro rfl
      exact hHead rfl
    obtain ⟨hLawful', r, hHere, hThere, m, m', hNext⟩ := h.call hNot hLawful
    obtain ⟨xs, t', rfl, hRest⟩ := ih hNext hTail
    refine ⟨⟨d, r⟩ :: xs, t', ?_, ?_⟩
    · rw [hHere]
      rfl
    · exact .cons_of_reply hLawful' hThere hRest

end Session

namespace Arena.Fresh

variable {arena arena' : Arena} {strategy : Strategy} {es : List Exchange} {t : Client Heap}

theorem aligned_eq (hFresh : arena.Fresh) : arena.aligned = arena.base := by
  have hAligned := arena.base_aligned
  rw [Arena.aligned, Arena.mark, hFresh.size_eq]
  omega

theorem limit_eq (hFresh : arena.Fresh) :
    arena.limit = arena.base + Allocator.defaultCapacity := by
  rw [Arena.limit, hFresh.capacity_eq]

theorem layOut_eq_ok (hFresh : arena.Fresh) (strategy : Strategy) :
    (Heap.new arena strategy).layOut.value.1 = .ok () := by
  have hl := Ledger.describes_start strategy arena
  have hLaidOut := Ledger.describes_layOut hl.strategy_eq hl.mark_eq hl.limit_eq
  have hNext : (Ledger.start strategy arena).next = arena.base := hFresh.aligned_eq
  have hLimit : (Ledger.start strategy arena).limit = arena.base + Allocator.defaultCapacity :=
    hFresh.limit_eq
  have hBooks : (Books.empty strategy).size ≤ Allocator.defaultCapacity := by
    cases strategy <;> decide
  have hRoom : (Ledger.start strategy arena).next + (Books.empty strategy).size ≤
      (Ledger.start strategy arena).limit := by omega
  rw [Heap.layOut_ok_iff, ← hLaidOut.isSome_eq, Ledger.layOut_of_le hRoom]
  rfl

theorem room_eq (hFresh : arena.Fresh) :
    arena.limit - arena.aligned = Allocator.defaultCapacity := by
  rw [hFresh.limit_eq, hFresh.aligned_eq, Nat.add_sub_cancel_left]

theorem abreast (hFresh : arena.Fresh) (hFresh' : arena'.Fresh) (strategy : Strategy) :
    Session.Abreast arena.base arena'.base Allocator.defaultCapacity Allocator.defaultCapacity
      (Client.session { state := Heap.new arena strategy })
      (Client.session { state := Heap.new arena' strategy })
      (Ledger.start strategy arena) (Ledger.start strategy arena') := by
  have hReach : arena.aligned ≤ arena.limit := by
    rw [hFresh.aligned_eq, hFresh.limit_eq]
    exact Nat.le_add_right _ _
  have hReach' : arena'.aligned ≤ arena'.limit := by
    rw [hFresh'.aligned_eq, hFresh'.limit_eq]
    exact Nat.le_add_right _ _
  have hAbreast := Session.abreast_start strategy hReach hReach'
    (hFresh.room_eq.trans hFresh'.room_eq.symm).le
  rwa [hFresh.room_eq, hFresh'.room_eq, hFresh.aligned_eq, hFresh'.aligned_eq] at hAbreast

/-- What a new heap serves in one place, any other one serves in its place. -/
theorem run_elsewhere (hFresh : arena.Fresh)
    (hRun : Heap.service.Run { state := Heap.new arena strategy } es t)
    (hSince : ∀ e ∈ es, e.call ≠ .ask .layOut) : ∃ xs : List Exchange,
      es = xs.map (Exchange.shift arena.base) ∧ ∀ arena' : Arena, arena'.Fresh → ∃ t',
        Heap.service.Run { state := Heap.new arena' strategy }
          (xs.map (Exchange.shift arena'.base)) t' := by
  have hCalls : ∀ arena' : Arena, arena'.Fresh → ∃ (xs : List Exchange) (t' : Client Heap),
      es = xs.map (Exchange.shift arena.base) ∧ Heap.service.Run
        { state := Heap.new arena' strategy } (xs.map (Exchange.shift arena'.base)) t' :=
    fun arena' hFresh' => (hFresh.abreast hFresh' strategy).calls hRun hSince
  obtain ⟨xs, -, hShift, -⟩ := hCalls arena hFresh
  refine ⟨xs, hShift, fun arena' hFresh' => ?_⟩
  obtain ⟨ys, t', hShift', hRun'⟩ := hCalls arena' hFresh'
  have hSame := (Exchange.shift_injective arena.base).list_map (hShift'.symm.trans hShift)
  exact ⟨t', hSame ▸ hRun'⟩

theorem run_elsewhere_of_active (hFresh : arena.Fresh) {xs : List Exchange} {cs : List Call}
    (hRun : Heap.service.Run { state := Heap.new arena strategy }
      (xs.map (Exchange.shift arena.base)) t)
    (hSince : ∀ x ∈ xs, x.call ≠ .ask .layOut)
    (hSame : (cs.filter fun c => !c.isIdle) = (xs.map Exchange.call).filter fun c => !c.isIdle) :
    ∃ ys : List Exchange, ys.map Exchange.call = cs ∧
      (ys.filter fun y => !y.call.isIdle) = (xs.filter fun x => !x.call.isIdle) ∧
      ∀ arena' : Arena, arena'.Fresh → ∃ t', Heap.service.Run
        { state := Heap.new arena' strategy } (ys.map (Exchange.shift arena'.base)) t' := by
  have hAdd : Function.Injective (arena.base + ·) := fun _ _ => Nat.add_left_cancel
  have hSame' : ((cs.map (Call.shift (arena.base + ·))).filter fun c => !c.isIdle) =
      ((xs.map (Exchange.shift arena.base)).map Exchange.call).filter fun c => !c.isIdle := by
    rw [Exchange.map_call_shift, Call.filter_map_shift, Call.filter_map_shift, hSame]
  obtain ⟨fs, hCalls, hRun', hActive⟩ := Heap.run_of_same_active hRun hSame'
  have hSince' := Exchange.since_of_active (Exchange.since_shift_iff.mpr hSince) hActive
  obtain ⟨ys, rfl, hElsewhere⟩ := hFresh.run_elsewhere hRun' hSince'
  rw [Exchange.map_call_shift] at hCalls
  rw [Exchange.filter_map_shift, Exchange.filter_map_shift] at hActive
  exact ⟨ys, (Call.shift_injective hAdd).list_map hCalls,
    (Exchange.shift_injective arena.base).list_map hActive, hElsewhere⟩

end Arena.Fresh

end BlockHeap
