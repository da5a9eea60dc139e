import BlockHeap.Proofs.Session.Soundness

/-!
# What a client may rely on

After every run, live payloads are apart from each other and from all metadata, and a byte of a live
payload changes only if its client writes to it. Both are read off the soundness of the run; the
second goes through the outcome of each request, and then along the run by induction.
-/

namespace BlockHeap

namespace Session

variable {strategy : Strategy} {arena : Arena} {s t : Session} {q : Request} {qs rs : List Request}
  {bs : List Block} {p x : Nat}

theorem Sound.bounds (hs : s.Sound bs) (hp : p ∈ s.live) :
    s.heap.region.Anchored ∧ s.heap.region.anchor + 16 ≤ p ∧ p % 16 = 0 ∧ 8 ≤ s.heap.usableSize p ∧
      p + s.heap.usableSize p ≤ s.heap.region.anchor + s.heap.size := by
  obtain ⟨b, hb, rfl⟩ := hs.exists_of_mem hp
  have hMem := List.mem_of_mem_filter hb
  have hAnchored := hs.represents.anchored (hs.represents.ready_of_mem hMem)
  have hBounds := hs.represents.bounds hMem
  have hAligned := hAnchored.aligned
  have hUsable : s.heap.usableSize (pointerOf s.heap b) = b.size := hs.represents.usableSize_eq hMem
  rw [hUsable]
  unfold pointerOf Region.address
  refine ⟨hAnchored, ?_, ?_, ?_, ?_⟩
  all_goals omega

theorem Sound.pairwise (hs : s.Sound bs) :
    s.live.Pairwise fun p q => p + s.heap.usableSize p ≤ q ∨ q + s.heap.usableSize q ≤ p := by
  refine (hs.live_perm.pairwise_iff fun hApart => hApart.symm).mpr (List.pairwise_map.mpr ?_)
  refine (hs.represents.disjoint (List.Perm.refl _)).imp_of_mem fun {b c} hb hc hApart => ?_
  have hUsable : s.heap.usableSize (pointerOf s.heap b) = b.size :=
    hs.represents.usableSize_eq (List.mem_of_mem_filter hb)
  have hUsable' : s.heap.usableSize (pointerOf s.heap c) = c.size :=
    hs.represents.usableSize_eq (List.mem_of_mem_filter hc)
  rw [hUsable, hUsable']
  unfold pointerOf Region.address
  omega

theorem Sound.metadata_apart (hs : s.Sound bs) (hp : p ∈ s.live) {o : Nat}
    (ho : o ∈ s.heap.metadata) :
    ∀ y, s.heap.region.WordAt o y → ¬ (p ≤ y ∧ y < p + s.heap.usableSize p) := by
  obtain ⟨b, hb, rfl⟩ := hs.exists_of_mem hp
  have hUsable : s.heap.usableSize (pointerOf s.heap b) = b.size :=
    hs.represents.usableSize_eq (List.mem_of_mem_filter hb)
  rw [hUsable]
  exact fun y hy hIn => hs.represents.metadata_not_foreign ho y hy (.inr (.inr ⟨b, hb, hIn⟩))

/-- After every run, live payloads do not overlap; each is at an aligned address, inside the region
of the heap, and meets no word that the heap keeps for itself. -/
theorem live_payloads_apart (hRun : (start strategy arena).Run qs s) :
    (s.live.Pairwise fun p q => p + s.heap.usableSize p ≤ q ∨ q + s.heap.usableSize q ≤ p) ∧
    ∀ p ∈ s.live, p ≠ 0 ∧ p % 16 = 0 ∧ 0 < s.heap.usableSize p ∧
      s.heap.region.anchor ≤ p ∧ p + s.heap.usableSize p ≤ s.heap.region.anchor + s.heap.size ∧
      s.heap.region.anchor + s.heap.size = s.heap.arena.mark ∧
      ∀ o ∈ s.heap.metadata, ∀ x, s.heap.region.WordAt o x →
        ¬ (p ≤ x ∧ x < p + s.heap.usableSize p) := by
  obtain ⟨bs, hs, _⟩ := (sound_start strategy arena).run hRun
  refine ⟨hs.pairwise, fun p hp => ?_⟩
  obtain ⟨hAnchored, hLow, hAligned, hPos, hHigh⟩ := hs.bounds hp
  exact ⟨by omega, hAligned, by omega, by omega, hHigh, hAnchored.mark_eq.symm,
    fun _ ho => hs.metadata_apart hp ho⟩

theorem live_payloads_apart_of_two :
    let s := ((start .explicit Arena.page).step (.allocate 24)).step (.allocate 40)
    s.live = [65648, 65600] ∧
    (s.live.Pairwise fun p q => p + s.heap.usableSize p ≤ q ∨ q + s.heap.usableSize q ≤ p) ∧
    ∀ p ∈ s.live, p ≠ 0 ∧ p % 16 = 0 ∧ 0 < s.heap.usableSize p ∧
      s.heap.region.anchor ≤ p ∧ p + s.heap.usableSize p ≤ s.heap.region.anchor + s.heap.size ∧
      s.heap.region.anchor + s.heap.size = s.heap.arena.mark ∧
      ∀ o ∈ s.heap.metadata, ∀ x, s.heap.region.WordAt o x →
        ¬ (p ≤ x ∧ x < p + s.heap.usableSize p) := by
  intro s
  have hRun : (start .explicit Arena.page).Run [.allocate 24, .allocate 40] s :=
    .cons trivial (.cons trivial (.nil _))
  exact ⟨by decide +kernel, live_payloads_apart hRun⟩

/-- The pointer `p` lives on through these requests, and none of them writes to the address `x`. -/
def Spares (p x : Nat) : Session → List Request → Prop
  | _, [] => True
  | s, q :: qs => q.ends (s.answer q) p = false ∧ q.writes x = false ∧ Spares p x (s.step q) qs

/-- A request that does not end the life of a pointer leaves its payload where and as it is. -/
theorem Sound.step_kept (hs : s.Sound bs) (hLawful : s.Lawful q) (hp : p ∈ s.live)
    (hEnds : q.ends (s.answer q) p = false) :
    p ∈ (s.step q).live ∧ (s.step q).heap.usableSize p = s.heap.usableSize p ∧
      ∀ x, p ≤ x → x < p + s.heap.usableSize p → q.writes x = false →
        (s.step q).heap.memory.byte x = s.heap.memory.byte x := by
  have hNot : q ≠ .layOut := by
    rintro rfl
    cases hEnds
  obtain ⟨ds, cs, hOutcome⟩ := hs.outcome_of_lawful hLawful hNot
  have hLeft : p ∈ s.live.filter fun p => !q.ends (s.answer q) p :=
    List.mem_filter.mpr ⟨hp, by simp [hEnds]⟩
  obtain ⟨b, hb, rfl⟩ := List.mem_map.mp (hOutcome.left_perm.mem_iff.mp hLeft)
  have hOld : s.heap.usableSize (pointerOf s.heap b) = b.size :=
    hs.represents.usableSize_eq (List.mem_of_mem_filter (hOutcome.left_old b hb))
  have hPointer : pointerOf (s.step q).heap b = pointerOf s.heap b := by
    rw [pointerOf, pointerOf, Region.address, Region.address, hOutcome.anchor_eq b hb]
  have hNew : (s.step q).heap.usableSize (pointerOf (s.step q).heap b) = b.size :=
    hOutcome.sound.represents.usableSize_eq (List.mem_of_mem_filter (hOutcome.left_new b hb))
  refine ⟨List.mem_append_right _ hLeft, ?_, fun x hLow hHigh hWrites => ?_⟩
  · rw [← hPointer, hNew, hPointer, hOld]
  · rw [hOld] at hHigh
    exact hOutcome.byte_eq b hb x ⟨hLow, hHigh⟩ hWrites

theorem Sound.run_kept (hs : s.Sound bs) (hRun : s.Run rs t) (hp : p ∈ s.live) (hLow : p ≤ x)
    (hHigh : x < p + s.heap.usableSize p) (hSpares : Spares p x s rs) :
    t.heap.memory.byte x = s.heap.memory.byte x := by
  -- By induction on the run: at each step the pointer is live with the same usable size, so the
  -- byte is still its own.
  induction hRun generalizing bs with
  | nil s => rfl
  | @cons s t q qs hLawful _ ih =>
    obtain ⟨hEnds, hWrites, hRest⟩ := hSpares
    obtain ⟨cs, hStep, _⟩ := hs.step hLawful
    obtain ⟨hLive, hUsable, hBytes⟩ := hs.step_kept hLawful hp hEnds
    rw [← hBytes x hLow hHigh hWrites]
    exact ih hStep hLive (hUsable.symm ▸ hHigh) hRest

/-- Whatever is asked of a heap that a run has reached, a live payload that is not given up stays
where it is, with its usable size and its bytes, save those that the client writes. -/
theorem live_bytes_kept (hRun : (start strategy arena).Run qs s) (hp : p ∈ s.live) :
    (∀ q, s.Lawful q → q.ends (s.answer q) p = false →
      p ∈ (s.step q).live ∧ (s.step q).heap.usableSize p = s.heap.usableSize p ∧
      ∀ x, p ≤ x → x < p + s.heap.usableSize p → q.writes x = false →
        (s.step q).heap.memory.byte x = s.heap.memory.byte x) ∧
    ∀ a bytes, p ≤ a → a + bytes.length ≤ p + s.heap.usableSize p →
      ∀ i, (hi : i < bytes.length) → ∀ rs t,
        (s.step (.write a bytes)).Run rs t → Spares p (a + i) (s.step (.write a bytes)) rs →
          t.heap.memory.byte (a + i) = bytes[i] := by
  obtain ⟨bs, hs, _⟩ := (sound_start strategy arena).run hRun
  refine ⟨fun q hLawful hEnds => hs.step_kept hLawful hp hEnds, ?_⟩
  intro a bytes hLow hHigh i hi rs t hRest hSpares
  have hLawful : s.Lawful (.write a bytes) := ⟨p, hp, hLow, hHigh⟩
  have hWritten := hs.write hLawful
  obtain ⟨hLive, hUsable, _⟩ := hs.step_kept hLawful hp rfl
  rw [hWritten.sound.run_kept hRest hLive (by omega) (by omega) hSpares]
  show (s.heap.memory.write a bytes).byte (a + i) = bytes[i]
  rw [Memory.byte_write, if_pos (Nat.le_add_right a i), Nat.add_sub_cancel_left,
    List.getElem?_eq_getElem hi, Option.getD_some]

theorem live_bytes_kept_of_two :
    let s := ((start .explicit Arena.page).step (.allocate 24)).step (.allocate 40)
    let t := ((s.step (.write 65600 [1, 2, 3])).step (.free (some 65648))).step (.allocate 100)
    65600 ∈ s.live ∧ t.heap.memory.byte 65602 = 3 ∧
      ∀ x, 65600 ≤ x → x < 65632 →
        (s.step (.free (some 65648))).heap.memory.byte x = s.heap.memory.byte x := by
  intro s t
  have hRun : (start .explicit Arena.page).Run [.allocate 24, .allocate 40] s :=
    .cons trivial (.cons trivial (.nil _))
  have hp : 65600 ∈ s.live := by decide +kernel
  have hUsable : s.heap.usableSize 65600 = 32 := by decide +kernel
  have hLawful : s.Lawful (.free (some 65648)) := by decide +kernel
  have hLawful' : (s.step (.write 65600 [1, 2, 3])).Lawful (.free (some 65648)) := by decide +kernel
  have hRest : (s.step (.write 65600 [1, 2, 3])).Run [.free (some 65648), .allocate 100] t :=
    .cons hLawful' (.cons trivial (.nil _))
  obtain ⟨hStep, hRead⟩ := live_bytes_kept hRun hp
  refine ⟨hp, ?_, fun x hLow hHigh => ?_⟩
  · exact hRead 65600 [1, 2, 3] le_rfl (by rw [hUsable]; decide) 2 (by decide) _ t hRest
      ⟨rfl, rfl, rfl, rfl, trivial⟩
  · exact (hStep _ hLawful rfl).2.2 x hLow (by rwa [hUsable]) rfl

end Session

end BlockHeap
