import BlockHeap.Proofs.Session.Abreast

/-!
# Placement

Where an arena starts, and how its mark is aligned, makes no difference to a heap but for where it
is: relative to the first aligned address, all answers and all words of metadata are functions of
the requests and of the bytes that are left. How many these are only matters once there are too few.
-/

namespace BlockHeap

def Arena.elsewhere : Arena :=
  { Arena.page with
    base := 131072
    size := 9
    base_pos := by decide
    base_aligned := by decide
    end_lt := by decide
    size_le := by decide }

namespace Session

variable {strategy : Strategy} {arena arena' : Arena} {a a' b b' : Nat} {s s' t : Session}
  {l l' : Ledger} {qs : List Request}

theorem abreast_start (strategy : Strategy) (hReach : arena.aligned ≤ arena.limit)
    (hReach' : arena'.aligned ≤ arena'.limit)
    (hLe : arena.limit - arena.aligned ≤ arena'.limit - arena'.aligned) :
    Abreast arena.aligned arena'.aligned (arena.limit - arena.aligned)
      (arena'.limit - arena'.aligned) (start strategy arena) (start strategy arena')
      (Ledger.start strategy arena) (Ledger.start strategy arena') where
  left := simulated_start strategy arena
  right := simulated_start strategy arena'
  ledgers :=
    { aligned := ⟨Nat.mul_mod_left _ _, Nat.mul_mod_left _ _⟩
      le := hLe
      strategy_eq := rfl
      limit_eq := ⟨(Nat.add_sub_cancel' hReach).symm, (Nat.add_sub_cancel' hReach').symm⟩
      next_eq := ⟨0, rfl, rfl⟩
      heap_eq := .inl ⟨rfl, rfl⟩ }
  size_eq := rfl
  live_eq := ⟨[], rfl, rfl⟩

theorem Abreast.run (h : Abreast a a' b b' s s' l l') (hRun : s.Run qs t)
    (hEnough : b = b' ∨ s.Supplied qs) : ∃ (rs : List Request) (t' : Session),
      qs = rs.map (Request.shift (a + ·)) ∧ s'.Run (rs.map (Request.shift (a' + ·))) t' ∧
      (∃ answers : List (Option Nat), s.answers qs = answers.map (Option.map (a + ·)) ∧
        s'.answers (rs.map (Request.shift (a' + ·))) = answers.map (Option.map (a' + ·))) ∧
      ∃ m m', Abreast a a' b b' t t' m m' := by
  induction hRun generalizing s' l l' with
  | nil s => exact ⟨[], s', rfl, .nil s', ⟨[], rfl, rfl⟩, l, l', h⟩
  | cons hLawful _ ih =>
    obtain ⟨r, rfl⟩ := h.exists_shift hLawful
    obtain ⟨answer, hHere, hThere, m, m', hNext⟩ :=
      h.step hLawful (hEnough.imp_right And.left)
    obtain ⟨rs, t', rfl, hRun', ⟨answers, hAnswers, hAnswers'⟩, hEnd⟩ :=
      ih hNext (hEnough.imp_right And.right)
    refine ⟨r :: rs, t', rfl, .cons (h.lawful hLawful) hRun', ⟨answer :: answers, ?_, ?_⟩, hEnd⟩
    · rw [Session.answers, hHere, hAnswers]
      rfl
    · rw [List.map_cons, Session.answers, hThere, hAnswers']
      rfl

/-- A run on one arena can be made on another one, at the same distances from the first aligned
address, if the room is the same, or the first arena is never exhausted. -/
theorem placement_relative (hRun : (start strategy arena).Run qs s)
    (hReach : arena.aligned ≤ arena.limit) (hReach' : arena'.aligned ≤ arena'.limit)
    (hLe : arena.limit - arena.aligned ≤ arena'.limit - arena'.aligned)
    (hEnough : arena.limit - arena.aligned = arena'.limit - arena'.aligned ∨
      (start strategy arena).Supplied qs) :
    ∃ (rs : List Request) (s' : Session), qs = rs.map (Request.shift (arena.aligned + ·)) ∧
      (start strategy arena').Run (rs.map (Request.shift (arena'.aligned + ·))) s' ∧
      (∃ answers : List (Option Nat),
        (start strategy arena).answers qs = answers.map (Option.map (arena.aligned + ·)) ∧
        (start strategy arena').answers (rs.map (Request.shift (arena'.aligned + ·))) =
          answers.map (Option.map (arena'.aligned + ·))) ∧
      (∃ os : List Nat, s.live = os.map (arena.aligned + ·) ∧
        s'.live = os.map (arena'.aligned + ·) ∧
        ∀ o ∈ os, s'.heap.usableSize (arena'.aligned + o) =
          s.heap.usableSize (arena.aligned + o)) ∧
      (s.heap.ready = true → ∃ k, s.heap.region.anchor = arena.aligned + k ∧
        s'.heap.region.anchor = arena'.aligned + k) ∧
      s.heap.Matches s'.heap ∧ s'.heap.statistics = s.heap.statistics ∧
      s'.heap.check.value = s.heap.check.value := by
  obtain ⟨rs, s', rfl, hRun', hAnswers, _, _, h⟩ :=
    (abreast_start strategy hReach hReach' hLe).run hRun hEnough
  have hMatches := h.matches (closed_of_run hRun) (closed_of_run hRun')
  obtain ⟨os, hLive, hLive'⟩ := id h.live_eq
  refine ⟨rs, s', rfl, hRun', hAnswers, ⟨os, hLive, hLive', fun o ho => h.usableSize_eq ?_⟩,
    h.anchor_eq, hMatches, hMatches.statistics_eq, ?_⟩
  · rw [hLive]
    exact List.mem_map_of_mem ho
  · rw [Heap.value_check, Heap.value_check, h.left.sound.verdict_eq_ok,
      h.right.sound.verdict_eq_ok]

theorem placement_relative_of_two :
    let qs : List Request := [.allocate 24, .allocate 40, .free (some 65600), .layOut,
      .allocate 8000, .allocate 8]
    ∃ s, (start .explicit Arena.page).Run qs s ∧ s.live = [65760] ∧
      ∃ (rs : List Request) (s' : Session), qs = rs.map (Request.shift (65552 + ·)) ∧
        (start .explicit Arena.elsewhere).Run (rs.map (Request.shift (131088 + ·))) s' ∧
        s'.live = [131296] ∧ s.heap.Matches s'.heap := by
  intro qs
  let t := ((start .explicit Arena.page).step (.allocate 24)).step (.allocate 40)
  let s := (((t.step (.free (some 65600))).step .layOut).step (.allocate 8000)).step (.allocate 8)
  have hStart : (start .explicit Arena.page).Run [.allocate 24, .allocate 40] t :=
    .cons trivial (.cons trivial (.nil _))
  have hFree : t.Lawful (.free (some 65600)) := by
    show 65600 ∈ t.live
    rw [hStart.live_eq, (describes_of_run hStart).1]
    decide
  have hRun : (start .explicit Arena.page).Run qs s := .cons trivial (.cons trivial
    (.cons hFree (.cons trivial (.cons trivial (.cons trivial (.nil _))))))
  have hLive : s.live = [65760] := by
    rw [hRun.live_eq, (describes_of_run hRun).1]
    decide
  have hAligned : Arena.page.aligned = 65552 := by decide
  have hAligned' : Arena.elsewhere.aligned = 131088 := by decide
  have hReach : Arena.elsewhere.aligned ≤ Arena.elsewhere.limit := by decide
  obtain ⟨rs, s', hRequests, hRun', -, ⟨os, hHere, hThere, -⟩, -, hMatches, -⟩ :=
    placement_relative hRun (by decide) hReach (by decide) (.inl (by decide))
  rw [hAligned] at hRequests hHere
  rw [hAligned'] at hRun' hThere
  have hOffsets : os.map (65552 + ·) = [208].map (65552 + ·) := hHere.symm.trans hLive
  have hOffset : os = [208] :=
    List.map_injective_iff.mpr (fun _ _ => Nat.add_left_cancel) hOffsets
  rw [hOffset] at hThere
  exact ⟨s, hRun, hLive, rs, s', hRequests, hRun', hThere, hMatches⟩

end Session

end BlockHeap
