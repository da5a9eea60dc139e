import BlockHeap.Proofs.Explicit.Guarded
import BlockHeap.Proofs.Implicit.Guarded
import BlockHeap.Proofs.Session.Verdict

/-!
# The check of a heap in any state

The check is made for heaps whose words may be anything, and does no harm on them: it comes to an
end, reads only words of the region, and computes sums that are words. The one exception is a sum of
the explicit strategy, behind the footer of a block whose declared end is the last multiple of 16
in the address space.
-/

namespace BlockHeap

namespace Session

variable {strategy : Strategy} {arena : Arena} {s : Session} {qs : List Request}

/-- Whatever the words of a heap that was laid out are, its check comes to an end, and reads words
of the region only. One sum overflows, if a footer would be at the last multiple of 16. -/
theorem check_ends (hRun : (start strategy arena).Run qs s) (hReady : s.heap.ready = true)
    (f : Memory → Memory) :
    let h := s.heap.mapMemory f
    (∀ span, h.engine = .implicit span →
      Ends (Implicit.turn h.region) (.start span) (.ok h.verdict)) ∧
    (h.engine = .explicit →
      ((h.verdict ≠ .error .overflow ∧ Ends (Explicit.turn h.region) .start (.ok h.verdict)) ∨
        (h.verdict = .error .overflow ∧
          Ends (Explicit.turn h.region) .start (.error (.sum (wordLimit - 16) 16)))) ∧
      (h.verdict = .error .overflow ↔ ∃ b n p,
        Reaches (Explicit.turn h.region) .start (.block b n p) ∧
          b + 16 + (h.region.tag (b + 8)).size = wordLimit - 16) ∧
      ∀ b n p, Reaches (Explicit.turn h.region) .start (.block b n p) →
        (h.region.tag (b + 8)).size ≠ 0 → (h.region.tag (b + 8)).size % 16 = 0 →
        h.size < b + 16 + (h.region.tag (b + 8)).size + 16 →
        b + 16 + (h.region.tag (b + 8)).size ≠ wordLimit - 16 →
        h.verdict = .error (.outOfBounds b (h.region.tag (b + 8)).size h.size)) := by
  intro h
  obtain ⟨bs, hs, _⟩ := (sound_start strategy arena).run hRun
  have hAnchored : h.region.Anchored := (hs.represents.anchored hReady).mapMemory f
  constructor
  · intro span hEngine
    obtain ⟨cs, hr⟩ := hs.represents_implicit hReady hEngine
    have hFirst : ∀ t ∈ span, 0 < t.first ∧ t.first % 8 = 0 ∧ t.first ≤ h.region.size := by
      intro t ht
      rw [hr.first_eq ht]
      exact ⟨by decide, by decide, hr.tiles.le⟩
    rw [verdict_implicit hReady hEngine]
    exact Implicit.ends_check hAnchored hFirst
  · intro hEngine
    obtain ⟨cs, ns, hr⟩ := hs.represents_explicit hReady hEngine
    have hSize : 48 ≤ h.region.size := Nat.le_trans (Nat.le_add_right 48 _) hr.size_ge
    have hVerdict : h.verdict = Explicit.check h.region := verdict_explicit hReady hEngine f
    rw [hVerdict]
    refine ⟨?_, Explicit.check_eq_overflow_iff hAnchored hSize, ?_⟩
    · have hEnds := Explicit.ends_check hAnchored hSize
      rcases eq_or_ne (Explicit.check h.region) (.error .overflow) with hOverflow | hNe
      · rw [hOverflow] at hEnds ⊢
        exact .inr ⟨rfl, hEnds⟩
      · rw [Explicit.outcome_of_ne hNe] at hEnds
        exact .inl ⟨hNe, hEnds⟩
    · intro b n p hReaches hPos hMod hOver hNe
      have hSized := (Tag.wellSized_iff (h.region.tag (b + 8))).mpr ⟨Nat.pos_of_ne_zero hPos, hMod⟩
      exact Explicit.check_of_overrun hAnchored hSize hReaches hSized hOver hNe

theorem check_ends_of_one :
    let s := (start .explicit Arena.page).step (.allocate 24)
    let t := (start .implicit Arena.page).step (.allocate 24)
    let g := s.heap.mapMemory (·.setWord 65592 (2 ^ 63))
    let h := t.heap.mapMemory (·.setWord 65560 (2 ^ 63))
    (g.region.tag 40).size = 2 ^ 63 ∧ g.size = 96 ∧
      g.verdict = .error (.outOfBounds 32 (g.region.tag 40).size g.size) ∧
      Ends (Implicit.turn h.region) (.start (some ⟨8, 8⟩)) (.ok h.verdict) := by
  intro s t g h
  have hRun : (start .explicit Arena.page).Run [.allocate 24] s := .cons trivial (.nil _)
  have hRun' : (start .implicit Arena.page).Run [.allocate 24] t := .cons trivial (.nil _)
  have hTurn : Explicit.turn g.region .start = .ok (.inl (.block 32 0 none)) := by decide +kernel
  obtain ⟨_, _, hOverrun⟩ :=
    (check_ends hRun (by decide +kernel) (·.setWord 65592 (2 ^ 63))).2 (by decide +kernel)
  have hOut := hOverrun 32 0 none (.single hTurn) (by decide +kernel) (by decide +kernel)
    (by decide +kernel) (by decide +kernel)
  have hEnds := (check_ends hRun' (by decide +kernel) (·.setWord 65560 (2 ^ 63))).1
    (some ⟨8, 8⟩) (by decide +kernel)
  exact ⟨by decide +kernel, by decide +kernel, hOut, hEnds⟩

/-- The header of the first block claims all of the address space up to its last 16 bytes. The
block is not reported as out of bounds, since the sum behind its footer overflows first. -/
theorem overflow_of_last_footer :
    let s := (start .explicit Arena.page).step .layOut
    let h := s.heap.mapMemory (·.setWord 65592 (2 ^ 64 - 64))
    (start .explicit Arena.page).Run [.layOut] s ∧ s.heap.ready = true ∧
      Explicit.turn h.region .start = .ok (.inl (.block 32 0 none)) ∧
      h.region.tag 40 = ⟨2 ^ 64 - 64, false⟩ ∧ h.size = 48 ∧
      Explicit.turn h.region (.block 32 0 none) = .error (.sum (2 ^ 64 - 16) 16) ∧
      h.verdict = .error .overflow := by
  intro s h
  exact ⟨.cons trivial (.nil _), by decide +kernel, by decide +kernel, by decide +kernel,
    by decide +kernel, by decide +kernel, by decide +kernel⟩

end Session

end BlockHeap
