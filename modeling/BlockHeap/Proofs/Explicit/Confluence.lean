import BlockHeap.Proofs.Chunk.Runs
import BlockHeap.Proofs.Explicit.Release

/-!
# Releases in any order

A release merges its chunk with the neighbours that are free by then, so which chunks swallow which
depends on the order of releases. The chunks that are left do not: marking all of them free and then
merging each run once is a normal form, and one release after another stays in it.
-/

namespace BlockHeap

namespace Chunk

variable {gap : Nat} {P Q : Nat → Bool} {c : Chunk} {xs ys zs cs : List Chunk}

/-- The chunk, marked free if the offset at which it starts is one of these. -/
def release (P : Nat → Bool) (c : Chunk) : Chunk := ⟨c.offset, c.size, c.allocated && !P c.offset⟩

theorem release_of_free (P : Nat → Bool) (hFlag : c.allocated = false) : c.release P = c := by
  refine Chunk.ext rfl (Tag.ext rfl ?_)
  simp [release, hFlag]

theorem release_of_not (hNot : P c.offset = false) : c.release P = c := by
  refine Chunk.ext rfl (Tag.ext rfl ?_)
  simp [release, hNot]

theorem release_release (P Q : Nat → Bool) (c : Chunk) :
    (c.release P).release Q = c.release fun o => P o || Q o := by
  refine Chunk.ext rfl (Tag.ext rfl ?_)
  change (c.allocated && !P c.offset && !Q c.offset) = (c.allocated && !(P c.offset || Q c.offset))
  rw [Bool.not_or, Bool.and_assoc]

theorem map_release_of_not (h : ∀ c ∈ cs, P c.offset = false) : cs.map (release P) = cs := by
  conv_rhs => rw [← List.map_id cs]
  exact List.map_congr_left fun c hc => release_of_not (h c hc)

theorem map_release_eq {a b : Nat} (hTiles : Tiles gap a (xs ++ c :: ys) b) :
    (xs ++ c :: ys).map (release (· == c.offset)) = xs ++ ⟨c.offset, c.size, false⟩ :: ys := by
  have hOther : ∀ d ∈ xs ++ ys, (d.offset == c.offset) = false := fun d hd =>
    beq_eq_false_iff_ne.mpr (hTiles.offset_ne hd)
  obtain ⟨hLeft, hRight⟩ := List.forall_mem_append.mp hOther
  have hOwn : c.release (· == c.offset) = ⟨c.offset, c.size, false⟩ := by
    refine Chunk.ext rfl (Tag.ext rfl ?_)
    simp [release]
  rw [List.map_append, List.map_cons, map_release_of_not hLeft, map_release_of_not hRight, hOwn]

theorem mergeRuns_cons_congr (h : mergeRuns gap ys = mergeRuns gap zs) :
    mergeRuns gap (c :: ys) = mergeRuns gap (c :: zs) := by
  rw [mergeRuns_cons, h, ← mergeRuns_cons]

theorem mergeRuns_append_congr (xs : List Chunk) (h : mergeRuns gap ys = mergeRuns gap zs) :
    mergeRuns gap (xs ++ ys) = mergeRuns gap (xs ++ zs) := by
  induction xs with
  | nil => exact h
  | cons x xs ih => exact mergeRuns_cons_congr ih

/-- Chunks that have been merged before more of them are released merge to the same as if they had
not been. -/
theorem mergeRuns_map_release (gap : Nat) (P : Nat → Bool) (cs : List Chunk) :
    mergeRuns gap ((mergeRuns gap cs).map (release P)) = mergeRuns gap (cs.map (release P)) := by
  induction cs with
  | nil => rfl
  | cons c cs ih =>
    rw [List.map_cons]
    cases hMerged : mergeRuns gap cs with
    | nil =>
      rw [hMerged] at ih
      rw [mergeRuns_cons, hMerged]
      exact mergeRuns_cons_congr ih
    | cons d ds =>
      rw [hMerged] at ih
      rw [mergeRuns_cons, hMerged]
      cases hJoin : c.allocated || d.allocated with
      | true =>
        simp only [hJoin, if_true, List.map_cons]
        exact mergeRuns_cons_congr ih
      | false =>
        obtain ⟨hc, hd⟩ := Bool.or_eq_false_iff.mp hJoin
        rw [List.map_cons, release_of_free P hd] at ih
        simp only [hJoin, Bool.false_eq_true, if_false, List.map_cons]
        rw [release_of_free P rfl, release_of_free P hc, ← mergeRuns_cons_joined hc hd]
        exact mergeRuns_cons_congr ih

end Chunk

namespace Explicit

variable {r : Region} {c : Chunk} {cs ds xs ys : List Chunk} {ns ms : List Nat}

/-- Coalescing is merging runs: before it, no two free chunks but `c` and its neighbours are next to
each other. -/
theorem Coalesced.eq_mergeRuns (h : Coalesced xs c ys ns ds ms) (hFlag : c.allocated = false)
    (hxs : Chunk.Separated xs) (hys : Chunk.Separated ys) :
    ds = Chunk.mergeRuns overhead (xs ++ c :: ys) := by
  rw [← Chunk.mergeRuns_of_separated overhead (h.separated hxs hys)]
  cases h with
  | alone _ _ => rfl
  | before hp _ =>
    rw [← List.append_cons]
    exact Chunk.mergeRuns_append_congr _ (Chunk.mergeRuns_cons_joined hp hFlag).symm
  | after _ hd => exact Chunk.mergeRuns_append_congr _ (Chunk.mergeRuns_cons_joined hFlag hd).symm
  | @both _ _ p c d _ hp hd =>
    rw [← List.append_cons]
    apply Chunk.mergeRuns_append_congr
    have hSize : p.size + c.size + d.size + 2 * overhead =
        p.size + overhead + c.size + overhead + d.size := by omega
    rw [Chunk.mergeRuns_cons_joined hp hFlag, Chunk.mergeRuns_cons_joined rfl hd, hSize]

/-- A release leaves the runs that there are once its chunk is free, each merged. -/
theorem Represents.free_merged (h : Represents r cs ns) (hc : c ∈ cs) (hFlag : c.allocated = true) :
    let s := (Explicit.free r (payload c.offset)).value
    ∃ ms, Represents s (Chunk.mergeRuns overhead (cs.map (Chunk.release (· == c.offset)))) ms ∧
      s.anchor = r.anchor ∧ s.size = r.size := by
  intro s
  obtain ⟨xs, ys, rfl⟩ := List.append_of_mem hc
  obtain ⟨ds, ms, hCoalesced, hs, hEvolves, hMark⟩ := h.free hFlag
  obtain ⟨hLeft, hRight, _⟩ := List.isChain_append.mp h.separated
  have hMerged := hCoalesced.eq_mergeRuns rfl hLeft (List.isChain_cons.mp hRight).2
  rw [Chunk.map_release_eq h.holds.tiles, ← hMerged]
  have hAnchor : s.anchor = r.anchor := hEvolves.anchor_eq
  exact ⟨ms, hs, hAnchor, (h.holds.anchored.size_eq_iff hs.holds.anchored hAnchor).mpr hMark⟩

end Explicit

end BlockHeap
