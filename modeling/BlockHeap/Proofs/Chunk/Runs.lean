import BlockHeap.Proofs.Chunk.Merging
import Mathlib.Data.List.SplitBy

/-!
# Runs

A list is cut into its maximal runs of free neighbours; whatever is allocated is a run of its own.
Merging chunks without overhead amounts to adding up the sizes of each run.
-/

namespace BlockHeap

def runs {α : Type} (allocated : α → Bool) (xs : List α) : List (List α) :=
  xs.splitBy fun x y => !allocated x && !allocated y

def Tag.fuse (ts : List Tag) : Tag := ⟨(ts.map Tag.size).sum, ts.any Tag.allocated⟩

section Runs

variable {α β : Type} {allocated : α → Bool} {x y : α} {xs run : List α} {rest : List (List α)}

theorem runs_singleton (allocated : α → Bool) (x : α) : runs allocated [x] = [[x]] :=
  List.splitBy_of_isChain (List.cons_ne_nil x []) (List.isChain_singleton x)

theorem flatten_runs (allocated : α → Bool) (xs : List α) : (runs allocated xs).flatten = xs :=
  List.flatten_splitBy _ xs

theorem mem_of_mem_runs (h : run ∈ runs allocated xs) (hx : x ∈ run) : x ∈ xs := by
  rw [← flatten_runs allocated xs]
  exact List.mem_flatten.mpr ⟨run, h, hx⟩

theorem ne_nil_of_mem_runs (h : run ∈ runs allocated xs) : run ≠ [] :=
  List.ne_nil_of_mem_splitBy h

theorem exists_runs_cons (allocated : α → Bool) (x : α) (xs : List α) :
    ∃ ys rest, runs allocated (x :: xs) = (x :: ys) :: rest := by
  cases hRuns : runs allocated (x :: xs) with
  | nil => exact (List.cons_ne_nil x xs (List.splitBy_eq_nil.mp hRuns)).elim
  | cons run rest =>
    have hFlat := flatten_runs allocated (x :: xs)
    have hNonempty : run ≠ [] := ne_nil_of_mem_runs (hRuns ▸ List.mem_cons_self)
    obtain ⟨y, ys, rfl⟩ := List.exists_cons_of_ne_nil hNonempty
    rw [hRuns, List.flatten_cons, List.cons_append] at hFlat
    obtain rfl := (List.cons.inj hFlat).1
    exact ⟨ys, rest, rfl⟩

theorem runs_cons_apart (h : ∀ y ∈ xs.head?, allocated x = true ∨ allocated y = true) :
    runs allocated (x :: xs) = [x] :: runs allocated xs := by
  have hSplit := List.splitBy_append (r := fun x y => !allocated x && !allocated y) (l := [x])
    (m := xs) ?_
  · rw [runs, ← List.singleton_append, hSplit]
    exact congrArg (· ++ runs allocated xs) (runs_singleton allocated x)
  · intro z hz y hy
    obtain rfl := Option.some.inj hz
    simpa [or_iff_not_imp_left] using h y hy

theorem runs_cons_joined (hx : allocated x = false) (hy : allocated y = false)
    (h : runs allocated (y :: xs) = run :: rest) :
    runs allocated (x :: y :: xs) = (x :: run) :: rest := by
  obtain ⟨ys, rest', hRuns⟩ := exists_runs_cons allocated y xs
  rw [h] at hRuns
  cases hRuns
  obtain ⟨hFlat, hNil, hChain, hEnds⟩ := List.splitBy_eq_iff.mp h
  refine List.splitBy_eq_iff.mpr ⟨congrArg (x :: ·) hFlat, ?_, ?_, ?_⟩
  · simpa using hNil
  · obtain ⟨hFirst, hRest⟩ := List.forall_mem_cons.mp hChain
    exact List.forall_mem_cons.mpr ⟨List.isChain_cons_cons.mpr ⟨by simp [hx, hy], hFirst⟩, hRest⟩
  · obtain ⟨hHead, hTail⟩ := List.isChain_cons.mp hEnds
    refine List.isChain_cons.mpr ⟨fun m hm => ?_, hTail⟩
    obtain ⟨_, hb, hLast⟩ := hHead m hm
    exact ⟨List.cons_ne_nil _ _, hb, by rwa [List.getLast_cons (List.cons_ne_nil y ys)]⟩

theorem runs_map {f : α → β} {flag : β → Bool} (hFlag : ∀ x, flag (f x) = allocated x)
    (xs : List α) : runs flag (xs.map f) = (runs allocated xs).map (List.map f) := by
  induction xs with
  | nil => rfl
  | cons x xs ih =>
    cases xs with
    | nil => rw [runs_singleton, List.map_cons, List.map_nil, runs_singleton]; rfl
    | cons y ys =>
      cases hJoin : allocated x || allocated y with
      | true =>
        rw [Bool.or_eq_true] at hJoin
        rw [runs_cons_apart (by simpa using hJoin), List.map_cons,
          runs_cons_apart (by simpa [hFlag] using hJoin), ih]
        rfl
      | false =>
        obtain ⟨hx, hy⟩ := Bool.or_eq_false_iff.mp hJoin
        obtain ⟨zs, rest, hRuns⟩ := exists_runs_cons allocated y ys
        rw [hRuns] at ih
        rw [runs_cons_joined hx hy hRuns, List.map_cons, List.map_cons,
          runs_cons_joined ((hFlag x).trans hx) ((hFlag y).trans hy) ih]
        rfl

end Runs

namespace Chunk

variable {gap need : Nat} {c d : Chunk} {cs : List Chunk}

theorem runs_of_separated (h : Separated cs) : runs allocated cs = cs.map ([·]) := by
  induction cs with
  | nil => rfl
  | cons c cs ih =>
    obtain ⟨hHead, hTail⟩ := List.isChain_cons.mp h
    rw [runs_cons_apart hHead, ih hTail, List.map_cons]

/-- The chunk of a run: `gap` bytes stood between neighbours. -/
def fuse (gap : Nat) : List Chunk → Chunk
  | [] => ⟨0, Tag.sentinel⟩
  | c :: cs => ⟨c.offset, c.size + (cs.map fun d => gap + d.size).sum,
      c.allocated || cs.any allocated⟩

theorem fuse_singleton (gap : Nat) (c : Chunk) : fuse gap [c] = c := by
  simp [fuse]

theorem mergeRuns_eq (gap : Nat) (cs : List Chunk) :
    mergeRuns gap cs = (runs allocated cs).map (fuse gap) := by
  induction cs with
  | nil => rfl
  | cons c cs ih =>
    cases cs with
    | nil =>
      rw [runs_singleton, List.map_singleton, fuse_singleton]
      rfl
    | cons d cs =>
      obtain ⟨e, es, hMerged, _, hFlag⟩ := head_mergeRuns gap d cs
      obtain ⟨zs, rest, hRuns⟩ := exists_runs_cons allocated d cs
      rw [hMerged] at ih
      rw [mergeRuns_cons, hMerged]
      cases hJoin : c.allocated || d.allocated with
      | true =>
        have hApart : c.allocated = true ∨ d.allocated = true := Bool.or_eq_true_iff.mp hJoin
        rw [runs_cons_apart (by simpa using hApart), List.map_cons, fuse_singleton, ← ih]
        exact if_pos (hFlag.symm ▸ hJoin)
      | false =>
        obtain ⟨hc, hd⟩ := Bool.or_eq_false_iff.mp hJoin
        rw [hRuns, List.map_cons, List.cons.injEq] at ih
        obtain ⟨rfl, rfl⟩ := ih
        rw [runs_cons_joined hc hd hRuns, List.map_cons]
        have hNone : zs.any allocated = false := (Bool.or_eq_false_iff.mp (hFlag.trans hd)).2
        simp only [hFlag, hJoin, if_neg Bool.false_ne_true]
        simp only [fuse, List.any_cons, hc, hd, hNone, List.map_cons, List.sum_cons,
          Nat.add_assoc, Bool.or_self]

theorem tag_fuse {run : List Chunk} (h : run ≠ []) : (fuse 0 run).tag = Tag.fuse (run.map tag) := by
  obtain ⟨c, cs, rfl⟩ := List.exists_cons_of_ne_nil h
  simp [fuse, Tag.fuse, Function.comp_def]

theorem map_tag_mergeRuns (cs : List Chunk) :
    (mergeRuns 0 cs).map tag = (runs Tag.allocated (cs.map tag)).map Tag.fuse := by
  have hRuns : runs Tag.allocated (cs.map tag) = (runs allocated cs).map (List.map tag) :=
    runs_map (fun _ => rfl) cs
  rw [mergeRuns_eq, hRuns, List.map_map, List.map_map]
  exact List.map_congr_left fun run hRun => tag_fuse (ne_nil_of_mem_runs hRun)

theorem exists_fits_mergeRuns_iff : (∃ d ∈ mergeRuns 0 cs, d.fits need = true) ↔
    ∃ run ∈ runs allocated cs, (∀ c ∈ run, c.allocated = false) ∧
      need ≤ (run.map Chunk.size).sum := by
  have hTags : (∃ d ∈ mergeRuns 0 cs, d.fits need = true) ↔
      ∃ t ∈ (mergeRuns 0 cs).map tag, t.allocated = false ∧ need ≤ t.size := by
    simp [fits_iff]
  have hRuns : runs Tag.allocated (cs.map tag) = (runs allocated cs).map (List.map tag) :=
    runs_map (fun _ => rfl) cs
  rw [hTags, map_tag_mergeRuns, hRuns]
  simp [Tag.fuse, Function.comp_def]

end Chunk

end BlockHeap
