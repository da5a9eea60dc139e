import BlockHeap.Chunk
import Mathlib.Algebra.GroupWithZero.Nat
import Mathlib.Data.List.Chain
import Mathlib.Data.List.Induction
import Mathlib.Tactic.Tauto

/-!
# Tilings

The chunks of a heap tile a stretch of it: each starts where the one before stops, `gap` bytes of
overhead counted in. Everything about the places of chunks follows from this relation, which knows
nothing of the memory: chunks are aligned and apart from each other, and a run of them may be
exchanged for any other run between the same two offsets.
-/

namespace BlockHeap.Chunk

attribute [ext] Tag Chunk

def stop (gap : Nat) (c : Chunk) : Nat := c.offset + gap + c.size

theorem stop_mk (gap o n : Nat) (f : Bool) : stop gap ⟨o, n, f⟩ = o + gap + n := rfl

/-- The chunks lie end to end from the first offset to the second, and all of their sizes are
possible. -/
def Tiles (gap : Nat) : Nat → List Chunk → Nat → Prop
  | a, [], b => a = b
  | a, c :: cs, b => c.offset = a ∧ c.tag.WellSized ∧ Tiles gap (c.stop gap) cs b

/-- The chunks with these tags that lie end to end from an offset on. -/
def lay (gap : Nat) : Nat → List Tag → List Chunk
  | _, [] => []
  | a, t :: ts => ⟨a, t⟩ :: lay gap (a + gap + t.size) ts

def extent (gap : Nat) (ts : List Tag) : Nat := (ts.map fun t => gap + t.size).sum

def Separated (cs : List Chunk) : Prop :=
  cs.IsChain fun c d => c.allocated = true ∨ d.allocated = true

variable {gap a b m : Nat} {c d : Chunk} {cs ds xs ys : List Chunk}

@[simp] theorem extent_nil (gap : Nat) : extent gap [] = 0 := rfl

theorem extent_cons (gap : Nat) (t : Tag) (ts : List Tag) :
    extent gap (t :: ts) = gap + t.size + extent gap ts := by
  rw [extent, List.map_cons, List.sum_cons]
  rfl

@[simp] theorem tiles_nil : Tiles gap a [] b ↔ a = b := Iff.rfl

theorem tiles_cons : Tiles gap a (c :: cs) b ↔
    c.offset = a ∧ c.tag.WellSized ∧ Tiles gap (c.stop gap) cs b := Iff.rfl

theorem tiles_append : Tiles gap a (xs ++ ys) b ↔ ∃ m, Tiles gap a xs m ∧ Tiles gap m ys b := by
  induction xs generalizing a with
  | nil => simp
  | cons c xs ih =>
    rw [List.cons_append, tiles_cons, ih]
    constructor
    · rintro ⟨hc, hSized, m, hx, hy⟩
      exact ⟨m, ⟨hc, hSized, hx⟩, hy⟩
    · rintro ⟨m, ⟨hc, hSized, hx⟩, hy⟩
      exact ⟨hc, hSized, m, hx, hy⟩

theorem tiles_append_cons : Tiles gap a (xs ++ c :: ys) b ↔
    Tiles gap a xs c.offset ∧ c.tag.WellSized ∧ Tiles gap (c.stop gap) ys b := by
  rw [tiles_append]
  constructor
  · rintro ⟨m, hx, rfl, hSized, hy⟩
    exact ⟨hx, hSized, hy⟩
  · rintro ⟨hx, hSized, hy⟩
    exact ⟨c.offset, hx, rfl, hSized, hy⟩

theorem mem_around : c ∈ xs ++ cs ++ ys ↔ c ∈ cs ∨ c ∈ xs ++ ys := by
  simp only [List.mem_append]
  tauto

theorem Tiles.exchange (h : Tiles gap a (xs ++ cs ++ ys) b)
    (hm : ∀ m n, Tiles gap m cs n → Tiles gap m ds n) : Tiles gap a (xs ++ ds ++ ys) b := by
  obtain ⟨n, hn, hy⟩ := tiles_append.mp h
  obtain ⟨m, hx, hc⟩ := tiles_append.mp hn
  exact tiles_append.mpr ⟨n, tiles_append.mpr ⟨m, hx, hm m n hc⟩, hy⟩

theorem Tiles.le (h : Tiles gap a cs b) : a ≤ b := by
  induction cs generalizing a with
  | nil => exact Nat.le_of_eq h
  | cons c cs ih =>
    obtain ⟨rfl, _, hRest⟩ := h
    have hLe := ih hRest
    unfold stop at hLe
    omega

theorem Tiles.wellSized (h : Tiles gap a cs b) (hc : c ∈ cs) : c.tag.WellSized := by
  obtain ⟨xs, ys, rfl⟩ := List.append_of_mem hc
  exact (tiles_append_cons.mp h).2.1

theorem Tiles.le_offset (h : Tiles gap a cs b) (hc : c ∈ cs) : a ≤ c.offset := by
  obtain ⟨xs, ys, rfl⟩ := List.append_of_mem hc
  exact (tiles_append_cons.mp h).1.le

theorem Tiles.stop_le (h : Tiles gap a cs b) (hc : c ∈ cs) : c.stop gap ≤ b := by
  obtain ⟨xs, ys, rfl⟩ := List.append_of_mem hc
  exact (tiles_append_cons.mp h).2.2.le

theorem size_of_wellSized (h : c.tag.WellSized) : 16 ≤ c.size ∧ c.size % 16 = 0 := by
  obtain ⟨hPos, hMod⟩ := (Tag.wellSized_iff c.tag).mp h
  exact ⟨by unfold size; omega, hMod⟩

/-- Overheads and sizes are multiples of the alignment, so all chunks lie alike to its
boundaries. -/
theorem Tiles.mod_eq (h : Tiles gap a cs b) (hg : gap % 16 = 0) : b % 16 = a % 16 := by
  induction cs generalizing a with
  | nil => exact congrArg (· % 16) h.symm
  | cons c cs ih =>
    obtain ⟨rfl, hSized, hRest⟩ := h
    have hSize := size_of_wellSized hSized
    rw [ih hRest]
    unfold stop
    omega

theorem Tiles.offset_mod (h : Tiles gap a cs b) (hg : gap % 16 = 0) (hc : c ∈ cs) :
    c.offset % 16 = a % 16 := by
  obtain ⟨xs, ys, rfl⟩ := List.append_of_mem hc
  exact (tiles_append_cons.mp h).1.mod_eq hg

theorem Tiles.pairwise (h : Tiles gap a cs b) : cs.Pairwise fun c d => c.stop gap ≤ d.offset := by
  induction cs generalizing a with
  | nil => exact List.Pairwise.nil
  | cons c cs ih => exact List.pairwise_cons.mpr ⟨fun d hd => h.2.2.le_offset hd, ih h.2.2⟩

theorem Tiles.headers_apart (h : Tiles gap a cs b) :
    cs.Pairwise fun c d => c.offset + wordSize ≤ d.offset := by
  refine h.pairwise.imp_of_mem fun {c d} hc _ hLe => ?_
  have hSize := size_of_wellSized (h.wellSized hc)
  unfold stop at hLe
  unfold wordSize
  omega

theorem Tiles.isChain (h : Tiles gap a cs b) : cs.IsChain fun c d => d.offset = c.stop gap := by
  induction cs generalizing a with
  | nil => exact List.isChain_nil
  | cons c cs ih =>
    refine List.isChain_cons.mpr ⟨fun d hd => ?_, ih h.2.2⟩
    obtain ⟨ds, rfl⟩ := List.head?_eq_some_iff.mp hd
    exact h.2.2.1

theorem Tiles.apart (h : Tiles gap a cs b) (hc : c ∈ cs) (hd : d ∈ cs) :
    c = d ∨ c.stop gap ≤ d.offset ∨ d.stop gap ≤ c.offset := by
  obtain ⟨xs, ys, rfl⟩ := List.append_of_mem hc
  obtain ⟨hx, _, hy⟩ := tiles_append_cons.mp h
  rcases List.mem_append.mp hd with hd | hd
  · exact .inr (.inr (hx.stop_le hd))
  · rcases List.mem_cons.mp hd with rfl | hd
    · exact .inl rfl
    · exact .inr (.inl (hy.le_offset hd))

theorem Tiles.apart_of_split (h : Tiles gap a (xs ++ cs ++ ys) b) (hc : c ∈ cs)
    (hd : d ∈ xs ++ ys) :
    c.stop gap ≤ d.offset ∨ d.stop gap ≤ c.offset := by
  obtain ⟨hLeft, _, hRight⟩ := List.pairwise_append.mp h.pairwise
  rcases List.mem_append.mp hd with hd | hd
  · exact .inr ((List.pairwise_append.mp hLeft).2.2 d hd c hc)
  · exact .inl (hRight c (List.mem_append_right _ hc) d hd)

theorem Tiles.offset_ne (h : Tiles gap a (xs ++ c :: ys) b) (hd : d ∈ xs ++ ys) :
    d.offset ≠ c.offset := by
  obtain ⟨hx, hSized, hy⟩ := tiles_append_cons.mp h
  have hSize := size_of_wellSized hSized
  rcases List.mem_append.mp hd with hMem | hMem
  · have hStop := hx.stop_le hMem
    have hSize' := size_of_wellSized (hx.wellSized hMem)
    unfold stop at hStop
    omega
  · have hLow := hy.le_offset hMem
    unfold stop at hLow
    omega

theorem Tiles.bounds (h : Tiles gap a cs b) (hc : c ∈ cs) :
    a ≤ c.offset ∧ c.offset + gap + c.size ≤ b ∧ 16 ≤ c.size ∧ c.size % 16 = 0 :=
  ⟨h.le_offset hc, h.stop_le hc, size_of_wellSized (h.wellSized hc)⟩

/-- Every chunk takes at least 16 bytes, which bounds their number. -/
theorem Tiles.length_le (h : Tiles gap a cs b) : a + 16 * cs.length ≤ b := by
  induction cs generalizing a with
  | nil => exact Nat.le_of_eq h
  | cons c cs ih =>
    obtain ⟨rfl, hSized, hRest⟩ := h
    have hSize := size_of_wellSized hSized
    have hLe := ih hRest
    unfold stop at hLe
    rw [List.length_cons]
    omega

theorem Tiles.eq_nil (h : Tiles gap a cs a) : cs = [] := by
  have hLength := h.length_le
  exact List.eq_nil_of_length_eq_zero (by omega)

/-- In a tiling the tags alone say where each chunk is, and where the last one stops. -/
theorem Tiles.lay_eq (h : Tiles gap a cs b) : lay gap a (cs.map tag) = cs := by
  induction cs generalizing a with
  | nil => rfl
  | cons c cs ih =>
    obtain ⟨rfl, _, hRest⟩ := h
    exact congrArg (c :: ·) (ih hRest)

theorem Tiles.extent_eq (h : Tiles gap a cs b) : a + extent gap (cs.map tag) = b := by
  induction cs generalizing a with
  | nil => exact h
  | cons c cs ih =>
    obtain ⟨rfl, _, hRest⟩ := h
    rw [← ih hRest, List.map_cons, extent_cons, stop, size]
    omega

theorem Tiles.unique {b' : Nat} (h : Tiles gap a cs b) (h' : Tiles gap a cs b') : b = b' :=
  h.extent_eq.symm.trans h'.extent_eq

theorem Tiles.eq_of_offset {f : Nat → Tag} (h : Tiles gap a cs b) (h' : Tiles gap a ds b)
    (hf : ∀ c ∈ cs, f c.offset = c.tag) (hf' : ∀ d ∈ ds, f d.offset = d.tag) : ds = cs := by
  induction cs generalizing a ds with
  | nil =>
    obtain rfl := h
    exact h'.eq_nil
  | cons c cs ih =>
    cases ds with
    | nil =>
      obtain rfl := h'
      exact h.eq_nil.symm
    | cons d ds =>
      obtain ⟨hc, _, hRest⟩ := h
      obtain ⟨hd, _, hRest'⟩ := h'
      have hTag : d.tag = c.tag := by
        rw [← hf c List.mem_cons_self, ← hf' d List.mem_cons_self, hc, hd]
      obtain rfl : d = c := Chunk.ext (hd.trans hc.symm) hTag
      rw [ih hRest hRest' (fun e he => hf e (List.mem_cons_of_mem _ he)) fun e he =>
        hf' e (List.mem_cons_of_mem _ he)]

theorem Tiles.eq_of_stop {f : Nat → Tag} (h : Tiles gap a cs b) (h' : Tiles gap a ds b)
    (hf : ∀ c ∈ cs, f (c.stop gap) = c.tag) (hf' : ∀ d ∈ ds, f (d.stop gap) = d.tag) : ds = cs := by
  induction cs using List.reverseRecOn generalizing b ds with
  | nil =>
    obtain rfl := h
    exact h'.eq_nil
  | append_singleton cs c ih =>
    rcases List.eq_nil_or_concat ds with rfl | ⟨ds, d, rfl⟩
    · obtain rfl := h'
      exact h.eq_nil.symm
    · obtain ⟨hInit, _, hc⟩ := tiles_append_cons.mp h
      rw [List.concat_eq_append] at h' hf' ⊢
      obtain ⟨hInit', _, hd⟩ := tiles_append_cons.mp h'
      rw [tiles_nil] at hc hd
      have hTag : d.tag = c.tag := by
        rw [← hf c (by simp), ← hf' d (by simp), hc, hd]
      have hOffset : d.offset = c.offset := by
        unfold stop size at hc hd
        rw [hTag] at hd
        omega
      obtain rfl : d = c := Chunk.ext hOffset hTag
      rw [ih hInit hInit' (fun e he => hf e (List.mem_append_left _ he)) fun e he =>
        hf' e (List.mem_append_left _ he)]

theorem Separated.join (hxs : Separated xs) (hys : Separated ys)
    (hLast : ∀ p ∈ xs.getLast?, p.allocated = true) (hHead : ∀ d ∈ ys.head?, d.allocated = true) :
    Separated (xs ++ c :: ys) := by
  refine List.isChain_append.mpr
    ⟨hxs, List.isChain_cons.mpr ⟨fun d hd => .inr (hHead d hd), hys⟩, ?_⟩
  exact fun p hp _ _ => .inl (hLast p hp)

theorem Separated.init (h : Separated (xs ++ [c])) (hFlag : c.allocated = false) :
    Separated xs ∧ ∀ p ∈ xs.getLast?, p.allocated = true := by
  obtain ⟨hInit, _, hMid⟩ := List.isChain_append.mp h
  exact ⟨hInit, fun p hp => (hMid p hp c rfl).resolve_right (by simp [hFlag])⟩

theorem Separated.tail (h : Separated (c :: ys)) (hFlag : c.allocated = false) :
    Separated ys ∧ ∀ d ∈ ys.head?, d.allocated = true := by
  obtain ⟨hMid, hTail⟩ := List.isChain_cons.mp h
  exact ⟨hTail, fun d hd => (hMid d hd).resolve_left (by simp [hFlag])⟩

end BlockHeap.Chunk
