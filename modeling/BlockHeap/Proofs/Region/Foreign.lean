import BlockHeap.Proofs.Chunk.Tiling
import BlockHeap.Proofs.Region.Keeps
import BlockHeap.Statistics
import Mathlib.Data.Nat.Basic
import Mathlib.Order.Basic

/-!
# Foreign bytes

A heap may write to its region, except to the payloads of allocated blocks. All other addresses are
foreign to it: each operation of a heap keeps them.
-/

namespace BlockHeap

def Block.At (a : Nat) (b : Block) (x : Nat) : Prop :=
  a + b.payload ≤ x ∧ x < a + b.payload + b.size

theorem Memory.Agree.of_payload {r : Region} {b : Block} {m n : Memory} {count : Nat}
    (h : m.Agree (fun x => ¬ (r.address b.payload ≤ x ∧ x < r.address b.payload + count)) n)
    (hCount : count ≤ b.size) : m.Agree (fun x => ¬ b.At r.anchor x) n := by
  refine h.mono fun x hx hIn => hx ?_
  unfold Region.address at hIn
  unfold Block.At
  omega

/-- The blocks that a client holds. -/
def held (bs : List Block) : List Block := bs.filter Block.allocated

def Foreign (a size : Nat) (bs : List Block) (x : Nat) : Prop :=
  x < a ∨ a + size ≤ x ∨ ∃ b ∈ held bs, b.At a x

variable {a size o x : Nat} {b : Block} {bs cs : List Block}

theorem held_map {f : Chunk → Block} (hf : ∀ c, (f c).allocated = c.allocated) (cs : List Chunk) :
    held (cs.map f) = (cs.filter Chunk.allocated).map f := by
  rw [held, List.filter_map]
  congr 2
  funext c
  exact hf c

theorem held_map_subset {f : Chunk → Block} (hf : ∀ c, (f c).allocated = c.allocated)
    {cs ds : List Chunk} (h : ∀ c ∈ cs, c.allocated = true → c ∈ ds) :
    ∀ b ∈ held (cs.map f), b ∈ held (ds.map f) := by
  rw [held_map hf, held_map hf]
  rintro b hb
  obtain ⟨c, hc, rfl⟩ := List.mem_map.mp hb
  obtain ⟨hMem, hFlag⟩ := List.mem_filter.mp hc
  exact List.mem_map_of_mem (List.mem_filter.mpr ⟨h c hMem hFlag, hFlag⟩)

theorem held_map_exchange {f : Chunk → Block} (hf : ∀ c, (f c).allocated = c.allocated)
    {ws xs ys : List Chunk} (hFree : ∀ d ∈ ws, d.allocated = false) (ds : List Chunk) :
    ∀ b ∈ held ((xs ++ ws ++ ys).map f), b ∈ held ((xs ++ ds ++ ys).map f) := by
  refine held_map_subset hf fun c hc hFlag => ?_
  rcases Chunk.mem_around.mp hc with hMem | hMem
  · exact Bool.noConfusion (hFlag.symm.trans (hFree c hMem))
  · exact Chunk.mem_around.mpr (.inr hMem)

theorem Foreign.mono (h : Foreign a size bs x) (hs : ∀ b ∈ held bs, b ∈ held cs) :
    Foreign a size cs x := by
  rcases h with h | h | ⟨b, hb, hx⟩
  · exact .inl h
  · exact .inr (.inl h)
  · exact .inr (.inr ⟨b, hs b hb, hx⟩)

/-- Writes to the bytes of one heap compose as long as its client holds no less. -/
theorem Region.Keeps.foreign_trans {r s t : Region} (h : r.Keeps (Foreign r.anchor size bs) s)
    (h' : s.Keeps (Foreign s.anchor size cs) t) (hs : ∀ b ∈ held bs, b ∈ held cs) :
    r.Keeps (Foreign r.anchor size bs) t :=
  h.trans (h'.mono fun _ hx => h.anchor_eq ▸ hx.mono hs)

/-- What an operation of the heap may do to its region: grow it, and write to it where the bytes are
not foreign with these blocks. -/
structure Region.Evolves (bs : List Block) (r s : Region) : Prop where
  anchor_eq : s.anchor = r.anchor
  base_eq : s.arena.base = r.arena.base
  capacity_eq : s.arena.capacity = r.arena.capacity
  size_le : r.size ≤ s.size
  agree : r.arena.memory.Agree (Foreign r.anchor s.size bs) s.arena.memory

theorem Region.Evolves.refl (bs : List Block) (r : Region) : r.Evolves bs r :=
  ⟨rfl, rfl, rfl, le_rfl, fun _ _ => rfl⟩

theorem Region.Evolves.trans {r s t : Region} (h : r.Evolves bs s) (h' : s.Evolves cs t)
    (hs : ∀ b ∈ held bs, b ∈ held cs) : r.Evolves bs t where
  anchor_eq := h'.anchor_eq.trans h.anchor_eq
  base_eq := h'.base_eq.trans h.base_eq
  capacity_eq := h'.capacity_eq.trans h.capacity_eq
  size_le := h.size_le.trans h'.size_le
  agree := by
    intro x hx
    have hGrowth := h'.size_le
    have hFirst : Foreign r.anchor s.size bs x := by
      rcases hx with hx | hx | hx
      · exact .inl hx
      · exact .inr (.inl (by omega))
      · exact .inr (.inr hx)
    exact (h'.agree x (h.anchor_eq ▸ hx.mono hs)).trans (h.agree x hFirst)

theorem Region.Evolves.mono {r s : Region} (h : r.Evolves cs s) (hs : ∀ b ∈ held bs, b ∈ held cs) :
    r.Evolves bs s := (Region.Evolves.refl bs r).trans h hs

theorem Region.Keeps.evolves {r s : Region} (h : r.Keeps (Foreign r.anchor size bs) s)
    (hSize : size ≤ r.size) : r.Evolves bs s where
  anchor_eq := h.anchor_eq
  base_eq := h.base_eq
  capacity_eq := by
    rw [h.shape]
    rfl
  size_le := h.size_eq.ge
  agree := by
    rw [h.size_eq]
    refine h.agree.mono fun x hx => ?_
    rcases hx with hx | hx | hx
    · exact .inl hx
    · exact .inr (.inl (by omega))
    · exact .inr (.inr hx)

theorem Region.Grown.evolves {r s : Region} {n : Nat} (h : r.Grown n s) : r.Evolves bs s where
  anchor_eq := h.anchor_eq
  base_eq := h.base_eq
  capacity_eq := h.capacity_eq
  size_le := h.size_eq ▸ Nat.le_add_right _ _
  agree x _ := by rw [h.memory_eq]

theorem Region.not_foreign {r : Region} (hSize : o + wordSize ≤ size)
    (hb : ∀ b ∈ held bs, o + wordSize ≤ b.payload ∨ b.payload + b.size ≤ o) :
    ∀ x, r.WordAt o x → ¬ Foreign r.anchor size bs x := by
  rintro x ⟨hLow, hHigh⟩ hForeign
  unfold address at hLow hHigh
  rcases hForeign with h | h | ⟨b, hMem, hx⟩
  · omega
  · omega
  · have hApart := hb b hMem
    unfold Block.At at hx
    omega

end BlockHeap
