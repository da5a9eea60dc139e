import BlockHeap.Proofs.Region.Anchoring
import BlockHeap.Statistics

/-!
# Computations under watch

The operations of a heap once more, each step of them watched: a computation lapses when it reads or
writes what is not a word of the region, when a sum is no word or a difference is negative, when an
assertion does not hold, and when a loop takes more rounds than it may. Beside the region there is a
record of the bytes that are the heap's own: those that it has written since they last belonged to a
client. Reading any other byte is a lapse too.
-/

namespace BlockHeap

inductive Assertion where
  | anchored
  | anchorAligned (address : Nat)
  | contiguous (address fresh : Nat)
  | inRegion (offset : Nat)
  | pointerInRegion (address : Nat)
  | roundSize (size : Nat)
  | notSentinel (node : Nat)
  | largeEnough (available size : Nat)
  | notFreedTwice (block : Nat)
  | ready
  | payloadAligned (address : Nat)
deriving DecidableEq

inductive Lapse where
  /-- A read of what is not a word, or not in the region. -/
  | read (offset : Nat)
  /-- A read of bytes that a client, or nobody, has written last. -/
  | stale (offset : Nat)
  /-- A write to what is not a word, or not in the region. -/
  | write (offset : Nat)
  /-- A sum that does not fit in a word. -/
  | sum (m n : Nat)
  /-- A difference that is negative. -/
  | difference (m n : Nat)
  /-- A change of bytes that are not all in the region. -/
  | range (address count : Nat)
  | assertion (a : Assertion)
  /-- A loop that goes on after as many rounds as it may take. -/
  | rounds
deriving DecidableEq

/-- A region, and which addresses hold bytes that its heap has written since they last belonged to a
client. -/
structure Bench where
  region : Region
  own : Nat → Bool

namespace Bench

def Inside (b : Bench) (o : Nat) : Prop := o % wordSize = 0 ∧ o + wordSize ≤ b.region.size

instance (b : Bench) (o : Nat) : Decidable (b.Inside o) := inferInstanceAs (Decidable (_ ∧ _))

def Owned (b : Bench) (o : Nat) : Prop := ∀ i < wordSize, b.own (b.region.address o + i) = true

instance (b : Bench) (o : Nat) : Decidable (b.Owned o) :=
  inferInstanceAs (Decidable (∀ i < wordSize, b.own (b.region.address o + i) = true))

def store (b : Bench) (o v : Nat) : Bench where
  region := b.region.setWord o v
  own x := b.own x || (b.region.address o ≤ x && x < b.region.address o + wordSize)

def yield (b : Bench) (address count : Nat) : Bench :=
  { b with own := fun x => b.own x && !(address ≤ x && x < address + count) }

/-- What the heap owned it still owns, and now these words as well. -/
structure Marks (os : List Nat) (b c : Bench) : Prop where
  anchor_eq : c.region.anchor = b.region.anchor
  own_of : ∀ x, b.own x = true → c.own x = true
  owned : ∀ o ∈ os, c.Owned o

end Bench

abbrev Watched := StateT Bench (Except Lapse)

/-- The computation comes to an end without a lapse. -/
def Watched.Does {α : Type} (m : Watched α) (b : Bench) (a : α) (c : Bench) : Prop :=
  m.run b = .ok (a, c)

namespace Watched

open Bench

def ensure (p : Prop) [Decidable p] (l : Lapse) : Watched Unit := if p then pure () else throw l

def plus (m n : Nat) : Watched Nat := do
  ensure (m + n < wordLimit) (.sum m n)
  return m + n

def minus (m n : Nat) : Watched Nat := do
  ensure (n ≤ m) (.difference m n)
  return m - n

def pointer (o : Nat) : Watched Nat := do
  let b ← get
  ensure (o ≤ b.region.size) (.assertion (.inRegion o))
  ensure (b.region.anchor ≠ 0) (.assertion .anchored)
  plus b.region.anchor o

def offsetOf (address : Nat) : Watched Nat := do
  let b ← get
  ensure (b.region.anchor ≠ 0) (.assertion .anchored)
  ensure (b.region.anchor ≤ address ∧ address - b.region.anchor ≤ b.region.size)
    (.assertion (.pointerInRegion address))
  minus address b.region.anchor

def fetch (o : Nat) : Watched Nat := do
  let b ← get
  let _ ← plus o wordSize
  ensure (b.Inside o) (.read o)
  let _ ← pointer o
  ensure (b.Owned o) (.stale o)
  return b.region.word o

def store (o v : Nat) : Watched Unit := do
  let b ← get
  let _ ← plus o wordSize
  ensure (b.Inside o) (.write o)
  let _ ← pointer o
  set (b.store o v)

def fetchTag (o : Nat) : Watched Tag := do
  let w ← fetch o
  return .ofWord w

def storeTag (o : Nat) (t : Tag) : Watched Unit := do
  ensure (t.size % alignment.value = 0) (.assertion (.roundSize t.size))
  store o t.word

def move (r : Region) : Watched Unit := modify fun b => { b with region := r }

def reanchor : Watched Bool := do
  let r := (← get).region
  match r.arena.grow 0 with
  | (none, arena) =>
    move { r with arena }
    return false
  | (some mark, arena) =>
    let padding := alignment.padding mark
    match if padding = 0 then (some mark, arena) else arena.grow padding with
    | (none, arena) =>
      move { r with arena }
      return false
    | (some _, arena) =>
      let anchor ← plus mark padding
      ensure (anchor % alignment.value = 0) (.assertion (.anchorAligned anchor))
      move ⟨arena, anchor, 0⟩
      return true

def grow (bytes : Nat) : Watched (Option Nat) := do
  let r := (← get).region
  ensure (r.anchor ≠ 0) (.assertion .anchored)
  match r.arena.grow bytes with
  | (none, arena) =>
    move { r with arena }
    return none
  | (some fresh, arena) =>
    let behind ← pointer r.size
    ensure (behind = fresh) (.assertion (.contiguous behind fresh))
    let size ← plus r.size bytes
    move { r with arena, size }
    return some r.size

def walk (describe : Nat → Watched Block) (next : Nat → Watched (Option Nat)) :
    (rounds : Nat) → (cursor : Option Nat) → Watched (List Block)
  | _, none => return []
  | 0, some _ => throw .rounds
  | rounds + 1, some block => do
    let raw ← describe block
    let after ← next block
    let payload ← pointer raw.payload
    return { raw with payload } :: (← walk describe next rounds after)

section Does

variable {α β : Type} {m : Watched α} {f : α → Watched β} {a : α} {x : β} {b c d : Bench}

theorem Does.bind (h : Does m b a c) (h' : Does (f a) c x d) : Does (m >>= f) b x d := by
  unfold Does at *
  rw [StateT.run_bind, h]
  exact h'

theorem does_pure (a : α) (b : Bench) : Does (pure a) b a b := rfl

theorem does_get (b : Bench) : Does get b b b := rfl

theorem does_set (b c : Bench) : Does (set c : Watched PUnit) b ⟨⟩ c := rfl

theorem does_move (b : Bench) (r : Region) : Does (move r) b ⟨⟩ { b with region := r } := rfl

theorem does_ensure {p : Prop} [Decidable p] (h : p) (l : Lapse) (b : Bench) :
    Does (ensure p l) b ⟨⟩ b := by
  rw [ensure, if_pos h]
  rfl

theorem Does.ensured {p : Prop} [Decidable p] {l : Lapse} {m : Watched α} (hp : p)
    (h : Does m b a c) : Does (ensure p l >>= fun _ => m) b a c := (does_ensure hp l b).bind h

theorem does_plus {m n : Nat} (h : m + n < wordLimit) (b : Bench) : Does (plus m n) b (m + n) b :=
  .ensured h (does_pure _ b)

theorem does_minus {m n : Nat} (h : n ≤ m) (b : Bench) : Does (minus m n) b (m - n) b :=
  .ensured h (does_pure _ b)

theorem does_walk_none (describe : Nat → Watched Block) (next : Nat → Watched (Option Nat))
    (rounds : Nat) (b : Bench) : Does (walk describe next rounds none) b [] b := by
  cases rounds <;> rfl

end Does

end Watched

namespace Bench

variable {b c d : Bench} {os ps : List Nat} {o v address count : Nat}

theorem Marks.refl (b : Bench) : b.Marks [] b := ⟨rfl, fun _ h => h, nofun⟩

theorem Marks.of_owned (h : b.Marks os c) (ho : b.Owned o) : c.Owned o := fun i hi => by
  have hAddress : c.region.address o = b.region.address o := by
    rw [Region.address, Region.address, h.anchor_eq]
  rw [hAddress]
  exact h.own_of _ (ho i hi)

theorem Marks.trans (h : b.Marks os c) (h' : c.Marks ps d) : b.Marks (os ++ ps) d where
  anchor_eq := h'.anchor_eq.trans h.anchor_eq
  own_of x hx := h'.own_of x (h.own_of x hx)
  owned o ho := by
    rcases List.mem_append.mp ho with ho | ho
    · exact h'.of_owned (h.owned o ho)
    · exact h'.owned o ho

theorem Marks.mono (h : b.Marks os c) (hs : ∀ o ∈ ps, o ∈ os) : b.Marks ps c :=
  ⟨h.anchor_eq, h.own_of, fun o ho => h.owned o (hs o ho)⟩

theorem Inside.store (h : b.Inside o) (p v : Nat) : (b.store p v).Inside o := h

theorem anchored_store (hr : b.region.Anchored) (o v : Nat) : (b.store o v).region.Anchored :=
  ⟨hr.aligned, hr.base_le, hr.mark_eq⟩

theorem marks_store (b : Bench) (o v : Nat) : b.Marks [o] (b.store o v) where
  anchor_eq := rfl
  own_of x hx := by
    show (b.own x || _) = true
    rw [hx]
    rfl
  owned p hp := by
    obtain rfl := List.mem_singleton.mp hp
    intro i hi
    have hIn : b.region.address p ≤ b.region.address p + i ∧
        b.region.address p + i < b.region.address p + wordSize := by omega
    show (b.own _ || (b.region.address p ≤ b.region.address p + i &&
      b.region.address p + i < b.region.address p + wordSize)) = true
    simp [hIn.2]

theorem Owned.grown {k : Nat} {s : Region} (h : b.Owned o) (hs : b.region.Grown k s) :
    ({ b with region := s } : Bench).Owned o := fun i hi => by
  rw [Region.address, hs.anchor_eq]
  exact h i hi

theorem Owned.of_word {K : Nat → Prop} (h : b.Owned o)
    (hAnchor : c.region.anchor = b.region.anchor)
    (hOwn : ∀ x, K x → b.own x = true → c.own x = true) (hK : ∀ x, b.region.WordAt o x → K x) :
    c.Owned o := by
  intro i hi
  rw [Region.address, hAnchor]
  exact hOwn _ (hK _ ⟨Nat.le_add_right _ i, Nat.add_lt_add_left hi _⟩) (h i hi)

theorem own_yield {x : Nat} (hOwn : b.own x = true) (hOut : ¬ (address ≤ x ∧ x < address + count)) :
    (b.yield address count).own x = true := by
  show (b.own x && !(address ≤ x && x < address + count)) = true
  rw [hOwn, Bool.true_and, ← Bool.decide_and, decide_eq_false hOut]
  rfl

end Bench

namespace Watched

open Bench

variable {b : Bench} {o v : Nat} {t : Tag}

section Region

variable (hr : b.region.Anchored)

include hr

theorem anchor_ne_zero : b.region.anchor ≠ 0 := by
  have hBase := hr.base_le
  have hPos := b.region.arena.base_pos
  omega

theorem does_pointer (ho : o ≤ b.region.size) : Does (pointer o) b (b.region.address o) b := by
  have hEnd := hr.end_lt
  exact (does_get b).bind (.ensured ho (.ensured (anchor_ne_zero hr) (does_plus (by omega) b)))

theorem does_offsetOf (ho : o ≤ b.region.size) :
    Does (offsetOf (b.region.address o)) b o b := by
  unfold Region.address
  have hIn : b.region.anchor ≤ b.region.anchor + o ∧
      b.region.anchor + o - b.region.anchor ≤ b.region.size := by omega
  have hMinus := does_minus hIn.1 b
  rw [Nat.add_sub_cancel_left] at hMinus
  exact (does_get b).bind (.ensured (anchor_ne_zero hr) (.ensured hIn hMinus))

theorem does_fetch (hIn : b.Inside o) (ho : b.Owned o) :
    Does (fetch o) b (b.region.word o) b := by
  have hEnd := hr.end_lt
  have hLe := hIn.2
  exact (does_get b).bind ((does_plus (by omega) b).bind (.ensured hIn
    ((does_pointer hr (by omega)).bind (.ensured ho (does_pure _ b)))))

theorem does_store (hIn : b.Inside o) (v : Nat) : Does (store o v) b ⟨⟩ (b.store o v) := by
  have hEnd := hr.end_lt
  have hLe := hIn.2
  exact (does_get b).bind ((does_plus (by omega) b).bind (.ensured hIn
    ((does_pointer hr (by omega)).bind (does_set b _))))

theorem does_fetchTag (hIn : b.Inside o) (ho : b.Owned o) :
    Does (fetchTag o) b (b.region.tag o) b := (does_fetch hr hIn ho).bind (does_pure _ b)

theorem does_storeTag (hIn : b.Inside o) (ht : t.size % 16 = 0) :
    Does (storeTag o t) b ⟨⟩ (b.store o t.word) :=
  .ensured ht (does_store hr hIn _)

end Region

theorem does_grow (hr : b.region.Anchored) (n : Nat) : Does (grow n) b (b.region.grow n).value.1
    { b with region := (b.region.grow n).value.2 } := by
  have hMark := hr.mark_eq
  have hGrown := b.region.grow_cases n
  refine (does_get b).bind (.ensured (anchor_ne_zero hr) ?_)
  unfold Region.grow Arena.grow at *
  by_cases hRoom : n ≤ b.region.arena.capacity - b.region.arena.size
  · simp only [dif_pos hRoom]
    have hEnd := b.region.arena.end_lt
    have hTaken := b.region.arena.size_le
    unfold Arena.mark at hMark
    refine (does_pointer hr le_rfl).bind (.ensured ?_ ((does_plus ?_ b).bind ?_))
    · exact hr.mark_eq.symm
    · omega
    · exact (does_move b _).bind (does_pure _ _)
  · simp only [dif_neg hRoom]
    exact (does_move b _).bind (does_pure _ _)

theorem does_reanchor (b : Bench) : Does reanchor b b.region.reanchor.value.1
    { b with region := b.region.reanchor.value.2 } := by
  refine (does_get b).bind ?_
  obtain ⟨a, hProbe, hSame, _, hLimit, _⟩ :=
    Arena.grow_of_le (a := b.region.arena) (n := 0) b.region.arena.mark_le
  have hAligned := b.region.arena.aligned_eq
  have hEnd : a.limit < wordLimit := a.end_lt
  have hRound : (b.region.arena.mark + alignment.padding b.region.arena.mark) % 16 = 0 := by
    rw [← hAligned, Arena.aligned]
    exact Nat.mul_mod_left _ _
  rw [Nat.add_zero] at hSame
  unfold Region.reanchor
  simp only [hProbe]
  by_cases hZero : alignment.padding b.region.arena.mark = 0
  · have hMark := b.region.arena.mark_lt
    simp only [hZero, if_true, Nat.add_zero] at hRound ⊢
    exact (does_plus (by omega) b).bind (.ensured hRound ((does_move b _).bind (does_pure _ _)))
  · simp only [if_neg hZero]
    rcases Nat.lt_or_ge a.limit (a.mark + alignment.padding b.region.arena.mark) with hOver | hRoom
    · obtain ⟨_, hGrow, _⟩ := Arena.grow_of_lt hOver
      rw [hGrow]
      exact (does_move b _).bind (does_pure _ _)
    · obtain ⟨_, hGrow, _⟩ := Arena.grow_of_le hRoom
      rw [hGrow]
      exact (does_plus (by omega) b).bind (.ensured hRound ((does_move b _).bind (does_pure _ _)))

end Watched

end BlockHeap
