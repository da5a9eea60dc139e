import BlockHeap.Proofs.Heap.Operations
import BlockHeap.Proofs.Watched.Explicit.Operations
import BlockHeap.Proofs.Watched.Explicit.Release
import BlockHeap.Proofs.Watched.Implicit.Operations

/-!
# Heaps under watch

The operations of a heap whose region is on a bench. A payload that is answered becomes the
client's, with all its usable bytes, and it stays so until the heap writes to it again. `Secure`
says that the heap has blocks, and that every word that it keeps for itself is its own.
-/

namespace BlockHeap

open Watched

structure Front where
  engine : Engine
  ready : Bool

/-- A region over an arena, of which no byte is the heap's yet. -/
def Bench.new (arena : Arena) : Bench := ⟨{ arena }, fun _ => false⟩

namespace Front

def new (strategy : Strategy) : Front := ⟨Engine.new strategy, false⟩

def heap (f : Front) (b : Bench) : Heap := ⟨f.engine, b.region, f.ready⟩

@[simp] theorem ready_heap (f : Front) (b : Bench) : (f.heap b).ready = f.ready := rfl

@[simp] theorem region_heap (f : Front) (b : Bench) : (f.heap b).region = b.region := rfl

def setUp (f : Front) : Watched Bool :=
  match f.engine.strategy with
  | .implicit => Implicit.setUp
  | .explicit => Explicit.setUp

def layOut (f : Front) : Watched Front := do
  return ⟨Engine.new f.engine.strategy, ← f.setUp⟩

def prepare (f : Front) : Watched Front := if f.ready then pure f else f.layOut

def carve (f : Front) (n : Nat) : Watched (Option Nat × Front) :=
  match f.engine with
  | .implicit span => do
    let (payload, span) ← Watched.Implicit.allocate span n
    return (payload, { f with engine := .implicit span })
  | .explicit => do
    return (← Watched.Explicit.allocate n, f)

def yield (f : Front) (address : Nat) : Watched Unit :=
  modify fun b => b.yield address ((f.heap b).usableSize address)

/-- Answers the pointer to a payload, and its usable bytes become the client's. -/
def grant (f : Front) : Option Nat → Watched (Option Nat × Front)
  | none => return (none, f)
  | some payload => do
    let address ← pointer payload
    ensure (address % alignment.value = 0) (.assertion (.payloadAligned address))
    f.yield address
    return (some address, f)

def allocate (f : Front) (n : Nat) : Watched (Option Nat × Front) := do
  let f ← f.prepare
  if f.ready then
    let (payload, f) ← f.carve n
    f.grant payload
  else
    return (none, f)

def release (f : Front) (payload : Nat) : Watched Unit :=
  match f.engine with
  | .implicit _ => Implicit.deallocate payload
  | .explicit => Explicit.deallocate payload

def free (f : Front) : Option Nat → Watched Unit
  | none => pure ()
  | some address => do
    ensure (f.ready = true) (.assertion .ready)
    f.release (← offsetOf address)

def usableSize (f : Front) (address : Nat) : Watched Nat := do
  let payload ← offsetOf address
  match f.engine with
  | .implicit _ => Watched.Implicit.capacity payload
  | .explicit => Watched.Explicit.capacity payload

def within (address count : Nat) : Watched Unit := do
  let b ← get
  ensure (b.region.anchor ≤ address ∧ address + count ≤ b.region.anchor + b.region.size)
    (.range address count)

def copy (source target count : Nat) : Watched Unit := do
  within source count
  within target count
  ensure (source + count ≤ target ∨ target + count ≤ source) (.range target count)
  modify fun b => { b with region := b.region.mapMemory (·.copy source target count) }

def clear (address count : Nat) : Watched Unit := do
  within address count
  modify fun b => { b with region := b.region.mapMemory (·.fill address count 0) }

/-- The client writes to bytes, and these are its own from then on. -/
def write (address : Nat) (bytes : List UInt8) : Watched Unit :=
  modify fun b => Bench.yield { b with region := b.region.mapMemory (·.write address bytes) }
    address bytes.length

def exchange (f : Front) (source capacity n : Nat) : Option Nat → Watched (Option Nat × Front)
  | none => return (none, f)
  | some target => do
    copy source target (min capacity n)
    f.free (some source)
    return (some target, f)

def reallocate (f : Front) (pointer : Option Nat) (n : Nat) : Watched (Option Nat × Front) :=
  match pointer with
  | none => f.allocate n
  | some source =>
    if n = 0 then do
      f.free (some source)
      return (none, f)
    else do
      let capacity ← f.usableSize source
      let (target, f) ← f.allocate n
      f.exchange source capacity n target

def cleared (f : Front) (count : Nat) : Option Nat → Watched (Option Nat × Front)
  | none => return (none, f)
  | some address => do
    clear address count
    return (some address, f)

def zeroAllocate (f : Front) (count n : Nat) : Watched (Option Nat × Front) :=
  if wordLimit ≤ count * n then pure (none, f)
  else do
    let (pointer, f) ← f.allocate (count * n)
    f.cleared (count * n) pointer

/-- The walk may take as many rounds as there are blocks. -/
def blocks (f : Front) : Watched (List Block) := do
  let rounds := (f.heap (← get)).blocks.length
  if f.ready then
    match f.engine with
    | .implicit span =>
      walk Implicit.describe (Implicit.nextBlock span) rounds (span.map Implicit.Span.first)
    | .explicit => do
      walk Explicit.describe Explicit.nextBlock rounds (← Explicit.firstBlock)
  else
    return []

/-- A front without a layout has no blocks, and any other has those that its bench secures. -/
inductive Secure : Front → Bench → List Block → Prop where
  | bare {engine : Engine} {b : Bench} : Secure ⟨engine, false⟩ b []
  | implicit {span : Option Implicit.Span} {b : Bench} {cs : List Chunk} :
      Watched.Implicit.Secure b span cs → Secure ⟨.implicit span, true⟩ b (cs.map Implicit.block)
  | explicit {b : Bench} {cs : List Chunk} {ns : List Nat} :
      Watched.Explicit.Secure b cs ns → Secure ⟨.explicit, true⟩ b (cs.map Explicit.block)

variable {f g : Front} {b c : Bench} {d : Block} {bs cs : List Block} {n : Nat}

theorem Secure.represents (h : f.Secure b bs) : (f.heap b).Represents bs := by
  cases h with
  | bare => exact .bare
  | implicit h => exact .implicit h.represents
  | explicit h => exact .explicit h.represents

theorem Secure.eq_of_represents (h : f.Secure b bs) (hr : (f.heap b).Represents cs) : bs = cs :=
  h.represents.blockOffsets_eq.symm.trans hr.blockOffsets_eq

theorem Secure.owned (h : f.Secure b bs) {o : Nat} (ho : o ∈ (f.heap b).metadata) :
    b.Owned o := by
  cases h with
  | bare => cases ho
  | @implicit span _ cs h =>
    have hOffset : o ∈ (Implicit.chunks b.region span).map Chunk.offset := ho
    rw [h.represents.chunks_eq] at hOffset
    obtain ⟨c, hc, rfl⟩ := List.mem_map.mp hOffset
    exact h.owned c hc
  | @explicit _ cs ns h =>
    have hWord : o ∈ Explicit.header (b.region.size - Explicit.overhead) ::
        (Explicit.tagWords (Explicit.chunks b.region) ++ Explicit.linkWords
          (Explicit.freeList.oldestFirst b.region)) := ho
    rw [h.represents.chunks_eq, h.represents.oldestFirst_eq] at hWord
    exact h.owned o hWord

theorem Secure.closed (h : f.Secure b bs) (hReady : f.ready = true)
    (hStrategy : f.engine.strategy = .explicit) : Explicit.freeList.Closed b.region := by
  cases h with
  | bare => cases hReady
  | implicit _ => cases hStrategy
  | explicit h => exact h.closed

theorem Secure.of_client (h : f.Secure b bs)
    (hs : b.region.Keeps (fun x => ¬ ∃ d ∈ held bs, d.At b.region.anchor x) c.region)
    (hOwn : ∀ x, (¬ ∃ d ∈ held bs, d.At b.region.anchor x) → b.own x = true → c.own x = true) :
    f.Secure c bs := by
  cases h with
  | bare => exact .bare
  | implicit h => exact .implicit (h.of_client hs hOwn)
  | explicit h => exact .explicit (h.of_client hs hOwn)

theorem does_layOut (f : Front) (b : Bench) : ∃ g c, Does f.layOut b g c ∧
    g.heap c = (f.heap b).layOut.value.2 ∧ g.Secure c [] := by
  obtain ⟨engine, ready⟩ := f
  cases engine with
  | implicit span =>
    obtain ⟨c, hDoes, hRegion, hSecure⟩ := Implicit.does_setUp b
    refine ⟨⟨Engine.new .implicit, (Implicit.layOut b.region).value.1⟩, c,
      hDoes.bind (does_pure _ c), ?_, ?_⟩
    · rw [Heap.value_layOut _ (Prod.ext rfl rfl), heap, hRegion]
      rfl
    · cases hDone : (Implicit.layOut b.region).value.1 with
      | false => exact .bare
      | true => exact .implicit (hSecure hDone)
  | explicit =>
    obtain ⟨c, hDoes, hRegion, hSecure⟩ := Explicit.does_setUp b
    refine ⟨⟨Engine.new .explicit, (Explicit.layOut b.region).value.1⟩, c,
      hDoes.bind (does_pure _ c), ?_, ?_⟩
    · rw [Heap.value_layOut _ (Prod.ext rfl rfl), heap, hRegion]
      rfl
    · cases hDone : (Explicit.layOut b.region).value.1 with
      | false => exact .bare
      | true => exact .explicit (hSecure hDone)

theorem Secure.does_prepare (h : f.Secure b bs) : ∃ g c, Does f.prepare b g c ∧
    g.heap c = (f.heap b).prepare.value ∧ g.Secure c bs := by
  unfold prepare
  cases hReady : f.ready with
  | true =>
    have hValue : (f.heap b).prepare.value = f.heap b := Heap.value_prepare_of_ready hReady
    exact ⟨f, b, does_pure f b, hValue.symm, h⟩
  | false =>
    obtain ⟨g, c, hDoes, hHeap, hSecure⟩ := f.does_layOut b
    have hValue : (f.heap b).prepare.value = (f.heap b).layOut.value.2 := by
      have hNot : (f.heap b).ready = false := hReady
      simp only [Heap.prepare, hNot]
      rfl
    have hBlocks : bs = [] := by
      cases h with
      | bare => rfl
      | implicit _ => cases hReady
      | explicit _ => cases hReady
    subst hBlocks
    exact ⟨g, c, hDoes, hHeap.trans hValue.symm, hSecure⟩

theorem Secure.does_carve (h : f.Secure b bs) (hReady : f.ready = true) (n : Nat) : ∃ g c cs,
    Does (f.carve n) b (((f.heap b).carve n).value.1, g) c ∧
      g.heap c = ((f.heap b).carve n).value.2 ∧ g.Secure c cs := by
  cases h with
  | bare => cases hReady
  | @implicit span b cs h =>
    obtain ⟨c, ds, hDoes, hRegion, hSecure⟩ := h.does_allocate n
    refine ⟨⟨.implicit (Implicit.allocate b.region span n).value.2.2, true⟩, c, _,
      hDoes.bind (does_pure _ c), ?_, .implicit hSecure⟩
    rw [heap, hRegion]
    rfl
  | @explicit b cs ns h =>
    obtain ⟨c, ds, ms, hDoes, hRegion, hSecure⟩ := h.does_allocate n
    refine ⟨⟨.explicit, true⟩, c, _, hDoes.bind (does_pure _ c), ?_, .explicit hSecure⟩
    rw [heap, hRegion]
    rfl

theorem Secure.yield (h : f.Secure b bs) (hd : d ∈ held bs) :
    f.Secure (b.yield (b.region.address d.payload) d.size) bs :=
  h.of_client (Region.Keeps.refl _ _) fun _ hx hOwn =>
    Bench.own_yield hOwn fun hIn => hx ⟨d, hd, hIn⟩

theorem Secure.does_grant (h : f.Secure b bs) (payload : Option Nat)
    (hPayload : ∀ o ∈ payload, ∃ d ∈ held bs, d.payload = o) :
    ∃ c, Does (f.grant payload) b (payload.map b.region.address, f) c ∧ c.region = b.region ∧
      f.Secure c bs := by
  cases payload with
  | none => exact ⟨b, does_pure _ b, rfl, h⟩
  | some o =>
    obtain ⟨d, hd, rfl⟩ := hPayload o rfl
    have hMem := List.mem_of_mem_filter hd
    have hr := h.represents.anchored (h.represents.ready_of_mem hMem)
    have hAligned := hr.aligned
    obtain ⟨-, hMod, -, hEnd⟩ := h.represents.bounds hMem
    have hUsable := h.represents.usableSize_eq hMem
    have hRound : b.region.address d.payload % alignment.value = 0 := by
      change b.region.anchor % 16 = 0 at hAligned
      rw [Region.address, alignment_value]
      omega
    refine ⟨b.yield (b.region.address d.payload) d.size, ?_, rfl, h.yield hd⟩
    have hPointer := does_pointer (b := b) (o := d.payload) hr (by
      change _ ≤ b.region.size at hEnd
      omega)
    have hYield : Does (f.yield (b.region.address d.payload)) b ⟨⟩
        (b.yield (b.region.address d.payload) d.size) := by
      rw [← hUsable]
      rfl
    exact hPointer.bind (.ensured hRound (hYield.bind (does_pure _ _)))

theorem Secure.does_allocate (h : f.Secure b bs) (n : Nat) : ∃ g c cs,
    Does (f.allocate n) b (((f.heap b).allocate n).value.1, g) c ∧
      g.heap c = ((f.heap b).allocate n).value.2 ∧ g.Secure c cs := by
  obtain ⟨f₁, b₁, hPrepare, hHeap₁, hSecure₁⟩ := h.does_prepare
  rw [Heap.value_allocate, ← hHeap₁]
  cases hReady : f₁.ready with
  | false =>
    refine ⟨f₁, b₁, bs, hPrepare.bind ?_, ?_, hSecure₁⟩
    · simp only [hReady, ready_heap, Bool.false_eq_true, if_false]
      exact does_pure _ b₁
    · simp only [hReady, ready_heap, Bool.false_eq_true, if_false]
  | true =>
    obtain ⟨g, b₂, cs, hCarve, hHeap, hSecure⟩ := hSecure₁.does_carve hReady n
    obtain ⟨payload, s, ds, hValue, hServed, hr, -⟩ := hSecure₁.represents.carve hReady n
    rw [hValue] at hCarve hHeap
    obtain rfl : cs = ds := hSecure.eq_of_represents (hHeap ▸ hr)
    obtain ⟨c, hGrant, hRegion, hGranted⟩ := hSecure.does_grant payload (by
      rintro o ho
      cases hServed with
      | refused _ => cases ho
      | @granted _ d _ hHeld =>
        obtain rfl := Option.some.inj ho
        exact ⟨d, hHeld.mem_iff.mpr List.mem_cons_self, rfl⟩)
    have hSame : g.heap c = g.heap b₂ := by rw [heap, heap, hRegion]
    refine ⟨g, c, cs, hPrepare.bind ?_, ?_, hGranted⟩
    · simp only [hReady, ready_heap, if_true, hValue, ← hHeap]
      exact hCarve.bind hGrant
    · simp only [hReady, ready_heap, if_true, hValue, hSame, hHeap]

theorem Secure.does_release (h : f.Secure b bs) (hd : d ∈ held bs) : ∃ c cs,
    Does (f.release d.payload) b ⟨⟩ c ∧ f.heap c = ((f.heap b).release d.payload).value ∧
      f.Secure c cs := by
  cases h with
  | bare => cases hd
  | @implicit span b cs h =>
    rw [held_map Implicit.allocated_block] at hd
    obtain ⟨x, hx, rfl⟩ := List.mem_map.mp hd
    obtain ⟨hMem, hFlag⟩ := List.mem_filter.mp hx
    obtain ⟨xs, ys, rfl⟩ := List.append_of_mem hMem
    obtain ⟨c, ds, hDoes, hRegion, hSecure⟩ := h.does_deallocate hFlag
    refine ⟨c, _, hDoes, ?_, .implicit hSecure⟩
    rw [heap, hRegion]
    rfl
  | @explicit b cs ns h =>
    rw [held_map Explicit.allocated_block] at hd
    obtain ⟨x, hx, rfl⟩ := List.mem_map.mp hd
    obtain ⟨hMem, hFlag⟩ := List.mem_filter.mp hx
    obtain ⟨xs, ys, rfl⟩ := List.append_of_mem hMem
    obtain ⟨c, ds, ms, hDoes, hRegion, hSecure⟩ := h.does_deallocate hFlag
    refine ⟨c, _, hDoes, ?_, .explicit hSecure⟩
    rw [heap, hRegion]
    rfl

theorem Secure.does_offsetOf (h : f.Secure b bs) (hd : d ∈ bs) :
    Does (offsetOf (b.region.address d.payload)) b d.payload b := by
  have hr := h.represents.anchored (h.represents.ready_of_mem hd)
  obtain ⟨-, -, -, hEnd⟩ := h.represents.bounds hd
  refine Watched.does_offsetOf hr ?_
  change _ ≤ b.region.size at hEnd
  omega

theorem Secure.does_free (h : f.Secure b bs) (hd : d ∈ held bs) : ∃ c cs,
    Does (f.free (some (b.region.address d.payload))) b ⟨⟩ c ∧
      f.heap c = ((f.heap b).free (some (b.region.address d.payload))).value ∧ f.Secure c cs := by
  have hMem := List.mem_of_mem_filter hd
  obtain ⟨c, cs, hRelease, hHeap, hSecure⟩ := h.does_release hd
  refine ⟨c, cs, .ensured (h.represents.ready_of_mem hMem)
    ((h.does_offsetOf hMem).bind hRelease), ?_, hSecure⟩
  rw [hHeap]
  simp only [Heap.free, Journaled.value_bind, region_heap, Heap.offset_address]

theorem Secure.does_usableSize (h : f.Secure b bs) (hd : d ∈ bs) :
    Does (f.usableSize (b.region.address d.payload)) b
      ((f.heap b).usableSize (b.region.address d.payload)) b := by
  have hUsable := h.represents.usableSize_eq hd
  have hOffset := h.does_offsetOf hd
  change (f.heap b).usableSize (b.region.address d.payload) = d.size at hUsable
  rw [hUsable]
  refine hOffset.bind ?_
  cases h with
  | bare => cases hd
  | implicit h =>
    obtain ⟨x, hx, rfl⟩ := List.mem_map.mp hd
    exact h.does_capacity hx
  | explicit h =>
    obtain ⟨x, hx, rfl⟩ := List.mem_map.mp hd
    exact h.kept.does_capacity hx

theorem Secure.does_within (h : f.Secure b bs) (hd : d ∈ bs) (hCount : n ≤ d.size) :
    Does (within (b.region.address d.payload) n) b ⟨⟩ b := by
  obtain ⟨-, -, -, hEnd⟩ := h.represents.bounds hd
  change _ ≤ b.region.size at hEnd
  refine (does_get b).bind (does_ensure ?_ _ b)
  unfold Region.address
  omega

/-- Changes to the payload of a held block, and to nothing else, are none of the heap's concern. -/
theorem Secure.mapMemory (h : f.Secure b bs) (hd : d ∈ held bs) {u : Memory → Memory}
    (hu : b.region.arena.memory.Agree (fun x => ¬ d.At b.region.anchor x)
      (u b.region.arena.memory)) :
    f.Secure { b with region := b.region.mapMemory u } bs :=
  h.of_client (Region.keeps_mapMemory (hu.mono fun _ hx hIn => hx ⟨d, hd, hIn⟩))
    fun _ _ hOwn => hOwn

theorem Secure.does_clear (h : f.Secure b bs) (hd : d ∈ held bs) (hCount : n ≤ d.size) :
    ∃ c, Does (clear (b.region.address d.payload) n) b ⟨⟩ c ∧
      f.heap c = (f.heap b).mapMemory (·.fill (b.region.address d.payload) n 0) ∧
      f.Secure c bs :=
  ⟨_, (h.does_within (List.mem_of_mem_filter hd) hCount).bind rfl, rfl,
    h.mapMemory hd ((Memory.agree_fill _ _ _ _).of_payload hCount)⟩

theorem Secure.does_copy (h : f.Secure b bs) {e : Block} {ds : List Block}
    (hHeld : (held bs).Perm (e :: ds)) (hd : d ∈ ds) (hSource : n ≤ d.size)
    (hTarget : n ≤ e.size) :
    ∃ c, Does (copy (b.region.address d.payload) (b.region.address e.payload) n) b ⟨⟩ c ∧
      f.heap c = (f.heap b).mapMemory
        (·.copy (b.region.address d.payload) (b.region.address e.payload) n) ∧
      f.Secure c bs := by
  have hMemSource := hHeld.mem_iff.mpr (List.mem_cons_of_mem e hd)
  have hMemTarget := hHeld.mem_iff.mpr (List.mem_cons_self (a := e) (l := ds))
  have hApart := (List.pairwise_cons.mp (h.represents.disjoint hHeld)).1 d hd
  refine ⟨_, (h.does_within (List.mem_of_mem_filter hMemSource) hSource).bind
    ((h.does_within (List.mem_of_mem_filter hMemTarget) hTarget).bind (.ensured ?_ rfl)), rfl,
    h.mapMemory hMemTarget ((Memory.agree_copy _ _ _ _).of_payload hTarget)⟩
  unfold Region.address
  omega

theorem Secure.does_zeroAllocate (h : f.Secure b bs) (count n : Nat) : ∃ g c cs,
    Does (f.zeroAllocate count n) b (((f.heap b).zeroAllocate count n).value.1, g) c ∧
      g.heap c = ((f.heap b).zeroAllocate count n).value.2 ∧ g.Secure c cs := by
  unfold zeroAllocate
  rcases Nat.lt_or_ge (count * n) wordLimit with hLt | hLimit
  · obtain ⟨g, b₁, cs, hAllocate, hHeap, hSecure⟩ := h.does_allocate (count * n)
    obtain ⟨payload, s, ds, hValue, hServed, hr, -⟩ := h.represents.allocate (count * n)
    rw [hValue] at hAllocate hHeap
    rw [if_neg (Nat.not_le.mpr hLt), Heap.value_zeroAllocate hLt hValue]
    obtain rfl : cs = ds := hSecure.eq_of_represents (hHeap ▸ hr)
    cases hServed with
    | refused _ => exact ⟨g, b₁, cs, hAllocate.bind (does_pure _ b₁), hHeap, hSecure⟩
    | @granted _ d hEnough hHeld =>
      subst hHeap
      obtain ⟨c, hClear, hHeap, hCleared⟩ :=
        hSecure.does_clear (hHeld.mem_iff.mpr List.mem_cons_self) hEnough
      exact ⟨g, c, cs, hAllocate.bind (hClear.bind (does_pure _ c)), hHeap, hCleared⟩
  · rw [if_pos hLimit, Heap.value_zeroAllocate_of_le hLimit]
    exact ⟨f, b, bs, does_pure _ b, rfl, h⟩

theorem Secure.does_reallocate (h : f.Secure b bs) (hd : d ∈ held bs) (n : Nat) : ∃ g c cs,
    Does (f.reallocate (some (b.region.address d.payload)) n) b
        (((f.heap b).reallocate (some (b.region.address d.payload)) n).value.1, g) c ∧
      g.heap c = ((f.heap b).reallocate (some (b.region.address d.payload)) n).value.2 ∧
      g.Secure c cs := by
  unfold reallocate
  by_cases hZero : n = 0
  · obtain ⟨c, cs, hFree, hHeap, hSecure⟩ := h.does_free hd
    subst hZero
    exact ⟨f, c, cs, hFree.bind (does_pure _ c), hHeap, hSecure⟩
  · have hMem := List.mem_of_mem_filter hd
    have hUsable := h.does_usableSize hMem
    have hSize := h.represents.usableSize_eq hMem
    obtain ⟨g, b₁, cs, hAllocate, hHeap, hSecure⟩ := h.does_allocate n
    obtain ⟨payload, s, ds, hValue, hServed, hr, hEvolves⟩ := h.represents.allocate n
    rw [hValue] at hAllocate hHeap
    simp only [if_neg hZero, Heap.value_reallocate hZero hValue]
    obtain rfl : cs = ds := hSecure.eq_of_represents (hHeap ▸ hr)
    cases hServed with
    | refused _ =>
      exact ⟨g, b₁, cs, hUsable.bind (hAllocate.bind (does_pure _ b₁)), hHeap, hSecure⟩
    | @granted _ e hEnough hHeld =>
      subst hHeap
      have hAddress : b.region.address d.payload = b₁.region.address d.payload := by
        have hAnchor : b₁.region.anchor = b.region.anchor :=
          (hEvolves.region (h.represents.ready_of_mem hMem)).anchor_eq
        rw [Region.address, Region.address, hAnchor]
      rw [region_heap] at hSize
      rw [hSize] at hUsable ⊢
      rw [hAddress] at hUsable ⊢
      obtain ⟨b₂, hCopy, hHeap₂, hCopied⟩ := hSecure.does_copy hHeld hd
        (n := min d.size n) (Nat.min_le_left _ _) ((Nat.min_le_right _ _).trans hEnough)
      have hHeld₂ : d ∈ held cs := hHeld.mem_iff.mpr (List.mem_cons_of_mem _ hd)
      have hSame : b₂.region.address d.payload = b₁.region.address d.payload :=
        congrArg (·.region.address d.payload) hHeap₂
      obtain ⟨c, ds, hFree, hHeap, hFreed⟩ := hCopied.does_free hHeld₂
      rw [hSame] at hFree hHeap
      refine ⟨g, c, ds, hUsable.bind (hAllocate.bind (hCopy.bind (hFree.bind (does_pure _ c)))), ?_,
        hFreed⟩
      rw [hHeap, hHeap₂]
      rfl

theorem Secure.blocks_eq (h : f.Secure b bs) :
    (f.heap b).blocks = bs.map fun d => { d with payload := b.region.address d.payload } := by
  rw [Heap.blocks, h.represents.blockOffsets_eq]
  rfl

theorem Secure.does_blocks (h : f.Secure b bs) : Does f.blocks b (f.heap b).blocks b := by
  have hBlocks := h.blocks_eq
  have hRounds : (f.heap b).blocks.length = bs.length := by rw [hBlocks, List.length_map]
  unfold blocks
  refine (does_get b).bind ?_
  rw [hRounds, hBlocks]
  cases h with
  | bare => exact does_pure _ b
  | @implicit span _ cs h =>
    simp only [if_true, List.length_map, List.map_map]
    cases span with
    | none =>
      obtain rfl := h.eq_nil
      exact does_walk_none _ _ _ b
    | some s =>
      obtain ⟨first, last⟩ := s
      obtain ⟨rfl, hTail⟩ := h.tail
      have hWalk := h.does_walk hTail (fun _ hx => hx) (le_refl cs.length)
      rw [← hTail.cursor_eq, if_pos (hTail.le_last_iff.mpr h.ne_nil)] at hWalk
      exact hWalk
  | @explicit _ cs ns h =>
    simp only [if_true, List.length_map, List.map_map]
    have hAll : Watched.Explicit.Secure b ([] ++ cs) ns := h
    exact h.does_firstBlock.bind (hAll.does_walk (le_refl cs.length))

end Front

end BlockHeap
