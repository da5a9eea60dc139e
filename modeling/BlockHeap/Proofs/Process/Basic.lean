import BlockHeap.Allocator
import BlockHeap.Proofs.Process.Exchange

/-!
# Services

A client makes calls to the process-wide heap. The same calls can be made to a heap of its own,
where each of them is the operation of that name. What the client has to keep to is the same in both
cases: it names no pointers but those that it holds, and all that it holds is gone once the heap is
laid out, or made, anew.
-/

namespace BlockHeap

structure Service (σ : Type) where
  serve : σ → Call → Reply Nat × σ
  usable : σ → Nat → Nat

structure Client (σ : Type) where
  state : σ
  live : List Nat := []

namespace Service

variable {σ τ : Type} (S : Service σ) (T : Service τ)

def Lawful (s : Client σ) (c : Call) : Prop := c.Lawful s.live (S.usable s.state)

def reply (s : Client σ) (c : Call) : Reply Nat := (S.serve s.state c).1

def step (s : Client σ) (c : Call) : Client σ where
  state := (S.serve s.state c).2
  live := (S.reply s c).granted.toList ++ s.live.filter fun p => !c.ends (S.reply s c).granted p

inductive Run : Client σ → List Exchange → Client σ → Prop where
  | nil (s : Client σ) : Run s [] s
  | cons {s t : Client σ} {c : Call} {es : List Exchange} :
      S.Lawful s c → Run (S.step s c) es t → Run s (⟨c, S.reply s c⟩ :: es) t

/-- Until the next reset, the second service serves whatever the first one does, and replies the
same. -/
def Simulates (R : Client σ → Client τ → Prop) : Prop :=
  ∀ s t c, R s t → c ≠ .ask .layOut → S.Lawful s c →
    T.Lawful t c ∧ T.reply t c = S.reply s c ∧ R (S.step s c) (T.step t c)

variable {S T} {R : Client σ → Client τ → Prop} {s u : Client σ} {t : Client τ} {c : Call}
  {r : Reply Nat} {es fs : List Exchange}

theorem Run.cons_of_reply (hLawful : S.Lawful s c) (hReply : S.reply s c = r)
    (hRest : S.Run (S.step s c) es u) : S.Run s (⟨c, r⟩ :: es) u :=
  hReply ▸ .cons hLawful hRest

theorem Run.simulate (hRun : S.Run s es u) (hSimulates : S.Simulates T R)
    (hSince : ∀ e ∈ es, e.call ≠ .ask .layOut) (hR : R s t) : ∃ v, T.Run t es v ∧ R u v := by
  induction hRun generalizing t with
  | nil s => exact ⟨t, .nil t, hR⟩
  | @cons s u c es hLawful _ ih =>
    obtain ⟨hHead, hTail⟩ := List.forall_mem_cons.mp hSince
    obtain ⟨hLawful', hReply, hNext⟩ := hSimulates s t c hR hHead hLawful
    obtain ⟨v, hRest, hEnd⟩ := ih hTail hNext
    exact ⟨v, .cons_of_reply hLawful' hReply hRest, hEnd⟩

theorem step_of_nil (S : Service σ) (state : σ) (c : Call) : S.step ⟨state, []⟩ c =
    ⟨(S.serve state c).2, (S.serve state c).1.granted.toList⟩ :=
  congrArg (Client.mk _) (List.append_nil _)

theorem Run.split (hRun : S.Run s (es ++ fs) u) : ∃ t, S.Run s es t ∧ S.Run t fs u := by
  induction es generalizing s with
  | nil => exact ⟨s, .nil s, hRun⟩
  | cons e es ih =>
    cases hRun with
    | cons hLawful hRest =>
      obtain ⟨t, hFirst, hSecond⟩ := ih hRest
      exact ⟨t, .cons hLawful hFirst, hSecond⟩

end Service

def Heap.serve (h : Heap) : Call → Reply Nat × Heap
  | .ask .layOut => (.status (if h.layOut.value.1.isOk then 0 else -1), h.layOut.value.2)
  | .ask (.allocate n) => (h.allocate n).value.map .pointer id
  | .ask (.zeroAllocate count n) => (h.zeroAllocate count n).value.map .pointer id
  | .ask (.reallocate pointer n) => (h.reallocate pointer n).value.map .pointer id
  | .ask (.free pointer) => (.nothing, (h.free pointer).value)
  | .ask (.write address bytes) => (.nothing, h.mapMemory (·.write address bytes))
  | .usableSize pointer => (.size (pointer.elim 0 h.usableSize), h)
  | .checkHeap _ => (.status (if h.check.value.isOk then 0 else -1), h)

def Heap.service : Service Heap := ⟨Heap.serve, Heap.usableSize⟩

namespace ProcessHeap

def serve (p : ProcessHeap) : Call → Reply Nat × ProcessHeap
  | .ask .layOut => p.reset.value.map .status id
  | .ask (.allocate n) => (p.malloc n).value.map .pointer id
  | .ask (.zeroAllocate count n) => (p.calloc count n).value.map .pointer id
  | .ask (.reallocate pointer n) => (p.realloc pointer n).value.map .pointer id
  | .ask (.free pointer) => (.nothing, (p.free pointer).value)
  | .ask (.write address bytes) => (.nothing, p.mapMemory (·.write address bytes))
  | .usableSize pointer => (p.usableSize pointer).map .size id
  | .checkHeap verbose => (.status (p.checkHeap verbose).value, p)

def service : Service ProcessHeap := ⟨serve, fun p pointer => (p.usableSize (some pointer)).1⟩

/-- Where the reservation of the heap starts, or will start once there is a heap. -/
def base? (p : ProcessHeap) : Option Nat := p.ensure.heap.map (·.arena.base)

/-- The platform grants all reservations, at aligned addresses, as those of pages are. -/
def Granted (places : Nat → Option Nat) : Prop :=
  ∀ i, ∃ base ∈ places i, 0 < base ∧ base % 16 = 0 ∧ base + Allocator.defaultCapacity < wordLimit

end ProcessHeap

/-- An arena over a reservation of the usual size, of which nothing has been taken. -/
structure Arena.Fresh (arena : Arena) : Prop where
  size_eq : arena.size = 0
  capacity_eq : arena.capacity = Allocator.defaultCapacity

end BlockHeap
