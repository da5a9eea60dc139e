import BlockHeap.Proofs.Ledger.Basic
import BlockHeap.Proofs.Session.Refusal

/-!
# Ledgers abreast

Two ledgers are abreast if they differ in nothing but where they are: what is some bytes from `a` on
in the one is as many bytes from `a'` on in the other. They have `b` and `b'` bytes left from there
on. Requests at the same distances are served alike, as long as there is no difference between `b`
and `b'`, or the fewer of these are enough.
-/

namespace BlockHeap

/-- With more room, books serve the same as before, unless there was too little. -/
theorem Implicit.Books.allocate_of_le (b : Books) {room room' n : Nat} (hLe : room ≤ room')
    (hEnough : (b.allocate room n).1 = none → wordLimit ≤ Strategy.implicit.need n) :
    b.allocate room' n = b.allocate room n := by
  unfold Strategy.need at hEnough
  unfold allocate at *
  simp only at *
  split
  · rfl
  · rename_i hNeed
    rw [if_neg hNeed] at hEnough
    generalize List.span _ _ = found at hEnough ⊢
    obtain ⟨before, after⟩ := found
    cases after with
    | cons t after => rfl
    | nil =>
      simp only at *
      by_cases hRoom : (n + 8 + 15) / 16 * 16 ≤ room
      · rw [if_pos hRoom, if_pos (hRoom.trans hLe)]
      · rw [if_neg hRoom] at hEnough
        exact (hNeed (hEnough rfl)).elim

theorem Explicit.Books.allocate_of_le (b : Books) {room room' n : Nat} (hLe : room ≤ room')
    (hEnough : (b.allocate room n).1 = none → wordLimit ≤ Strategy.explicit.need n) :
    b.allocate room' n = b.allocate room n := by
  unfold Strategy.need at hEnough
  unfold allocate at *
  simp only at *
  split
  · rfl
  · rename_i hNeed
    rw [if_neg hNeed] at hEnough
    cases hFit : b.fit? (max ((n + 15) / 16 * 16) 16) with
    | some c => rfl
    | none =>
      simp only [hFit] at hEnough ⊢
      by_cases hRoom : max ((n + 15) / 16 * 16) 16 + 16 < wordLimit ∧
          max ((n + 15) / 16 * 16) 16 + 16 ≤ room
      · rw [if_pos hRoom, if_pos ⟨hRoom.1, hRoom.2.trans hLe⟩]
      · rw [if_neg hRoom] at hEnough
        have hLimit := hEnough rfl
        rw [if_neg hRoom, if_neg fun h => hLimit.not_gt h.1]

namespace Books

def strategy : Books → Strategy
  | .implicit _ => .implicit
  | .explicit _ => .explicit

@[simp] theorem strategy_empty (s : Strategy) : (empty s).strategy = s := by
  cases s <;> rfl

@[simp] theorem strategy_allocate (b : Books) (room n : Nat) :
    (b.allocate room n).2.strategy = b.strategy := by
  cases b <;> rfl

@[simp] theorem strategy_free (b : Books) (payload : Nat) :
    (b.free payload).strategy = b.strategy := by
  cases b <;> rfl

theorem allocate_of_le (b : Books) {room room' n : Nat} (hLe : room ≤ room')
    (hEnough : (b.allocate room n).1 = none → wordLimit ≤ b.strategy.need n) :
    b.allocate room' n = b.allocate room n := by
  cases b with
  | implicit b =>
    have hSame := b.allocate_of_le hLe hEnough
    unfold allocate
    simp only [hSame]
  | explicit b =>
    have hSame := b.allocate_of_le hLe hEnough
    unfold allocate
    simp only [hSame]

end Books

namespace Request

def shift (f : Nat → Nat) : Request → Request
  | .free pointer => .free (pointer.map f)
  | .reallocate pointer n => .reallocate (pointer.map f) n
  | .write address bytes => .write (f address) bytes
  | q => q

/-- Whether a heap, ready or not, is laid out while it serves the request. -/
def laysOut (ready : Bool) : Request → Bool
  | .layOut => true
  | .allocate _ => !ready
  | .zeroAllocate count n => !ready && count * n < wordLimit
  | .reallocate pointer n => !ready && (pointer.isNone || n != 0)
  | _ => false

@[simp] theorem laysOut_shift (f : Nat → Nat) (ready : Bool) (q : Request) :
    (q.shift f).laysOut ready = q.laysOut ready := by
  cases q with
  | reallocate pointer n => cases pointer <;> rfl
  | _ => rfl

end Request

namespace Ledger

def next (l : Ledger) : Nat := (l.mark + 15) / 16 * 16

structure Abreast (a a' b b' : Nat) (l l' : Ledger) : Prop where
  aligned : a % 16 = 0 ∧ a' % 16 = 0
  le : b ≤ b'
  strategy_eq : l'.strategy = l.strategy
  limit_eq : l.limit = a + b ∧ l'.limit = a' + b'
  next_eq : ∃ k, l.next = a + k ∧ l'.next = a' + k
  heap_eq : (l.heap = none ∧ l'.heap = none) ∨ ∃ k j books, l.heap = some (a + k, books) ∧
    l'.heap = some (a' + k, books) ∧ l.mark = a + j ∧ l'.mark = a' + j ∧
    books.strategy = l.strategy

variable {a a' b b' n : Nat} {l l' : Ledger}

theorem next_of_mark {j : Nat} (ha : a % 16 = 0) (hMark : l.mark = a + j) :
    l.next = a + (j + 15) / 16 * 16 := by
  rw [next, hMark]
  omega

theorem Abreast.of_marks (h : Abreast a a' b b' l l') {m m' : Ledger} {j : Nat}
    (hStrategy : m.strategy = l.strategy ∧ m'.strategy = l'.strategy)
    (hLimit : m.limit = l.limit ∧ m'.limit = l'.limit)
    (hMark : m.mark = a + j ∧ m'.mark = a' + j)
    (hHeap : (m.heap = none ∧ m'.heap = none) ∨ ∃ k books, m.heap = some (a + k, books) ∧
      m'.heap = some (a' + k, books) ∧ books.strategy = l.strategy) :
    Abreast a a' b b' m m' where
  aligned := h.aligned
  le := h.le
  strategy_eq := hStrategy.2.trans (h.strategy_eq.trans hStrategy.1.symm)
  limit_eq := ⟨hLimit.1.trans h.limit_eq.1, hLimit.2.trans h.limit_eq.2⟩
  next_eq := ⟨_, next_of_mark h.aligned.1 hMark.1, next_of_mark h.aligned.2 hMark.2⟩
  heap_eq := hHeap.imp_right fun ⟨k, books, hm, hm', hBooks⟩ =>
    ⟨k, j, books, hm, hm', hMark.1, hMark.2, hBooks.trans hStrategy.1.symm⟩

theorem layOut_of_cramped (hOver : l.limit < l.next) : l.layOut = { l with heap := none } :=
  if_pos hOver

theorem layOut_of_short (hRoom : l.next ≤ l.limit)
    (hOver : l.limit < l.next + (Books.empty l.strategy).size) :
    l.layOut = { l with mark := l.next, heap := none } :=
  (if_neg hRoom.not_gt).trans (if_pos hOver)

theorem layOut_of_le (hRoom : l.next + (Books.empty l.strategy).size ≤ l.limit) :
    l.layOut = { l with
      mark := l.next + (Books.empty l.strategy).size
      heap := some (l.next, Books.empty l.strategy) } :=
  (if_neg (by unfold next at hRoom; omega)).trans (if_neg hRoom.not_gt)

theorem Abreast.layOut (h : Abreast a a' b b' l l') (hEnough : b = b' ∨ l.layOut.heap ≠ none) :
    Abreast a a' b b' l.layOut l'.layOut := by
  obtain ⟨k, hNext, hNext'⟩ := h.next_eq
  obtain ⟨hLimit, hLimit'⟩ := h.limit_eq
  have hLe := h.le
  have hStrategy := h.strategy_eq
  rcases Nat.lt_or_ge l.limit l.next with hOver | hRoom
  · rw [layOut_of_cramped hOver] at hEnough ⊢
    have hSame : b = b' := hEnough.resolve_right fun hNot => hNot rfl
    rw [layOut_of_cramped (l := l') (by omega)]
    exact ⟨h.aligned, h.le, hStrategy, h.limit_eq, h.next_eq, .inl ⟨rfl, rfl⟩⟩
  rcases Nat.lt_or_ge l.limit (l.next + (Books.empty l.strategy).size) with hOver | hRoom'
  · rw [layOut_of_short hRoom hOver] at hEnough ⊢
    have hSame : b = b' := hEnough.resolve_right fun hNot => hNot rfl
    rw [layOut_of_short (l := l') (by omega) (by rw [hStrategy]; omega)]
    exact h.of_marks ⟨rfl, rfl⟩ ⟨rfl, rfl⟩ ⟨hNext, hNext'⟩ (.inl ⟨rfl, rfl⟩)
  · rw [layOut_of_le hRoom', layOut_of_le (l := l') (by rw [hStrategy]; omega), hStrategy, hNext,
      hNext']
    exact h.of_marks ⟨rfl, hStrategy.symm⟩ ⟨rfl, rfl⟩ ⟨Nat.add_assoc _ _ _, Nat.add_assoc _ _ _⟩
      (.inr ⟨k, _, rfl, rfl, Books.strategy_empty _⟩)

theorem Abreast.isSome_eq (h : Abreast a a' b b' l l') : l'.heap.isSome = l.heap.isSome := by
  rcases h.heap_eq with ⟨hNone, hNone'⟩ | ⟨k, j, books, hHeap, hHeap', -⟩
  · rw [hNone, hNone']
  · rw [hHeap, hHeap']
    rfl

theorem Abreast.prepare (h : Abreast a a' b b' l l') (hEnough : b = b' ∨ l.prepare.heap ≠ none) :
    Abreast a a' b b' l.prepare l'.prepare := by
  unfold Ledger.prepare at *
  rw [h.isSome_eq]
  cases hHeap : l.heap.isSome with
  | true => exact h
  | false =>
    rw [hHeap] at hEnough
    exact h.layOut hEnough

theorem strategy_layOut (l : Ledger) : l.layOut.strategy = l.strategy := by
  unfold layOut
  simp only
  split
  · rfl
  · split <;> rfl

@[simp] theorem strategy_prepare (l : Ledger) : l.prepare.strategy = l.strategy := by
  unfold prepare
  split
  · rfl
  · exact l.strategy_layOut

theorem Abreast.allocate (h : Abreast a a' b b' l l') (n : Nat)
    (hEnough : b = b' ∨ l.prepare.heap ≠ none ∧
      ((l.allocate n).1 = none → wordLimit ≤ l.strategy.need n)) :
    ∃ o : Option Nat, (l.allocate n).1 = o.map (a + ·) ∧ (l'.allocate n).1 = o.map (a' + ·) ∧
      Abreast a a' b b' (l.allocate n).2 (l'.allocate n).2 := by
  have hPrepared := h.prepare (hEnough.imp_right And.left)
  obtain ⟨hLimit, hLimit'⟩ := hPrepared.limit_eq
  have hLe := h.le
  unfold Ledger.allocate at *
  rcases hPrepared.heap_eq with ⟨hNone, hNone'⟩ |
    ⟨k, j, books, hHeap, hHeap', hMark, hMark', hBooks⟩
  · simp only [hNone, hNone']
    exact ⟨none, rfl, rfl, hPrepared⟩
  · simp only [hHeap, hHeap', hLimit, hLimit', hMark, hMark', Nat.add_sub_add_left] at hEnough ⊢
    have hServed : books.allocate (b' - j) n = books.allocate (b - j) n := by
      rcases hEnough with rfl | ⟨-, hEnough⟩
      · rfl
      · refine books.allocate_of_le (by omega) fun hNone => ?_
        rw [hBooks, strategy_prepare]
        exact hEnough (by rw [hNone]; rfl)
    rw [hServed]
    refine ⟨(books.allocate (b - j) n).1.map (k + ·), ?_, ?_, ?_⟩
    · simp [Nat.add_assoc, Function.comp_def]
    · simp [Nat.add_assoc, Function.comp_def]
    · refine hPrepared.of_marks ⟨rfl, rfl⟩ ⟨hLimit.symm, hLimit'.symm⟩
        ⟨Nat.add_assoc _ _ _, Nat.add_assoc _ _ _⟩ (.inr ⟨k, _, rfl, rfl, ?_⟩)
      rw [Books.strategy_allocate, hBooks]

theorem Abreast.free (h : Abreast a a' b b' l l') (o : Nat) :
    Abreast a a' b b' (l.free (a + o)) (l'.free (a' + o)) := by
  refine ⟨h.aligned, h.le, h.strategy_eq, h.limit_eq, h.next_eq, ?_⟩
  unfold Ledger.free
  rcases h.heap_eq with ⟨hNone, hNone'⟩ | ⟨k, j, books, hHeap, hHeap', hMark, hMark', hBooks⟩
  · simp only [hNone, hNone']
    exact .inl ⟨rfl, rfl⟩
  · simp only [hHeap, hHeap', Option.map_some, Nat.add_sub_add_left]
    exact .inr ⟨k, j, _, rfl, rfl, hMark, hMark', (books.strategy_free _).trans hBooks⟩

/-- There is no room for a layout that the request needs, or none for its bytes. -/
def Exhausts (l : Ledger) (q : Request) : Prop :=
  (q.laysOut l.heap.isSome = true ∧ l.layOut.heap = none) ∨
    ∃ n ∈ q.demand?, l.strategy.need n < wordLimit ∧ (l.serve q).1 = none

theorem enough_of_not_exhausts {q : Request} (hNot : ¬ l.Exhausts q) (hDemand : q.demand? = some n)
    (hLaysOut : q.laysOut l.heap.isSome = !l.heap.isSome)
    (hServe : (l.serve q).1 = none ↔ (l.allocate n).1 = none) : l.prepare.heap ≠ none ∧
      ((l.allocate n).1 = none → wordLimit ≤ l.strategy.need n) := by
  refine ⟨fun hNone => hNot (.inl ?_), fun hNone => ?_⟩
  · unfold prepare at hNone
    cases hHeap : l.heap.isSome with
    | true =>
      rw [hHeap, if_pos rfl] at hNone
      rw [hNone] at hHeap
      cases hHeap
    | false =>
      rw [hHeap, if_neg Bool.false_ne_true] at hNone
      rw [hHeap] at hLaysOut
      exact ⟨hLaysOut, hNone⟩
  · by_contra hLt
    exact hNot (.inr ⟨n, hDemand, Nat.lt_of_not_le hLt, hServe.mpr hNone⟩)

/-- Requests at the same distances are answered at the same distance. -/
theorem Abreast.serve (h : Abreast a a' b b' l l') (r : Request)
    (hEnough : b = b' ∨ ¬ l.Exhausts (r.shift (a + ·))) : ∃ o : Option Nat,
      (l.serve (r.shift (a + ·))).1 = o.map (a + ·) ∧
      (l'.serve (r.shift (a' + ·))).1 = o.map (a' + ·) ∧
      Abreast a a' b b' (l.serve (r.shift (a + ·))).2 (l'.serve (r.shift (a' + ·))).2 := by
  cases r with
  | layOut =>
    exact ⟨none, rfl, rfl, h.layOut (hEnough.imp_right fun hNot hNone => hNot (.inl ⟨rfl, hNone⟩))⟩
  | allocate n =>
    exact h.allocate n (hEnough.imp_right fun hNot => enough_of_not_exhausts hNot rfl rfl Iff.rfl)
  | zeroAllocate count n =>
    unfold Request.shift Ledger.serve at *
    simp only at *
    by_cases hLimit : wordLimit ≤ count * n
    · simp only [if_pos hLimit]
      exact ⟨none, rfl, rfl, h⟩
    · simp only [if_neg hLimit]
      exact h.allocate _ (hEnough.imp_right fun hNot => enough_of_not_exhausts hNot rfl
        (by simp [Request.laysOut, Nat.lt_of_not_le hLimit])
        (by simp [Ledger.serve, hLimit]))
  | free pointer =>
    cases pointer with
    | none => exact ⟨none, rfl, rfl, h⟩
    | some o => exact ⟨none, rfl, rfl, h.free o⟩
  | reallocate pointer n =>
    cases pointer with
    | none =>
      exact h.allocate n (hEnough.imp_right fun hNot => enough_of_not_exhausts hNot rfl
        (by simp [Request.laysOut, Request.shift]) Iff.rfl)
    | some o =>
      by_cases hZero : n = 0
      · subst hZero
        exact ⟨none, rfl, rfl, h.free o⟩
      · have hServe := serve_reallocate (l := l) (p := a + o) hZero
        have hServe' := serve_reallocate (l := l') (p := a' + o) hZero
        have hDemand : (Request.reallocate (some (a + o)) n).demand? = some n := if_neg hZero
        have hLaysOut : (Request.reallocate (some (a + o)) n).laysOut l.heap.isSome =
            !l.heap.isSome := by simp [Request.laysOut, hZero]
        obtain ⟨target, hAnswer, hAnswer', hNext⟩ := h.allocate n (hEnough.imp_right fun hNot =>
          enough_of_not_exhausts hNot hDemand hLaysOut (by
            show (l.serve (.reallocate (some (a + o)) n)).1 = none ↔ _
            rw [hServe]))
        refine ⟨target, ?_⟩
        show (l.serve (.reallocate (some (a + o)) n)).1 = _ ∧
          (l'.serve (.reallocate (some (a' + o)) n)).1 = _ ∧
          Abreast a a' b b' (l.serve (.reallocate (some (a + o)) n)).2
            (l'.serve (.reallocate (some (a' + o)) n)).2
        rw [hServe, hServe', hAnswer, hAnswer']
        cases target with
        | none => exact ⟨rfl, rfl, hNext⟩
        | some target => exact ⟨rfl, rfl, hNext.free o⟩
  | write address bytes => exact ⟨none, rfl, rfl, h⟩

end Ledger

end BlockHeap
