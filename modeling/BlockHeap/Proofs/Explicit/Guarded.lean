import BlockHeap.Explicit.Check
import BlockHeap.Proofs.Explicit.Layout
import BlockHeap.Proofs.FreeList.Guarded

/-!
# The check of an explicit heap, round by round

The check once more, with each of its reads and sums guarded. Whatever the words of the region are,
it comes to an end, and no guard but one answers a fault: the sum behind a footer overflows if the
footer would be at the last multiple of 16 in the address space.
-/

namespace BlockHeap.Explicit

inductive Point where
  | start
  | block (offset freeBlocks : Nat) (previousFree : Option Nat)
  | list (freeBlocks : Nat) (place : FreeList.Place)
deriving DecidableEq

def fetchFree (r : Region) (node : Nat) : Except Fault Bool := do
  let tag ← r.fetchTag (node - wordSize)
  return !tag.allocated && decide tag.WellSized

def turnStart (r : Region) : Except Fault (Point ⊕ Except HeapError Unit) :=
  if r.size = 0 then return .inr (.ok ())
  else do
    let tag ← r.fetchTag prologue
    if tag ≠ Tag.sentinel then return .inr (.error (.badSentinel prologue))
    else return .inl (.block prologue 0 none)

/-- One round of the walk over the chain. The end of the payload is a sum that is tested before it
is used, so it has no guard. -/
def turnBlock (r : Region) (block freeBlocks : Nat) (previousFree : Option Nat) :
    Except Fault (Point ⊕ Except HeapError Unit) := do
  let header ← plus block wordSize
  let behind ← plus header wordSize
  if r.size < behind then return .inr (.error (.truncatedHeap header r.size))
  else
    let tag ← r.fetchTag header
    if tag.size = 0 then
      if !tag.allocated then return .inr (.error (.badSentinel header))
      else if behind ≠ r.size then return .inr (.error (.truncatedHeap behind r.size))
      else
        let link ← plus freeList.first wordSize
        let oldest ← r.fetch link
        return .inl (.list freeBlocks ⟨0, freeList.first, oldest⟩)
    else if ¬ tag.WellSized then return .inr (.error (.invalidSize block tag.size))
    else
      let payload ← plus block alignment.value
      let address ← plus r.anchor payload
      if alignment.rem address ≠ 0 then return .inr (.error (.misaligned block))
      else
        let footer := payload + tag.size
        if wordLimit ≤ footer then return .inr (.error (.outOfBounds block tag.size r.size))
        else
          let stop ← plus footer (2 * wordSize)
          if r.size < stop then return .inr (.error (.outOfBounds block tag.size r.size))
          else
            let mirror ← r.fetchTag footer
            if mirror ≠ tag then return .inr (.error (.tagMismatch block))
            else if tag.allocated then return .inl (.block footer freeBlocks none)
            else
              match previousFree with
              | some previous => return .inr (.error (.adjacentFree previous))
              | none =>
                let count ← plus freeBlocks 1
                return .inl (.block footer count (some block))

def turn (r : Region) : Point → Except Fault (Point ⊕ Except HeapError Unit)
  | .start => turnStart r
  | .block offset freeBlocks previousFree => turnBlock r offset freeBlocks previousFree
  | .list freeBlocks place =>
    Sum.map (Point.list freeBlocks) id <$>
      freeList.turn r (payload prologue) freeBlocks (fetchFree r) place

/-- Where a block can be that the walk comes to: aligned, with room for its header, and behind more
bytes than free blocks. -/
structure Within (r : Region) (block freeBlocks : Nat) : Prop where
  aligned : block % 16 = 0
  header_le : block + 16 ≤ r.size
  count_le : freeBlocks ≤ block

/-- What a round at a block comes to, next to what the check answers from there: both refuse it,
both are through with the chain, the sum behind the footer overflows, or both pass the block. -/
inductive Round (r : Region) (fuel b freeBlocks : Nat) :
    Except Fault (Point ⊕ Except HeapError Unit) → Except HeapError Nat → Prop where
  | refused {e : HeapError} : e ≠ .overflow →
      Round r fuel b freeBlocks (.ok (.inr (.error e))) (.error e)
  | finished : Round r fuel b freeBlocks
      (.ok (.inl (.list freeBlocks ⟨0, freeList.first, FreeList.next r freeList.first⟩)))
      (.ok freeBlocks)
  | overflowed : payload b + (r.tag (header b)).size = wordLimit - 16 →
      Round r fuel b freeBlocks (.error (.sum (wordLimit - 16) 16)) (.error .overflow)
  | passed {footer count : Nat} {previousFree : Option Nat} : b < footer → Within r footer count →
      Round r fuel b freeBlocks (.ok (.inl (.block footer count previousFree)))
        (checkChain r fuel footer count previousFree)

def Point.Valid (r : Region) : Point → Prop
  | .block offset freeBlocks _ => Within r offset freeBlocks
  | _ => True

/-- The overflow that the check can report is a fault of one sum, and any other verdict is an
answer. -/
def outcome : Except HeapError Unit → Except Fault (Except HeapError Unit)
  | .error .overflow => .error (.sum (wordLimit - 16) 16)
  | verdict => .ok verdict

variable {r : Region} {b freeBlocks fuel : Nat} {previousFree : Option Nat}

theorem Round.ite {c : Prop} [Decidable c] {x y : Except Fault (Point ⊕ Except HeapError Unit)}
    {u v : Except HeapError Nat} (hThen : c → Round r fuel b freeBlocks x u)
    (hElse : ¬ c → Round r fuel b freeBlocks y v) :
    Round r fuel b freeBlocks (if c then x else y) (if c then u else v) := by
  split
  · next h => exact hThen h
  · next h => exact hElse h

theorem Round.guard {c : Prop} [Decidable c] {e : HeapError}
    {y : Except Fault (Point ⊕ Except HeapError Unit)} {v : Except HeapError Nat}
    (hError : e ≠ .overflow) (hElse : ¬ c → Round r fuel b freeBlocks y v) :
    Round r fuel b freeBlocks (if c then .ok (.inr (.error e)) else y)
      (if c then .error e else v) :=
  .ite (fun _ => .refused hError) hElse

/-- At a block that is in the region, the check does what the round does. -/
theorem round_turn (hr : r.Anchored) (hSize : 48 ≤ r.size) (h : Within r b freeBlocks) (fuel : Nat)
    (previousFree : Option Nat) :
    Round r fuel b freeBlocks (turn r (.block b freeBlocks previousFree))
      (checkChain r (fuel + 1) b freeBlocks previousFree) := by
  obtain ⟨hMod, hIn, hCount⟩ := h
  have hEnd := hr.end_lt
  have hWordSize : wordSize = 8 := rfl
  have hHeaderAt := header_eq b
  have hPayloadAt := payload_eq b
  have hHeader : plus b wordSize = pure (header b) := plus_of_lt (by omega)
  have hBehind : plus (header b) wordSize = pure (header b + wordSize) := plus_of_lt (by omega)
  have hTag : r.fetchTag (header b) = pure (r.tag (header b)) :=
    Region.fetchTag_of_le (by omega) (by omega)
  have hLink : plus freeList.first wordSize = pure (freeList.first + wordSize) :=
    plus_of_lt (by decide)
  have hOldest : r.fetch (freeList.first + wordSize) = pure (FreeList.next r freeList.first) :=
    Region.fetch_of_le rfl (Nat.le_trans (Nat.le_add_left 16 32) hSize)
  have hPayload : plus b alignment.value = pure (payload b) :=
    plus_of_lt (by rw [alignment_value]; omega)
  have hAddress : plus r.anchor (payload b) = pure (r.address (payload b)) :=
    plus_of_lt (by omega)
  have hNext : plus freeBlocks 1 = pure (freeBlocks + 1) := plus_of_lt (by omega)
  simp only [turn, turnBlock, checkChain, hHeader, hBehind, hTag, hLink, hOldest, hPayload,
    hAddress, hNext, pure_bind]
  refine .guard HeapError.noConfusion fun _ => .ite (fun _ => ?_) fun _ => ?_
  · exact .guard HeapError.noConfusion fun _ => .guard HeapError.noConfusion fun _ => .finished
  refine .guard HeapError.noConfusion fun hSized => .guard HeapError.noConfusion fun _ => ?_
  refine .guard HeapError.noConfusion fun hWord => ?_
  have hSized' := (Tag.wellSized_iff _).mp (Decidable.not_not.mp hSized)
  have hFooter : (payload b + (r.tag (header b)).size) % 16 = 0 ∧
      b + 32 ≤ payload b + (r.tag (header b)).size := by
    omega
  have hPair : 2 * wordSize = 16 := rfl
  rcases Nat.lt_or_ge (payload b + (r.tag (header b)).size + 2 * wordSize) wordLimit with
    hSum | hSum
  · rw [plus_of_lt hSum, pure_bind, if_neg (Nat.not_le.mpr hSum)]
    refine .guard HeapError.noConfusion fun hStop => ?_
    have hMirror : r.fetchTag (payload b + (r.tag (header b)).size) =
        pure (r.tag (payload b + (r.tag (header b)).size)) :=
      Region.fetchTag_of_le (by omega) (by omega)
    rw [hMirror, pure_bind]
    refine .guard HeapError.noConfusion fun _ => .ite (fun _ => ?_) fun _ => ?_
    · exact .passed (by omega) ⟨hFooter.1, by omega, by omega⟩
    · cases previousFree with
      | some previous => exact .refused HeapError.noConfusion
      | none => exact .passed (by omega) ⟨hFooter.1, by omega, by omega⟩
  · have hLast : payload b + (r.tag (header b)).size = wordLimit - 16 := by
      unfold wordLimit at hWord hSum ⊢
      omega
    rw [plus_of_le hSum, if_pos hSum, hLast]
    exact .overflowed hLast

theorem readable (hr : r.Anchored) (hSize : 48 ≤ r.size) :
    freeList.Readable r (payload prologue) (fetchFree r) (isFreeNode r) where
  last_mod := rfl
  last_le := Nat.le_trans (Nat.le_add_left 24 24) hSize
  size_lt := Nat.lt_of_le_of_lt (Nat.le_add_left _ _) hr.end_lt
  isFree_eq n hn := by
    have hBounds : 48 ≤ n ∧ n % 8 = 0 ∧ n + 16 ≤ r.size := hn
    have hTag : r.fetchTag (n - wordSize) = pure (r.tag (n - wordSize)) :=
      Region.fetchTag_of_le (by unfold wordSize; omega) (by unfold wordSize; omega)
    rw [fetchFree, hTag]
    rfl

def conclude (r : Region) : Except HeapError Nat → Except HeapError Unit
  | .error e => .error e
  | .ok freeBlocks => freeList.check r (payload prologue) freeBlocks (isFreeNode r)

theorem outcome_of_ne {verdict : Except HeapError Unit} (h : verdict ≠ .error .overflow) :
    outcome verdict = .ok verdict := by
  unfold outcome
  split
  · exact (h rfl).elim
  · rfl

theorem conclude_ne_overflow {verdict : Except HeapError Nat} (h : verdict ≠ .error .overflow) :
    conclude r verdict ≠ .error .overflow := by
  cases verdict with
  | error e => exact fun hEq => h (congrArg Except.error (Except.error.inj hEq))
  | ok freeBlocks => exact FreeList.checkFrom_ne_overflow

theorem ends_list (hr : r.Anchored) (hSize : 48 ≤ r.size) (freeBlocks : Nat) :
    Ends (turn r) (.list freeBlocks ⟨0, freeList.first, FreeList.next r freeList.first⟩)
      (.ok (conclude r (.ok freeBlocks))) := by
  have hBehind := FreeList.behind_first freeList r (payload prologue)
  have hEnds := (readable hr hSize).ends (by decide) hBehind (Nat.zero_add freeBlocks)
  exact hEnds.embed fun _ => rfl

theorem ends_block (hr : r.Anchored) (hSize : 48 ≤ r.size) (h : Within r b freeBlocks)
    (previousFree : Option Nat) (hFuel : r.size < b + fuel) :
    Ends (turn r) (.block b freeBlocks previousFree)
      (outcome (conclude r (checkChain r fuel b freeBlocks previousFree))) := by
  -- By induction on the fuel of the check, which does not run out: every block ends in the region.
  induction fuel generalizing b freeBlocks previousFree with
  | zero =>
    have hHeader := h.header_le
    omega
  | succ fuel ih =>
    have hRound := round_turn hr hSize h fuel previousFree
    generalize checkChain r (fuel + 1) b freeBlocks previousFree = verdict at hRound ⊢
    generalize hTurn : turn r (.block b freeBlocks previousFree) = result at hRound
    cases hRound with
    | refused hNe =>
      rw [outcome_of_ne (conclude_ne_overflow fun hEq => hNe (Except.error.inj hEq))]
      exact .done hTurn
    | finished =>
      have hNe : conclude r (.ok freeBlocks) ≠ .error .overflow := conclude_ne_overflow nofun
      rw [outcome_of_ne hNe]
      exact .next hTurn (ends_list hr hSize freeBlocks)
    | overflowed _ => exact .fault hTurn
    | passed hLt hWithin => exact .next hTurn (ih hWithin _ (by omega))

theorem within_prologue (hSize : 48 ≤ r.size) : Within r prologue 0 := ⟨rfl, hSize, Nat.zero_le _⟩

theorem turn_start (hSize : 48 ≤ r.size) :
    turn r .start =
      if r.tag prologue ≠ Tag.sentinel then .ok (.inr (.error (.badSentinel prologue)))
      else .ok (.inl (.block prologue 0 none)) := by
  have hTag : r.fetchTag prologue = pure (r.tag prologue) :=
    Region.fetchTag_of_le rfl (Nat.le_trans (Nat.le_add_left 40 8) hSize)
  rw [turn, turnStart, if_neg (by omega), hTag, pure_bind]
  rfl

theorem check_eq (hSize : 48 ≤ r.size) :
    check r = if r.tag prologue ≠ Tag.sentinel then .error (.badSentinel prologue)
      else conclude r (checkChain r r.size prologue 0 none) := by
  rw [check, if_neg (by omega)]
  rfl

theorem ends_check (hr : r.Anchored) (hSize : 48 ≤ r.size) :
    Ends (turn r) .start (outcome (check r)) := by
  have hTurn := turn_start hSize
  rw [check_eq hSize]
  split_ifs at hTurn ⊢
  · exact .done hTurn
  · have hFuel : r.size < prologue + r.size := Nat.lt_add_of_pos_left (by decide)
    exact .next hTurn (ends_block hr hSize (within_prologue hSize) none hFuel)

theorem within_of_reaches (hr : r.Anchored) (hSize : 48 ≤ r.size)
    (h : Reaches (turn r) .start (.block b freeBlocks previousFree)) : Within r b freeBlocks := by
  refine h.preserves (I := Point.Valid r) (fun p q hp hTurn => ?_) trivial
  cases p with
  | start =>
    rw [turn_start hSize] at hTurn
    split_ifs at hTurn
    · cases hTurn
    · cases hTurn
      exact within_prologue hSize
  | block b freeBlocks previousFree =>
    have hRound := round_turn hr hSize hp 0 previousFree
    rw [hTurn] at hRound
    generalize checkChain r (0 + 1) b freeBlocks previousFree = verdict at hRound
    cases hRound with
    | finished => trivial
    | passed _ hWithin => exact hWithin
  | list freeBlocks place =>
    rw [turn] at hTurn
    cases hPlace : freeList.turn r (payload prologue) freeBlocks (fetchFree r) place with
    | error f =>
      rw [hPlace] at hTurn
      cases hTurn
    | ok result =>
      rw [hPlace] at hTurn
      cases result with
      | inl place =>
        cases hTurn
        trivial
      | inr verdict => cases hTurn

/-- The footer of such a block, or the epilogue behind it, would not be in the region. -/
theorem checkChain_of_overrun (hr : r.Anchored) (h : Within r b freeBlocks)
    (hSized : (r.tag (header b)).WellSized)
    (hOver : r.size < payload b + (r.tag (header b)).size + 16) :
    checkChain r (fuel + 1) b freeBlocks previousFree =
      if payload b + (r.tag (header b)).size = wordLimit - 16 then .error .overflow
      else .error (.outOfBounds b (r.tag (header b)).size r.size) := by
  have hMod := h.aligned
  have hAnchor := hr.aligned
  have hIn := h.header_le
  have hSize := (Tag.wellSized_iff _).mp hSized
  have hPayloadAt := payload_eq b
  have hHeader : ¬ r.size < header b + wordSize := Nat.not_lt.mpr hIn
  have hAligned : ¬ alignment.rem (r.address (payload b)) ≠ 0 := by
    rw [alignment_rem, Region.address]
    omega
  have hFooter : (payload b + (r.tag (header b)).size) % 16 = 0 := by
    omega
  simp only [checkChain, if_neg hHeader, if_neg hSized.1, if_neg (not_not.mpr hSized),
    if_neg hAligned]
  unfold wordLimit wordSize
  split_ifs
  all_goals first | rfl | omega

theorem outcome_injective : Function.Injective outcome := by
  intro u v h
  unfold outcome at h
  split at h <;> split at h <;> simp_all

theorem check_of_reaches (hr : r.Anchored) (hSize : 48 ≤ r.size)
    (h : Reaches (turn r) .start (.block b freeBlocks previousFree)) :
    check r = conclude r (checkChain r (r.size + 1) b freeBlocks previousFree) := by
  have hFuel : r.size < b + (r.size + 1) := by omega
  have hBlock := ends_block hr hSize (within_of_reaches hr hSize h) previousFree hFuel
  exact outcome_injective ((ends_check hr hSize).unique (.of_reaches h hBlock))

theorem exists_reaches_of_overflow (hr : r.Anchored) (hSize : 48 ≤ r.size)
    (h : Within r b freeBlocks)
    (hOverflow : checkChain r fuel b freeBlocks previousFree = .error .overflow) :
    ∃ c n p, Reaches (turn r) (.block b freeBlocks previousFree) (.block c n p) ∧
      payload c + (r.tag (header c)).size = wordLimit - 16 := by
  induction fuel generalizing b freeBlocks previousFree with
  | zero => cases hOverflow
  | succ fuel ih =>
    have hRound := round_turn hr hSize h fuel previousFree
    generalize hVerdict : checkChain r (fuel + 1) b freeBlocks previousFree = verdict at hRound
    generalize hTurn : turn r (.block b freeBlocks previousFree) = result at hRound
    cases hRound with
    | refused hNe => exact (hNe (Except.error.inj (hVerdict.symm.trans hOverflow))).elim
    | finished => cases hVerdict.symm.trans hOverflow
    | overflowed hLast => exact ⟨b, freeBlocks, previousFree, .refl, hLast⟩
    | passed _ hWithin =>
      obtain ⟨c, n, p, hReaches, hLast⟩ := ih hWithin (hVerdict.symm.trans hOverflow)
      exact ⟨c, n, p, .head hTurn hReaches, hLast⟩

/-- The sum behind the footer overflows for one declared size only, at each place of a block. -/
theorem check_eq_overflow_iff (hr : r.Anchored) (hSize : 48 ≤ r.size) :
    check r = .error .overflow ↔
      ∃ b n p, Reaches (turn r) .start (.block b n p) ∧
        payload b + (r.tag (header b)).size = wordLimit - 16 := by
  constructor
  · intro hOverflow
    have hTurn := turn_start hSize
    rw [check_eq hSize] at hOverflow
    split_ifs at hTurn hOverflow
    · cases hOverflow
    · have hChain : checkChain r r.size prologue 0 none = .error .overflow :=
        not_not.mp fun hNe => conclude_ne_overflow hNe hOverflow
      obtain ⟨b, n, p, hReaches, hLast⟩ :=
        exists_reaches_of_overflow hr hSize (within_prologue hSize) hChain
      exact ⟨b, n, p, .head hTurn hReaches, hLast⟩
  · rintro ⟨b, n, p, hReaches, hLast⟩
    have hWithin := within_of_reaches hr hSize hReaches
    have hSized : (r.tag (header b)).WellSized := by
      have hMod := hWithin.aligned
      have hIn := hWithin.header_le
      have hLimit := hr.size_lt
      rw [payload_eq] at hLast
      rw [Tag.wellSized_iff]
      unfold wordLimit at *
      omega
    have hOver : r.size < payload b + (r.tag (header b)).size + 16 := by
      have hLimit := hr.size_lt
      omega
    rw [check_of_reaches hr hSize hReaches, checkChain_of_overrun hr hWithin hSized hOver,
      if_pos hLast]
    rfl

/-- A block that does not fit is reported, unless the sum behind its footer overflows. -/
theorem check_of_overrun (hr : r.Anchored) (hSize : 48 ≤ r.size)
    (h : Reaches (turn r) .start (.block b freeBlocks previousFree))
    (hSized : (r.tag (header b)).WellSized)
    (hOver : r.size < payload b + (r.tag (header b)).size + 16)
    (hNe : payload b + (r.tag (header b)).size ≠ wordLimit - 16) :
    check r = .error (.outOfBounds b (r.tag (header b)).size r.size) := by
  have hWithin := within_of_reaches hr hSize h
  rw [check_of_reaches hr hSize h, checkChain_of_overrun hr hWithin hSized hOver, if_neg hNe]
  rfl

end BlockHeap.Explicit
