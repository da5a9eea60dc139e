import BlockHeap.Implicit.Check
import BlockHeap.Proofs.Region.Guarded
import BlockHeap.Proofs.Region.Keeps

/-!
# The check of an implicit heap, round by round

The check once more, with each of its reads and sums guarded. Whatever the words of the region are,
it comes to an end with its verdict, and no guard answers a fault.
-/

namespace BlockHeap.Implicit

/-- Where the check is: before its first read, or at a block of the chain that should lead to the
one at `last`. -/
inductive Point where
  | start (span : Option Span)
  | block (last offset : Nat)

/-- One round of the walk over the chain. The end of the block is a sum that is tested before it is
used, so it has no guard. -/
def turnBlock (r : Region) (last block : Nat) : Except Fault (Point ⊕ Except HeapError Unit) := do
  let payload ← plus block wordSize
  if r.size < payload then return .inr (.error (.outOfBounds block wordSize r.size))
  else
    let tag ← r.fetchTag block
    if ¬ tag.WellSized then return .inr (.error (.invalidSize block tag.size))
    else
      let address ← plus r.anchor payload
      if alignment.rem address ≠ 0 then return .inr (.error (.misaligned block))
      else
        let next := block + tag.size
        if wordLimit ≤ next then return .inr (.error (.outOfBounds block tag.size r.size))
        else if r.size < next then return .inr (.error (.outOfBounds block tag.size r.size))
        else if block = last then
          if next = r.size then return .inr (.ok ())
          else return .inr (.error (.truncatedHeap next r.size))
        else if last < next then return .inr (.error (.truncatedHeap block r.size))
        else return .inl (.block last next)

def turn (r : Region) : Point → Except Fault (Point ⊕ Except HeapError Unit)
  | .start none => return .inr (.ok ())
  | .start (some span) => return .inl (.block span.last span.first)
  | .block last offset => turnBlock r last offset

variable {r : Region} {span : Option Span} {b last fuel : Nat}

theorem ends_block (hr : r.Anchored) (hMod : b % 8 = 0) (hIn : b ≤ r.size)
    (hFuel : r.size < b + fuel) :
    Ends (turn r) (.block last b) (.ok (checkFrom r last fuel b)) := by
  induction fuel generalizing b with
  | zero => omega
  | succ fuel ih =>
    have hEnd := hr.end_lt
    have hLimit := hr.size_lt
    have hWord : wordSize = 8 := rfl
    have hPayload : plus b wordSize = pure (b + wordSize) := plus_of_lt (by omega)
    apply After.ends
    simp only [turn, turnBlock, checkFrom, hPayload, pure_bind]
    refine .ite (fun _ => .done) fun hRoom => ?_
    have hTag : r.fetchTag b = pure (r.tag b) := Region.fetchTag_of_le hMod (by omega)
    have hAddress : plus r.anchor (b + wordSize) = pure (r.address (b + wordSize)) :=
      plus_of_lt (by omega)
    simp only [hTag, hAddress, pure_bind]
    refine .ite (fun _ => .done) fun hSized => .ite (fun _ => .done) fun _ => ?_
    have hSize := (Tag.wellSized_iff _).mp (Decidable.not_not.mp hSized)
    rcases Nat.lt_or_ge (b + (r.tag b).size) wordLimit with hSum | hSum
    · rw [if_neg (Nat.not_le.mpr hSum)]
      refine .ite (fun _ => .done) fun _ => .ite (fun _ => ?_) fun _ => ?_
      · exact .ite (fun _ => .done) fun _ => .done
      · exact .ite (fun _ => .done) fun _ => .next (ih (by omega) (by omega) (by omega))
    · rw [if_pos hSum, if_pos (by omega)]
      exact .done

theorem ends_check (hr : r.Anchored)
    (hFirst : ∀ s ∈ span, 0 < s.first ∧ s.first % 8 = 0 ∧ s.first ≤ r.size) :
    Ends (turn r) (.start span) (.ok (check r span)) := by
  cases span with
  | none => exact .done rfl
  | some span =>
    obtain ⟨hPos, hMod, hIn⟩ := hFirst span rfl
    exact .next rfl (ends_block hr hMod hIn (by omega))

end BlockHeap.Implicit
