import BlockHeap.Proofs.Replay.Faithful
import BlockHeap.Proofs.Session.Refusal

/-!
# The answers of a replayer

Which answer is due to an operation follows from three things: what kind of operation it is, whether
the allocation that it names is live, and whether the heap refuses. The replayer never gives another
one, so it never accuses the heap. Each operation keeps the replayer faithful, and the rest is an
induction on the trace.
-/

namespace BlockHeap

def Operation.id : Operation → Nat
  | .allocate id _ => id
  | .free id => id
  | .reallocate id _ => id
  | .zeroAllocate id _ _ => id

def Operation.isNew : Operation → Bool
  | .allocate _ _ => true
  | .zeroAllocate _ _ _ => true
  | _ => false

/-- The bytes that an operation asks for; a product that is no word counts as the last word. -/
def Operation.bytes : Operation → Nat
  | .allocate _ size => size
  | .free _ => 0
  | .reallocate _ size => size
  | .zeroAllocate _ count size => min (count * size) (wordLimit - 1)

def Operation.keeps : Operation → Bool
  | .free _ => false
  | .reallocate _ size => size ≠ 0
  | _ => true

/-- The bytes that the client has asked for when the operation has succeeded, if the allocation is
live then. -/
def Operation.requested : Operation → Option Nat
  | .allocate _ size => some size
  | .free _ => none
  | .reallocate _ size => if size = 0 then none else some size
  | .zeroAllocate _ count size => some (count * size)

/-- The answer that is due to an operation, given whether its allocation is live and whether the
heap refuses it. -/
def Operation.due (o : Operation) (step : Nat) (live refused : Bool) : Except ReplayError Unit :=
  if o.isNew && live then .error (.duplicateId step o.id)
  else if !o.isNew && !live then .error (.unknownId step o.id)
  else if refused then .error (.exhausted step o.bytes)
  else .ok ()

/-- Whether an allocation is live after an operation that was given an answer, if it was as `live`
says before. -/
def livesOn (id : Nat) (live : Bool) (e : Operation × Except ReplayError Unit) : Bool :=
  if e.1.id = id ∧ e.2.isOk = true then e.1.keeps else live

/-- Whether an allocation is live: what the last success that is about it has made of it. -/
def isLiveAfter (history : List (Operation × Except ReplayError Unit)) (id : Nat) : Bool :=
  history.foldl (livesOn id) false

/-- What the client has last asked for with success, if it was `size` before the operation that was
given an answer. -/
def requestedOn (id : Nat) (size : Option Nat) (e : Operation × Except ReplayError Unit) :
    Option Nat :=
  if e.1.id = id ∧ e.2.isOk = true then e.1.requested else size

def requestedAfter (history : List (Operation × Except ReplayError Unit)) (id : Nat) : Option Nat :=
  history.foldl (requestedOn id) none

namespace Replayer

def refuses (r : Replayer) : Operation → Bool
  | .allocate _ size => (r.heap.allocate size).value.1.isNone
  | .free _ => false
  | .reallocate id size =>
    size ≠ 0 && (r.heap.reallocate (r.pointers.get? id) size).value.1.isNone
  | .zeroAllocate _ count size => (r.heap.zeroAllocate count size).value.1.isNone

def entryFor (id : Nat) (size : Option Nat) : Option Allocation := size.map (⟨·, pattern id⟩)

/-- Nothing that the replayer has on record is different, and no block that is allocated. -/
structure Same (r s : Replayer) : Prop where
  pointers_eq : s.pointers = r.pointers
  shadow_eq : s.shadow = r.shadow
  filter_blocks_eq : s.heap.blocks.filter Block.allocated = r.heap.blocks.filter Block.allocated

/-- What applying an operation amounts to: the answer is the one that is due, and the replayer is
faithful again. What it has on record changes only with success. -/
structure Applied (strategy : Strategy) (r : Replayer) (o : Operation) (step : Nat) (x : Answer) :
    Prop where
  answer_eq : x.1 = o.due step (r.isLive o.id) (r.refuses o)
  faithful : x.2.Faithful strategy []
  steps_eq : x.2.steps = r.steps
  isLive_eq : ∀ id, x.2.isLive id = livesOn id (r.isLive id) (o, x.1)
  kept?_eq : ∀ id size, r.kept? id = entryFor id size →
    x.2.kept? id = entryFor id (requestedOn id size (o, x.1))
  same : ∀ e, x.1 = .error e → r.Same x.2

variable {strategy : Strategy} {r s : Replayer} {o : Operation} {id p size count step : Nat}
  {b : UInt8} {e : ReplayError} {q : Request} {answer : Option Nat} {heap : Heap}

theorem Same.refl (r : Replayer) : r.Same r := ⟨rfl, rfl, rfl⟩

theorem Same.of_refused (hf : r.Faithful strategy []) (hRun : q.run r.heap = (none, heap)) {n : Nat}
    (hDemand : q.demand? = some n) : r.Same { r with heap } := by
  obtain ⟨bs, hs⟩ := hf.sound
  have hBlocks := Request.filter_blocks_of_refused hs.represents hDemand (congrArg Prod.fst hRun)
  refine ⟨rfl, rfl, ?_⟩
  rwa [session, hRun] at hBlocks

theorem Applied.of_error (hDue : o.due step (r.isLive o.id) (r.refuses o) = .error e)
    (hf : s.Faithful strategy []) (hSame : r.Same s) (hSteps : s.steps = r.steps) :
    Applied strategy r o step (.error e, s) where
  answer_eq := hDue.symm
  faithful := hf
  steps_eq := hSteps
  isLive_eq id := by
    rw [livesOn, if_neg (fun h => nomatch h.2), isLive, hSame.pointers_eq, isLive]
  kept?_eq id size h := by
    rw [requestedOn, if_neg (fun h => nomatch h.2), ← h, kept?, hSame.pointers_eq,
      hSame.shadow_eq, kept?]
  same _ _ := hSame

theorem Applied.duplicate (hf : r.Faithful strategy []) (hNew : o.isNew = true)
    (hLive : r.isLive o.id = true) :
    Applied strategy r o step (.error (.duplicateId step o.id), r) :=
  .of_error (by rw [Operation.due, hNew, hLive]; rfl) hf (.refl r) rfl

theorem Applied.unknown (hf : r.Faithful strategy []) (hOld : o.isNew = false)
    (hDead : r.isLive o.id = false) :
    Applied strategy r o step (.error (.unknownId step o.id), r) :=
  .of_error (by rw [Operation.due, hOld, hDead]; rfl) hf (.refl r) rfl

theorem Applied.refused (hf : s.Faithful strategy []) (hFound : r.isLive o.id = !o.isNew)
    (hRefuses : r.refuses o = true) (hSame : r.Same s) (hSteps : s.steps = r.steps) :
    Applied strategy r o step (.error (.exhausted step o.bytes), s) := by
  refine .of_error ?_ hf hSame hSteps
  rw [Operation.due, hFound, hRefuses]
  cases o.isNew with
  | true => rfl
  | false => rfl

theorem Applied.served (hf : s.Faithful strategy []) (hFound : r.isLive o.id = !o.isNew)
    (hServes : r.refuses o = false) (hSteps : s.steps = r.steps)
    (hLive : ∀ id, s.isLive id = if id = o.id then o.keeps else r.isLive id)
    (hEntry : ∀ id, s.kept? id = if id = o.id then entryFor id o.requested else r.kept? id) :
    Applied strategy r o step (.ok (), s) where
  answer_eq := by
    rw [Operation.due, hFound, hServes]
    cases o.isNew with
    | true => rfl
    | false => rfl
  faithful := hf
  steps_eq := hSteps
  isLive_eq id := by
    rw [hLive, livesOn]
    simp [Except.isOk, Except.toBool, eq_comm]
  kept?_eq id size h := by
    rw [hEntry, requestedOn, h]
    simp only [Except.isOk, Except.toBool, and_true, eq_comm (a := o.id)]
    split
    · rfl
    · rfl
  same := nofun

theorem isLive_eq_false (h : r.pointers.get? id = none) : r.isLive id = false := by
  rw [isLive, OrderedMap.contains, h]
  rfl

theorem isLive_eq_true (h : r.pointers.get? id = some p) : r.isLive id = true := by
  rw [isLive, OrderedMap.contains, h]
  rfl

theorem isLive_insert (h : s.pointers = r.pointers.insert id p) (j : Nat) :
    s.isLive j = if j = id then true else r.isLive j := by
  rw [isLive, OrderedMap.contains, h, OrderedMap.get?_insert]
  split
  · rfl
  · rfl

theorem isLive_forget (r : Replayer) (id p j : Nat) :
    (r.forget id p).isLive j = if j = id then false else r.isLive j := by
  rw [isLive, OrderedMap.contains, forget, OrderedMap.get?_erase]
  split
  · rfl
  · rfl

theorem Applied.settled (hs : s.Faithful strategy [p]) (hNew : s.pointers.get? o.id = none)
    (hSize : size ≤ s.heap.usableSize p) (hBytes : ∀ i < count, s.heap.memory.byte (p + i) = b)
    (hFound : r.isLive o.id = !o.isNew) (hServes : r.refuses o = false) (hKeeps : o.keeps = true)
    (hRequested : o.requested = some size) (hSteps : s.steps = r.steps)
    (hOther : ∀ j ≠ o.id, s.isLive j = r.isLive j ∧ s.kept? j = r.kept? j) :
    Applied strategy r o step (s.settle step o.id p size count b) := by
  obtain ⟨t, hSettle, ht, hPointers, hShadow, hSteps'⟩ := hs.settle hNew hSize hBytes step
  rw [hSettle]
  refine .served ht hFound hServes (hSteps'.trans hSteps) (fun j => ?_) fun j => ?_
  · rw [isLive_insert hPointers, hKeeps]
    split
    · rfl
    · next hNe => exact (hOther j hNe).1
  · rw [hs.kept?_insert hPointers hShadow, hRequested]
    split
    · next hEq => rw [hEq, entryFor, Option.map_some]
    · next hNe => exact (hOther j hNe).2

theorem Applied.of_new (hf : r.Faithful strategy []) (hNew : o.isNew = true) {x : Answer}
    (h : r.pointers.get? o.id = none → Applied strategy r o step x) :
    Applied strategy r o step
      (if r.isLive o.id then (.error (.duplicateId step o.id), r) else x) := by
  cases hOld : r.pointers.get? o.id with
  | some p =>
    rw [if_pos (isLive_eq_true hOld)]
    exact .duplicate hf hNew (isLive_eq_true hOld)
  | none =>
    rw [if_neg (Bool.eq_false_iff.mp (isLive_eq_false hOld))]
    exact h hOld

theorem Faithful.allocate (hf : r.Faithful strategy []) (step id size : Nat) :
    Applied strategy r (.allocate id size) step (r.allocate step id size) := by
  obtain ⟨bs, hs⟩ := hf.sound
  refine .of_new (o := .allocate id size) hf rfl fun hOld => ?_
  cases hValue : (r.heap.allocate size).value with
  | mk pointer heap =>
    have hServed := hf.serve (q := .allocate size) hValue trivial (fun _ _ => rfl) fun _ => rfl
    have hRefuses : r.refuses (.allocate id size) = pointer.isNone := by rw [refuses, hValue]
    cases pointer with
    | none =>
      exact .refused hServed (isLive_eq_false hOld) hRefuses
        (.of_refused (q := .allocate size) hf hValue rfl) rfl
    | some p =>
      obtain ⟨hGranted, hHeap⟩ := r.session_of_run (q := .allocate size) hValue []
      have hEnough := (hs.allocate_granted hGranted).2.2
      rw [hHeap] at hEnough
      exact .settled hServed hOld hEnough nofun (isLive_eq_false hOld) hRefuses rfl rfl rfl
        fun _ _ => ⟨rfl, rfl⟩

theorem Faithful.zeroAllocate (hf : r.Faithful strategy []) (step id count size : Nat) :
    Applied strategy r (.zeroAllocate id count size) step (r.zeroAllocate step id count size) := by
  obtain ⟨bs, hs⟩ := hf.sound
  refine .of_new (o := .zeroAllocate id count size) hf rfl fun hOld => ?_
  cases hValue : (r.heap.zeroAllocate count size).value with
  | mk pointer heap =>
    have hServed := hf.serve (q := .zeroAllocate count size) hValue trivial (fun _ _ => rfl)
      fun _ => rfl
    have hRefuses : r.refuses (.zeroAllocate id count size) = pointer.isNone := by
      rw [refuses, hValue]
    cases pointer with
    | none =>
      exact .refused hServed (isLive_eq_false hOld) hRefuses
        (.of_refused (q := .zeroAllocate count size) hf hValue rfl) rfl
    | some p =>
      obtain ⟨hGranted, hHeap⟩ := r.session_of_run (q := .zeroAllocate count size) hValue []
      obtain ⟨_, hLt, hEnough, hZero⟩ := hs.zeroAllocate_granted hGranted
      rw [hHeap] at hEnough hZero
      have hBytes : min (count * size) (wordLimit - 1) = count * size :=
        Nat.min_eq_left (Nat.le_sub_one_of_lt hLt)
      rw [← hBytes] at hEnough hZero
      exact .settled hServed hOld hEnough hZero (isLive_eq_false hOld) hRefuses rfl
        (congrArg some hBytes.symm) rfl fun _ _ => ⟨rfl, rfl⟩

/-- Forgetting a pointer whose life a request then ends leaves only its answer pending. -/
theorem Faithful.exchange (hf : r.Faithful strategy []) (hp : r.pointers.get? id = some p)
    (hRun : q.run r.heap = (answer, heap)) (hLawful : ∀ s : Session, p ∈ s.live → s.Lawful q)
    (hEnds : ∀ x, q.ends answer x = (x == p)) (hWrites : ∀ x, q.writes x = false) :
    { r.forget id p with heap }.Faithful strategy answer.toList := by
  have hForgotten := hf.forget hp
  have hOther : ∀ x ∈ (r.forget id p).pointers.values, q.ends answer x = false := fun x hx => by
    rw [hEnds, beq_eq_false_iff_ne]
    rintro rfl
    exact (List.nodup_cons.mp hForgotten.nodup).1 hx
  have hServed := hForgotten.serve hRun (hLawful _ List.mem_cons_self) hOther hWrites
  simpa [hEnds] using hServed

theorem Applied.released (hf : r.Faithful strategy []) (hp : r.pointers.get? o.id = some p)
    (hs : { r.forget o.id p with heap }.Faithful strategy []) (hOld : o.isNew = false)
    (hServes : r.refuses o = false) (hKeeps : o.keeps = false) (hRequested : o.requested = none) :
    Applied strategy r o step
      ({ r.forget o.id p with heap }.verify step, { r.forget o.id p with heap }) := by
  rw [hs.verify_eq_ok]
  refine .served hs (by rw [isLive_eq_true hp, hOld]; rfl) hServes rfl (fun j => ?_) fun j => ?_
  · rw [hKeeps]
    exact r.isLive_forget o.id p j
  · rw [hRequested]
    exact hf.kept?_forget hp j

theorem Faithful.free (hf : r.Faithful strategy []) (step id : Nat) :
    Applied strategy r (.free id) step (r.free step id) := by
  unfold Replayer.free
  cases hOld : r.pointers.get? id with
  | none => exact .unknown hf rfl (isLive_eq_false hOld)
  | some p =>
    have hFreed := hf.exchange (q := .free (some p)) hOld rfl (fun _ hp => hp) (fun _ => rfl)
      fun _ => rfl
    exact .released (o := .free id) hf hOld hFreed rfl rfl rfl rfl

theorem Faithful.reallocate (hf : r.Faithful strategy []) (step id size : Nat) :
    Applied strategy r (.reallocate id size) step (r.reallocate step id size) := by
  obtain ⟨bs, hs⟩ := hf.sound
  unfold Replayer.reallocate
  cases hOld : r.pointers.get? id with
  | none => exact .unknown hf rfl (isLive_eq_false hOld)
  | some p =>
    have hFound := isLive_eq_true hOld
    have hp : p ∈ r.pointers.values := OrderedMap.mem_values_iff.mpr ⟨id, hOld⟩
    obtain ⟨old, hEntry⟩ := hf.recorded id p hOld
    cases hValue : (r.heap.reallocate (some p) size).value with
    | mk target heap =>
      simp only [hEntry, hValue]
      rcases eq_or_ne size 0 with rfl | hn
      · obtain rfl : none = target := congrArg Prod.fst hValue
        have hFreed := hf.exchange (q := .reallocate (some p) 0) hOld hValue (fun _ hp => hp)
          (fun x => by simp [Request.ends]) fun _ => rfl
        exact .released (o := .reallocate id 0) hf hOld hFreed rfl rfl rfl rfl
      · have hRefuses : r.refuses (.reallocate id size) = target.isNone := by
          rw [refuses, hOld, hValue]
          simp [hn]
        simp only [if_neg hn]
        cases target with
        | none =>
          have hServed := hf.serve (q := .reallocate (some p) size) hValue hp
            (fun x _ => by simp [Request.ends, hn]) fun _ => rfl
          exact .refused hServed hFound hRefuses
            (.of_refused (q := .reallocate (some p) size) hf hValue (if_neg hn)) rfl
        | some q =>
          have hServed := hf.exchange (q := .reallocate (some p) size) hOld hValue
            (fun _ hp => hp) (fun x => by simp [Request.ends]) fun _ => rfl
          obtain ⟨hGranted, hHeap⟩ := r.session_of_run (q := .reallocate (some p) size) hValue []
          obtain ⟨_, hEnough, hCopied⟩ := hs.reallocate_granted hp hn hGranted
          rw [hHeap] at hEnough hCopied
          refine .settled (o := .reallocate id size) hServed ?_ hEnough (fun i hi => ?_) hFound
            hRefuses (decide_eq_true hn) (if_neg hn) rfl fun j hNe => ⟨?_, ?_⟩
          · show (r.pointers.erase id).get? id = none
            rw [OrderedMap.get?_erase, if_pos rfl]
          · have hFits : old ≤ (r.session []).heap.usableSize p := hf.fits p _ hEntry
            have hOldByte := hf.filled p _ hEntry i (hi.trans_le (Nat.min_le_left _ _))
            exact (hCopied i (by omega)).trans hOldByte
          · exact (r.isLive_forget id p j).trans (if_neg hNe)
          · exact (hf.kept?_forget hOld j).trans (if_neg hNe)

theorem Faithful.tick (hf : r.Faithful strategy []) :
    { r with steps := r.steps + 1 }.Faithful strategy [] :=
  ⟨hf.strategy_eq, hf.sound, hf.alignment_eq, hf.recorded, hf.known, hf.fits, hf.filled⟩

/-- The step lemma: every operation is given the answer that is due to it. -/
theorem Faithful.apply (hf : r.Faithful strategy []) (o : Operation) :
    Applied strategy { r with steps := r.steps + 1 } o r.steps (r.apply o) := by
  cases o with
  | allocate id size => exact hf.tick.allocate r.steps id size
  | free id => exact hf.tick.free r.steps id
  | reallocate id size => exact hf.tick.reallocate r.steps id size
  | zeroAllocate id count size => exact hf.tick.zeroAllocate r.steps id count size

theorem Faithful.applyAll (hf : r.Faithful strategy []) (done : Trace) :
    (r.applyAll done).2.Faithful strategy [] ∧ (r.applyAll done).2.steps = r.steps + done.length ∧
      ∀ id, (r.applyAll done).2.isLive id =
        (done.zip (r.applyAll done).1).foldl (livesOn id) (r.isLive id) := by
  induction done generalizing r with
  | nil => exact ⟨hf, rfl, fun _ => rfl⟩
  | cons o rest ih =>
    have hApplied := hf.apply o
    obtain ⟨hf', hSteps, hLive⟩ := ih hApplied.faithful
    refine ⟨hf', ?_, fun id => ?_⟩
    · have hStep : (r.apply o).2.steps = r.steps + 1 := hApplied.steps_eq
      rw [hStep, Nat.add_assoc, Nat.add_comm 1] at hSteps
      exact hSteps
    · exact (hLive id).trans (congrArg (List.foldl _ · _) (hApplied.isLive_eq id))

/-- Over a new heap, whatever it was asked before, a replayer answers each operation as is due to
it. In particular it never finds fault with the heap. -/
theorem apply_eq_due (strategy : Strategy) (arena : Arena) (done : Trace) (o : Operation) :
    let history := done.zip ((start strategy arena).applyAll done).1
    let r := ((start strategy arena).applyAll done).2
    (r.apply o).1 = o.due done.length (isLiveAfter history o.id) (r.refuses o) := by
  obtain ⟨hf, hSteps, hLive⟩ := (faithful_start strategy arena).applyAll done
  have hStep : ((start strategy arena).applyAll done).2.steps = done.length :=
    hSteps.trans (Nat.zero_add _)
  intro history r
  have hDue : (r.apply o).1 = o.due r.steps (r.isLive o.id) (r.refuses o) := (hf.apply o).answer_eq
  rw [hDue, hStep, hLive]
  rfl

end Replayer

end BlockHeap
