import BlockHeap.Proofs.Replay.Answers

/-!
# The books of a replayer

A replayer keeps three books: where each allocation is, what its payload holds, and the blocks of
the heap. They agree after every operation, whatever it answered, and say of each allocation what
the client has last asked for with success. So a replayer can release all that is live.
-/

namespace BlockHeap.Replayer

/-- The books agree, and allocations have the sizes `requested`. -/
structure Booked (r : Replayer) (requested : Nat → Option Nat) : Prop where
  nodup : r.pointers.values.Nodup
  shadow_perm : r.shadow.live.keys.Perm r.pointers.values
  blocks_perm : ((r.heap.blocks.filter Block.allocated).map Block.payload).Perm r.pointers.values
  isLive_eq : ∀ id, r.isLive id = (requested id).isSome
  kept?_eq : ∀ id, r.kept? id = (requested id).map fun size => ⟨size, pattern id⟩
  filled : ∀ id p size, r.pointers.get? id = some p → requested id = some size →
    size ≤ r.heap.usableSize p ∧ ∀ i < size, (r.heap.memory.byte (p + i)).toNat = id % 255 + 1

variable {strategy : Strategy} {r : Replayer} {requested : Nat → Option Nat} {id p : Nat}

theorem toNat_pattern (id : Nat) : (pattern id).toNat = id % 255 + 1 := by
  have hLt : id % 255 + 1 < 256 := by omega
  exact (UInt8.toNat_ofNat' ..).trans (Nat.mod_eq_of_lt hLt)

theorem Faithful.isLive_eq (hf : r.Faithful strategy []) (id : Nat) :
    r.isLive id = (r.kept? id).isSome := by
  rw [isLive, OrderedMap.contains, kept?]
  cases hp : r.pointers.get? id with
  | none => rfl
  | some p =>
    obtain ⟨size, hEntry⟩ := hf.recorded id p hp
    rw [Option.bind_some, hEntry]
    rfl

theorem Faithful.shadow_perm (hf : r.Faithful strategy []) :
    r.shadow.live.keys.Perm r.pointers.values := by
  refine (List.perm_ext_iff_of_nodup (OrderedMap.nodup_keys _) hf.nodup).mpr fun p => ?_
  rw [OrderedMap.mem_keys_iff]
  constructor
  · rintro ⟨a, hEntry⟩
    exact hf.known p a hEntry
  · intro hp
    obtain ⟨id, hPointer⟩ := OrderedMap.mem_values_iff.mp hp
    obtain ⟨size, hEntry⟩ := hf.recorded id p hPointer
    exact ⟨_, hEntry⟩

theorem Faithful.blocks_perm (hf : r.Faithful strategy []) :
    ((r.heap.blocks.filter Block.allocated).map Block.payload).Perm r.pointers.values := by
  obtain ⟨bs, hs⟩ := hf.sound
  have hBlocks : r.heap.blocks.filter Block.allocated = _ := hs.represents.filter_blocks
  rw [hBlocks, List.map_map]
  exact hs.live_perm.symm

theorem Faithful.booked (hf : r.Faithful strategy [])
    (hEntry : ∀ id, r.kept? id = entryFor id (requested id)) : r.Booked requested where
  nodup := hf.nodup
  shadow_perm := hf.shadow_perm
  blocks_perm := hf.blocks_perm
  isLive_eq id := by
    rw [hf.isLive_eq, hEntry, entryFor, Option.isSome_map]
  kept?_eq := hEntry
  filled id p size hp hSize := by
    have hLive : r.shadow.live.get? p = some ⟨size, pattern id⟩ := by
      have h := hEntry id
      rwa [kept?, hp, hSize] at h
    refine ⟨hf.fits p _ hLive, fun i hi => ?_⟩
    rw [hf.filled p _ hLive i hi]
    exact toNat_pattern id

theorem Faithful.kept?_applyAll (hf : r.Faithful strategy []) (done : Trace) {size : Option Nat}
    (hEntry : r.kept? id = entryFor id size) : (r.applyAll done).2.kept? id =
      entryFor id ((done.zip (r.applyAll done).1).foldl (requestedOn id) size) := by
  induction done generalizing r size with
  | nil => exact hEntry
  | cons o rest ih =>
    have hApplied := hf.apply o
    exact ih hApplied.faithful (hApplied.kept?_eq id size hEntry)

theorem apply_free (hp : r.pointers.get? id = some p) : (r.apply (.free id)).2 =
    { r.forget id p with heap := (r.heap.free (some p)).value, steps := r.steps + 1 } := by
  simp only [apply, free, hp]
  rfl

theorem Faithful.run_free {es : List (Nat × Nat)} (hf : r.Faithful strategy [])
    (hEntries : r.pointers.entries = es) : ∃ s, r.run (es.map (.free ·.1)) = (.ok (), s) ∧
      s.Faithful strategy [] ∧ s.pointers.entries = [] ∧ s.steps = r.steps + es.length ∧
      s.heap = (es.map Prod.snd).foldl (fun h p => (h.free (some p)).value) r.heap := by
  induction es generalizing r with
  | nil => exact ⟨r, rfl, hf, hEntries, rfl, rfl⟩
  | cons e rest ih =>
    obtain ⟨id, p⟩ := e
    have hp : r.pointers.get? id = some p :=
      OrderedMap.get?_eq_some_iff.mpr (hEntries ▸ List.mem_cons_self)
    have hApplied := hf.apply (.free id)
    have hOk : (r.apply (.free id)).1 = .ok () := by
      refine hApplied.answer_eq.trans ?_
      show (Operation.free id).due r.steps (r.isLive id) false = .ok ()
      rw [isLive_eq_true hp]
      rfl
    have hValue : r.apply (.free id) = (.ok (), (r.apply (.free id)).2) := Prod.ext hOk rfl
    have hNext := apply_free hp
    obtain ⟨s, hRun, hs, hNone, hSteps, hHeap⟩ := ih (r := (r.apply (.free id)).2)
      hApplied.faithful (by rw [hNext]; exact OrderedMap.entries_erase hEntries)
    refine ⟨s, ?_, hs, hNone, ?_, ?_⟩
    · rw [List.map_cons, run, hValue]
      exact hRun
    · rw [hSteps, hNext, List.length_cons]
      exact Nat.add_right_comm _ _ _
    · rw [hHeap, hNext]
      rfl

/-- A heap of which nothing is allocated is one free block at most: neighbours would be merged. -/
theorem Faithful.length_blocks_le (hf : r.Faithful .explicit [])
    (hNone : r.heap.blocks.filter Block.allocated = []) : r.heap.blocks.length ≤ 1 := by
  obtain ⟨bs, hs⟩ := hf.sound
  have hr : r.heap.Represents bs := hs.represents
  rw [hr.filter_blocks, List.map_eq_nil_iff] at hNone
  rw [Heap.blocks, List.length_map, hr.blockOffsets_eq]
  obtain ⟨heap, _, _, _⟩ := r
  cases hr with
  | bare => exact Nat.zero_le _
  | implicit _ => cases hf.strategy_eq
  | @explicit _ cs _ hr =>
    rw [held_map Explicit.allocated_block, List.map_eq_nil_iff] at hNone
    have hFree := List.filter_eq_nil_iff.mp hNone
    rcases cs with _ | ⟨c, _ | ⟨d, rest⟩⟩
    · exact Nat.zero_le _
    · exact le_rfl
    · obtain ⟨hPair, _⟩ := List.isChain_cons_cons.mp hr.separated
      rcases hPair with hc | hd
      · exact (hFree c List.mem_cons_self hc).elim
      · exact (hFree d (List.mem_cons_of_mem c List.mem_cons_self) hd).elim

/-- Over a new heap, whatever it was asked before, a replayer has its books in order. An operation
that fails changes none of them, and releasing all leaves nothing on record. -/
theorem booked_applyAll (strategy : Strategy) (arena : Arena) (done : Trace) :
    let history := done.zip ((start strategy arena).applyAll done).1
    let r := ((start strategy arena).applyAll done).2
    let s := r.releaseAll.2
    r.Booked (requestedAfter history) ∧ r.steps = done.length ∧
    (∀ o, (r.apply o).2.steps = r.steps + 1 ∧
      ∀ e, (r.apply o).1 = .error e → r.Same (r.apply o).2) ∧
    r.releaseAll.1 = .ok () ∧ s.pointers.entries = [] ∧ s.shadow.live.entries = [] ∧
    s.heap.blocks.filter Block.allocated = [] ∧
    (strategy = .explicit → s.heap.blocks.length ≤ 1) ∧
    s.heap = r.pointers.values.foldl (fun h p => (h.free (some p)).value) r.heap ∧
    s.steps = r.steps + r.pointers.size := by
  intro history r s
  have hStart := faithful_start strategy arena
  obtain ⟨hf, hSteps, _⟩ := hStart.applyAll done
  have hEntry : ∀ id, r.kept? id = entryFor id (requestedAfter history id) := fun _ =>
    hStart.kept?_applyAll done (show _ = entryFor _ none from rfl)
  obtain ⟨t, hRun, ht, hNone, hCount, hHeap⟩ := hf.run_free rfl
  have hReleased : r.releaseAll = (.ok (), t) := by
    rw [releaseAll, OrderedMap.keys, List.map_map]
    exact hRun
  obtain rfl : s = t := congrArg Prod.snd hReleased
  have hValues : s.pointers.values = [] := by rw [OrderedMap.values, hNone, List.map_nil]
  have hShadow := ht.shadow_perm
  have hBlocks := ht.blocks_perm
  rw [hValues, List.perm_nil] at hShadow hBlocks
  have hAllocated := List.map_eq_nil_iff.mp hBlocks
  refine ⟨hf.booked hEntry, hSteps.trans (Nat.zero_add _), fun o => ?_,
    congrArg Prod.fst hReleased, hNone, List.map_eq_nil_iff.mp hShadow, hAllocated, ?_, hHeap,
    hCount⟩
  · have hApplied := hf.apply o
    refine ⟨hApplied.steps_eq, fun e he => ?_⟩
    obtain ⟨hPointers, hShadow, hBlocks⟩ := hApplied.same e he
    exact ⟨hPointers, hShadow, hBlocks⟩
  · rintro rfl
    exact ht.length_blocks_le hAllocated

end BlockHeap.Replayer
