import BlockHeap.Proofs.Shadow.Corruption
import BlockHeap.Proofs.Shadow.Overlap
import Mathlib.Data.List.Induction

/-!
# Shadows along their changes

A shadow and the memory under it, after any sequence of insertions and removals, whether they are
accepted or not, and of writes by others. The live payloads never overlap. From this follows that an
insertion is decided exactly, and that nothing but a write by others can spoil a payload.
-/

namespace BlockHeap

structure Shadowed where
  shadow : Shadow
  memory : Memory

namespace Shadowed

inductive Change where
  | insert (address size : Nat) (pattern : UInt8)
  | remove (address : Nat)
  /-- The only change that is not made through the shadow. -/
  | write (address : Nat) (bytes : List UInt8)

/-- A payload that is inserted ends at an address that is a word. -/
def Change.Fits : Change → Prop
  | .insert address size _ => address + size < wordLimit
  | _ => True

def apply (t : Shadowed) : Change → Shadowed
  | .insert address size pattern =>
    match t.shadow.insert t.memory address size pattern with
    | .ok (shadow, memory) => ⟨shadow, memory⟩
    | .error _ => t
  | .remove address => { t with shadow := (t.shadow.remove address).2 }
  | .write address bytes => { t with memory := t.memory.write address bytes }

def after (t : Shadowed) (cs : List Change) : Shadowed := cs.foldl apply t

/-- The payload was accepted at some point, and has not been removed since. -/
def Recorded (t : Shadowed) (cs : List Change) (o : Nat) (a : Allocation) : Prop :=
  ∃ before rest, cs = before ++ .insert o a.size a.pattern :: rest ∧
    (∃ next, (t.after before).shadow.insert (t.after before).memory o a.size a.pattern = .ok next) ∧
    Change.remove o ∉ rest

def Intact (t : Shadowed) : Prop :=
  ∀ p a, t.shadow.live.get? p = some a → ∀ i < a.size, t.memory.byte (p + i) = a.pattern

def EndsInWords (t : Shadowed) : Prop :=
  ∀ o a, t.shadow.live.get? o = some a → o + a.size < wordLimit

variable {t : Shadowed} {s : Shadow} {m : Memory} {c : Change} {cs : List Change}
  {address size k o : Nat} {a : Allocation} {pattern : UInt8} {e : ShadowError}

theorem apply_insert_of_ok (h : t.shadow.insert t.memory address size pattern = .ok (s, m)) :
    t.apply (.insert address size pattern) = ⟨s, m⟩ := by
  rw [apply, h]

theorem apply_insert_of_error (h : t.shadow.insert t.memory address size pattern = .error e) :
    t.apply (.insert address size pattern) = t := by
  rw [apply, h]

theorem apply_insert_induction {P : Shadowed → Prop} (hSame : P t)
    (hOk : ∀ s m, t.shadow.insert t.memory address size pattern = .ok (s, m) → P ⟨s, m⟩) :
    P (t.apply (.insert address size pattern)) := by
  cases hInsert : t.shadow.insert t.memory address size pattern with
  | error e =>
    rw [apply_insert_of_error hInsert]
    exact hSame
  | ok next =>
    rw [apply_insert_of_ok hInsert]
    exact hOk _ _ hInsert

theorem alignment_apply (t : Shadowed) (c : Change) :
    (t.apply c).shadow.alignment = t.shadow.alignment := by
  cases c with
  | insert address size pattern =>
    refine apply_insert_induction (P := fun u => u.shadow.alignment = _) rfl fun s m h => ?_
    obtain ⟨_, _, rfl, _⟩ := Shadow.insert_eq_ok_iff.mp h
    rfl
  | remove address => rfl
  | write address bytes => rfl

theorem apart_apply (hApart : t.shadow.Apart) (c : Change) : (t.apply c).shadow.Apart := by
  cases c with
  | insert address size pattern =>
    exact apply_insert_induction (P := fun u => u.shadow.Apart) hApart fun s m h =>
      hApart.insert h
  | remove address => exact hApart.remove address
  | write address bytes => exact hApart

theorem EndsInWords.apply (h : t.EndsInWords) (hFits : c.Fits) : (t.apply c).EndsInWords := by
  cases c with
  | insert address size pattern =>
    refine apply_insert_induction h fun s m hOk o a hLive => ?_
    rw [Shadow.get?_insert_of_ok hOk] at hLive
    split at hLive
    · next hNew =>
      obtain rfl := Option.some.inj hLive
      exact hNew ▸ hFits
    · exact h o a hLive
  | remove address => exact fun o a hLive => h o a (Shadow.get?_of_remove hLive)
  | write address bytes => exact h

theorem Intact.insert (h : t.Intact) (hApart : t.shadow.Apart) :
    (t.apply (.insert address size pattern)).Intact := by
  refine apply_insert_induction h fun s m hOk p a hLive i hi => ?_
  show m.byte (p + i) = a.pattern
  rw [Shadow.byte_insert_of_ok hOk]
  rw [Shadow.get?_insert_of_ok hOk] at hLive
  split at hLive
  · next hNew =>
    obtain rfl := Option.some.inj hLive
    exact if_pos ⟨by omega, Nat.add_lt_add_of_le_of_lt (Nat.le_of_eq hNew) hi⟩
  · have hBetween := hApart.of_insert hOk hLive
    rw [if_neg (by omega)]
    exact h p a hLive i hi

theorem Intact.remove (h : t.Intact) : (t.apply (.remove address)).Intact :=
  fun p a hLive => h p a (Shadow.get?_of_remove hLive)

/-- A change adds the payload that it inserts, and takes away the one that it removes. -/
theorem get?_apply_iff (hApart : t.shadow.Apart) : (t.apply c).shadow.live.get? o = some a ↔
    (t.shadow.live.get? o = some a ∧ c ≠ .remove o) ∨
    (c = .insert o a.size a.pattern ∧
      ∃ next, t.shadow.insert t.memory o a.size a.pattern = .ok next) := by
  cases c with
  | insert address size pattern =>
    cases hInsert : t.shadow.insert t.memory address size pattern with
    | error e =>
      rw [apply_insert_of_error hInsert]
      refine ⟨fun hLive => .inl ⟨hLive, nofun⟩, ?_⟩
      rintro (⟨hLive, _⟩ | ⟨hSame, _, hOk⟩)
      · exact hLive
      · cases hSame
        cases hInsert.symm.trans hOk
    | ok next =>
      rw [apply_insert_of_ok hInsert, hApart.get?_insert_iff hInsert]
      refine ⟨?_, ?_⟩
      · rintro (hLive | ⟨rfl, rfl⟩)
        · exact .inl ⟨hLive, nofun⟩
        · exact .inr ⟨rfl, next, hInsert⟩
      · rintro (⟨hLive, _⟩ | ⟨hSame, _⟩)
        · exact .inl hLive
        · cases hSame
          exact .inr ⟨rfl, rfl⟩
  | remove address =>
    have hRemoved : Change.remove address ≠ .remove o ↔ o ≠ address := by
      rw [Ne, Change.remove.injEq, eq_comm]
    rw [apply, Shadow.get?_remove_iff, hRemoved, and_comm]
    exact (or_iff_left fun hInsert => nomatch hInsert.1).symm
  | write address bytes =>
    rw [apply, and_iff_left nofun]
    exact (or_iff_left fun hInsert => nomatch hInsert.1).symm

theorem after_concat (t : Shadowed) (cs : List Change) (c : Change) :
    t.after (cs ++ [c]) = (t.after cs).apply c := List.foldl_concat _ _ _ _

theorem recorded_concat : t.Recorded (cs ++ [c]) o a ↔
    (t.Recorded cs o a ∧ c ≠ .remove o) ∨
    (c = .insert o a.size a.pattern ∧ ∃ next,
      (t.after cs).shadow.insert (t.after cs).memory o a.size a.pattern = .ok next) := by
  constructor
  · rintro ⟨before, rest, hEq, hOk, hKept⟩
    rcases List.eq_nil_or_concat rest with rfl | ⟨rest, d, rfl⟩
    · obtain ⟨rfl, hLast⟩ := List.append_inj' hEq rfl
      exact .inr ⟨(List.cons.inj hLast).1, hOk⟩
    · rw [List.concat_eq_append, ← List.cons_append, ← List.append_assoc] at hEq
      rw [List.concat_eq_append, List.mem_append, List.mem_singleton, not_or] at hKept
      obtain ⟨rfl, hLast⟩ := List.append_inj' hEq rfl
      obtain rfl := (List.cons.inj hLast).1
      exact .inl ⟨⟨before, rest, rfl, hOk, hKept.1⟩, Ne.symm hKept.2⟩
  · rintro (⟨⟨before, rest, rfl, hOk, hKept⟩, hOther⟩ | ⟨rfl, hOk⟩)
    · refine ⟨before, rest ++ [c], by simp, hOk, fun hMem => ?_⟩
      rcases List.mem_append.mp hMem with hMem | hMem
      · exact hKept hMem
      · exact hOther (List.mem_singleton.mp hMem).symm
    · exact ⟨cs, [], rfl, hOk, List.not_mem_nil⟩

theorem alignment_after (t : Shadowed) (cs : List Change) :
    (t.after cs).shadow.alignment = t.shadow.alignment :=
  List.foldlRecOn (motive := fun u => u.shadow.alignment = t.shadow.alignment) cs apply rfl
    fun u h c _ => (u.alignment_apply c).trans h

theorem apart_after (hApart : t.shadow.Apart) (cs : List Change) : (t.after cs).shadow.Apart :=
  List.foldlRecOn (motive := fun u => u.shadow.Apart) cs apply hApart fun _ h c _ =>
    apart_apply h c

/-- What is live after some changes, in terms of these changes alone. -/
theorem get?_after_iff (hApart : t.shadow.Apart) (hEmpty : ∀ o a, t.shadow.live.get? o ≠ some a)
    (cs : List Change) :
    (t.after cs).shadow.live.get? o = some a ↔ t.Recorded cs o a := by
  induction cs using List.reverseRecOn with
  | nil =>
    refine iff_of_false (hEmpty o a) fun ⟨before, rest, hEq, _⟩ => ?_
    exact List.append_ne_nil_of_right_ne_nil before (List.cons_ne_nil _ rest) hEq.symm
  | append_singleton cs c ih =>
    rw [after_concat, get?_apply_iff (apart_after hApart cs), ih, recorded_concat]

theorem EndsInWords.after (h : t.EndsInWords) (hFits : ∀ c ∈ cs, c.Fits) :
    (t.after cs).EndsInWords :=
  List.foldlRecOn cs Shadowed.apply h fun _ h c hc => h.apply (hFits c hc)

theorem Intact.after (h : t.Intact) (hApart : t.shadow.Apart)
    (hOwn : ∀ a bytes, Change.write a bytes ∉ cs) : (t.after cs).Intact := by
  have hBoth : (t.after cs).shadow.Apart ∧ (t.after cs).Intact := by
    refine List.foldlRecOn (motive := fun u => u.shadow.Apart ∧ u.Intact) cs apply ⟨hApart, h⟩ ?_
    rintro u ⟨hApart, hIntact⟩ c hc
    refine ⟨apart_apply hApart c, ?_⟩
    cases c with
    | insert address size pattern => exact hIntact.insert hApart
    | remove address => exact hIntact.remove
    | write a bytes => exact absurd hc (hOwn a bytes)
  exact hBoth.2

theorem new_eq_ok (h : Shadow.new k = .ok s) :
    s.alignment.value = k ∧ ∀ o a, s.live.get? o ≠ some a := by
  unfold Shadow.new at h
  split at h
  · cases h
  · next alignment hPower =>
    obtain rfl := Except.ok.inj h
    refine ⟨(PowerOfTwo.ofNat?_eq_some_iff _ _).mp hPower, fun o a hLive => ?_⟩
    cases hLive

theorem apart_of_new (h : Shadow.new k = .ok s) : s.Apart :=
  fun o a _ _ hLive => absurd hLive ((new_eq_ok h).2 o a)

/-- After any changes to a new shadow, an insertion is refused if its address is misaligned, or else
if it overlaps what is live, the lowest of which is named. It fills its own bytes only. -/
theorem insert_decides (hNew : Shadow.new k = .ok s) (m : Memory) (cs : List Change)
    (address size : Nat) (pattern : UInt8) :
    let t := after ⟨s, m⟩ cs
    let u := t.apply (.insert address size pattern)
    let answer := t.shadow.insert t.memory address size pattern
    (∀ o a, t.shadow.live.get? o = some a ↔ Recorded ⟨s, m⟩ cs o a) ∧
    (answer = .error (.misaligned address) ↔ ¬ k ∣ address) ∧
    (k ∣ address →
      ((∃ o, answer = .error (.overlap address o)) ↔ ∃ o, t.shadow.Overlapped address size o) ∧
      (∀ o, answer = .error (.overlap address o) →
        IsLeast {o | t.shadow.Overlapped address size o} o) ∧
      ((∀ o, ¬ t.shadow.Overlapped address size o) → answer = .ok (u.shadow, u.memory) ∧
        u.shadow.alignment = t.shadow.alignment ∧
        (∀ o, u.shadow.live.get? o =
          if o = address then some ⟨size, pattern⟩ else t.shadow.live.get? o) ∧
        ∀ x, u.memory.byte x =
          if address ≤ x ∧ x < address + size then pattern else t.memory.byte x)) ∧
    (∀ e, answer = .error e → u = t) ∧
    (∀ o a, t.shadow.live.get? o = some a →
      (size = 0 → (t.shadow.Overlapped address size o ↔
        o = address ∨ Shadow.StartsInside address o a.size)) ∧
      (a.size = 0 → (t.shadow.Overlapped address size o ↔
        o = address ∨ Shadow.StartsInside o address size))) ∧
    ((∀ c ∈ cs, c.Fits) → t.EndsInWords) := by
  intro t u answer
  obtain ⟨hPower, hEmpty⟩ := new_eq_ok hNew
  have hValue : t.shadow.alignment.value = k :=
    (congrArg PowerOfTwo.value (alignment_after ⟨s, m⟩ cs)).trans hPower
  have hApart : t.shadow.Apart := apart_after (t := ⟨s, m⟩) (apart_of_new hNew) cs
  refine ⟨fun o a => get?_after_iff (apart_of_new hNew) hEmpty cs,
    hValue ▸ Shadow.insert_eq_misaligned_iff, fun hAligned => ?_, fun e => apply_insert_of_error,
    fun o a hLive => ?_, EndsInWords.after fun o a h => absurd h (hEmpty o a)⟩
  · rw [← hValue] at hAligned
    refine ⟨Shadow.exists_overlap_iff hApart hAligned, fun o => Shadow.isLeast_of_overlap hApart,
      fun hClear => ?_⟩
    obtain ⟨s', m', hOk⟩ := Shadow.exists_insert_eq_ok hApart hAligned hClear
    have hNext : u = ⟨s', m'⟩ := apply_insert_of_ok hOk
    have hSame : u.shadow.alignment = t.shadow.alignment := t.alignment_apply _
    rw [hNext] at hSame ⊢
    exact ⟨hOk, hSame, Shadow.get?_insert_of_ok hOk, Shadow.byte_insert_of_ok hOk⟩
  · rw [Shadow.overlapped_iff_of_live hLive]
    refine ⟨fun hSize => ?_, fun hSize => ?_⟩
    · rw [hSize, or_iff_left (Shadow.not_startsInside_empty o address)]
    · rw [hSize, or_iff_right (Shadow.not_startsInside_empty address o)]

theorem insert_decides_of_two : ∃ s t, Shadow.new 16 = .ok s ∧
    t = after ⟨s, {}⟩ [.insert 32 20 1, .insert 16 8 9, .insert 64 0 2, .remove 16] ∧
    Recorded ⟨s, {}⟩ [.insert 32 20 1, .insert 16 8 9, .insert 64 0 2, .remove 16] 32 ⟨20, 1⟩ ∧
    ¬ Recorded ⟨s, {}⟩ [.insert 32 20 1, .insert 16 8 9, .insert 64 0 2, .remove 16] 16 ⟨8, 9⟩ ∧
    t.shadow.insert t.memory 24 8 3 = .error (.misaligned 24) ∧
    t.shadow.insert t.memory 16 64 3 = .error (.overlap 16 32) ∧
    t.apply (.insert 16 64 3) = t ∧
    (t.apply (.insert 16 16 3)).shadow.live.get? 16 = some ⟨16, 3⟩ ∧
    (t.apply (.insert 16 16 3)).memory.byte 31 = 3 := by
  have hNew : Shadow.new 16 = .ok { alignment } := rfl
  obtain ⟨t, hAfter⟩ : ∃ t, t = after ⟨{ alignment }, {}⟩
      [.insert 32 20 1, .insert 16 8 9, .insert 64 0 2, .remove 16] := ⟨_, rfl⟩
  have hEntries : t.shadow.live.entries = [(32, ⟨20, 1⟩), (64, ⟨0, 2⟩)] := by
    rw [hAfter]
    rfl
  have hLive : ∀ o a, t.shadow.live.get? o = some a ↔
      o = 32 ∧ a = ⟨20, 1⟩ ∨ o = 64 ∧ a = ⟨0, 2⟩ := fun o a => by
    rw [OrderedMap.get?_eq_some_iff, hEntries]
    simp
  have hThere : t.shadow.Overlapped 16 64 32 :=
    ⟨⟨20, 1⟩, (hLive _ _).mpr (.inl ⟨rfl, rfl⟩), .inr (.inr ⟨by decide, by decide⟩)⟩
  have hClear : ∀ o, ¬ t.shadow.Overlapped 16 16 o := fun o ⟨a, ha, hOver⟩ => by
    unfold Shadow.StartsInside at hOver
    rcases (hLive o a).mp ha with ⟨rfl, rfl⟩ | ⟨rfl, rfl⟩
    · omega
    · omega
  have hDecides :=
    insert_decides hNew {} [.insert 32 20 1, .insert 16 8 9, .insert 64 0 2, .remove 16]
  rw [← hAfter] at hDecides
  obtain ⟨hRecords, hMisaligned, _⟩ := hDecides 24 8 3
  obtain ⟨_, _, hWide, hRefused, _⟩ := hDecides 16 64 3
  obtain ⟨_, _, hFitting, _⟩ := hDecides 16 16 3
  obtain ⟨hExists, hLeast, _⟩ := hWide (by decide)
  obtain ⟨o, hOver⟩ := hExists.mpr ⟨32, hThere⟩
  have hLow : o = 32 := by
    obtain ⟨⟨a, ha, _⟩, hBound⟩ := hLeast o hOver
    have hLe := hBound hThere
    rcases (hLive o a).mp ha with ⟨hEq, _⟩ | ⟨hEq, _⟩
    · exact hEq
    · omega
  obtain ⟨_, _, hRecorded, hFilled⟩ := (hFitting (by decide)).2.2 hClear
  have hThird : t.shadow.live.get? 16 ≠ some ⟨8, 9⟩ := fun hSome => by
    simpa using (hLive _ _).mp hSome
  exact ⟨_, t, hNew, hAfter, (hRecords 32 _).mp ((hLive _ _).mpr (.inl ⟨rfl, rfl⟩)),
    fun hThere => hThird ((hRecords 16 _).mpr hThere), hMisaligned.mpr (by decide), hLow ▸ hOver,
    hRefused _ hOver, (hRecorded 16).trans (if_pos rfl), (hFilled 31).trans (if_pos (by decide))⟩

/-- After any changes to a new shadow, writes by others among them, it verifies exactly if all that
is live holds its pattern, and otherwise reports the lowest payload that does not. -/
theorem verify_exact (hNew : Shadow.new k = .ok s) (m : Memory) (cs : List Change) :
    let t := after ⟨s, m⟩ cs
    (∀ p a, t.shadow.live.get? p = some a ↔ Recorded ⟨s, m⟩ cs p a) ∧
    (t.shadow.verify t.memory = .ok () ↔ ∀ p a, t.shadow.live.get? p = some a →
      ∀ i < a.size, t.memory.byte (p + i) = a.pattern) ∧
    (∀ e, t.shadow.verify t.memory = .error e ↔ ∃ p a i, t.shadow.live.get? p = some a ∧
      IsLeast {p | t.shadow.Corrupted t.memory p} p ∧
      IsLeast {i | Shadow.WrongAt t.memory p a.size a.pattern i} i ∧
      e = .corrupted p i a.pattern (t.memory.byte (p + i))) ∧
    ((∀ a bytes, Change.write a bytes ∉ cs) → t.shadow.verify t.memory = .ok ()) := by
  intro t
  obtain ⟨_, hEmpty⟩ := new_eq_ok hNew
  refine ⟨fun p a => get?_after_iff (apart_of_new hNew) hEmpty cs, Shadow.verify_eq_ok_iff,
    fun e => Shadow.verify_eq_error_iff, fun hOwn => ?_⟩
  have hIntact : Intact ⟨s, m⟩ := fun p a h => absurd h (hEmpty p a)
  exact Shadow.verify_eq_ok_iff.mpr (hIntact.after (apart_of_new hNew) hOwn)

theorem verify_exact_of_two : ∃ s u t, Shadow.new 16 = .ok s ∧
    u = after ⟨s, {}⟩ [.insert 64 32 119, .insert 96 8 17, .remove 96] ∧
    t = after ⟨s, {}⟩ [.insert 64 32 119, .insert 96 8 17, .remove 96, .write 69 [120, 0]] ∧
    ¬ Recorded ⟨s, {}⟩ [.insert 64 32 119, .insert 96 8 17, .remove 96] 96 ⟨8, 17⟩ ∧
    u.shadow.verify u.memory = .ok () ∧
    t.shadow.verify t.memory = .error (.corrupted 64 5 119 120) := by
  have hNew : Shadow.new 16 = .ok { alignment } := rfl
  obtain ⟨u, hBefore⟩ : ∃ u, u = after ⟨{ alignment }, {}⟩
      [.insert 64 32 119, .insert 96 8 17, .remove 96] := ⟨_, rfl⟩
  have hAfter : u.apply (.write 69 [120, 0]) = after ⟨{ alignment }, {}⟩
      [.insert 64 32 119, .insert 96 8 17, .remove 96, .write 69 [120, 0]] := by
    rw [hBefore]
    rfl
  have hEntries : u.shadow.live.entries = [(64, ⟨32, 119⟩)] := by
    rw [hBefore]
    rfl
  have hFirst : u.shadow.live.get? 64 = some ⟨32, 119⟩ := by
    rw [OrderedMap.get?_eq_some_iff, hEntries]
    exact List.mem_cons_self
  have hOnly : ∀ p a, u.shadow.live.get? p = some a → p = 64 := fun p a h => by
    have hBoth : p = 64 ∧ a = ⟨32, 119⟩ := by
      simpa [hEntries] using OrderedMap.get?_eq_some_iff.mp h
    exact hBoth.1
  obtain ⟨hRecords, hIff, _, hOwn⟩ :=
    verify_exact hNew {} [.insert 64 32 119, .insert 96 8 17, .remove 96]
  obtain ⟨_, _, hReport, _⟩ :=
    verify_exact hNew {} [.insert 64 32 119, .insert 96 8 17, .remove 96, .write 69 [120, 0]]
  rw [← hBefore] at hRecords hIff hOwn
  rw [← hAfter] at hReport
  have hVerified := hOwn (by simp)
  have hKept : ∀ i < 5, (u.memory.write 69 [120, 0]).byte (64 + i) = 119 := fun i hi =>
    (Memory.byte_write_of_lt _ (by omega)).trans
      (hIff.mp hVerified 64 _ hFirst i (Nat.lt_trans hi (by decide)))
  have hSpoiled : (u.memory.write 69 [120, 0]).byte (64 + 5) = 120 := Memory.byte_write _ _ _ _
  have hWrong : Shadow.WrongAt (u.memory.write 69 [120, 0]) 64 32 119 5 :=
    ⟨by decide, hSpoiled.trans_ne (by decide)⟩
  have hRemoved : ¬ Recorded ⟨{ alignment }, {}⟩
      [.insert 64 32 119, .insert 96 8 17, .remove 96] 96 ⟨8, 17⟩ := fun hThere => by
    have hSame := hOnly 96 _ ((hRecords 96 _).mpr hThere)
    omega
  have hLowest : IsLeast {p | u.shadow.Corrupted (u.memory.write 69 [120, 0]) p} 64 :=
    ⟨⟨_, hFirst, 5, hWrong⟩, fun p ⟨a, h, _⟩ => Nat.le_of_eq (hOnly p a h).symm⟩
  have hEarliest : IsLeast {i | Shadow.WrongAt (u.memory.write 69 [120, 0]) 64 32 119 i} 5 := by
    refine ⟨hWrong, fun i ⟨_, hOther⟩ => ?_⟩
    by_contra hLess
    exact hOther (hKept i (Nat.lt_of_not_le hLess))
  exact ⟨_, u, _, hNew, hBefore, hAfter, hRemoved, hVerified, (hReport _).mpr ⟨64, ⟨32, 119⟩, 5,
    hFirst, hLowest, hEarliest, congrArg (ShadowError.corrupted 64 5 119) hSpoiled.symm⟩⟩

end Shadowed

end BlockHeap
