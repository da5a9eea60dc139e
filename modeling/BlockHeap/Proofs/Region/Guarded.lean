import BlockHeap.Region
import Mathlib.Logic.Relation

/-!
# Guarded reads and sums

A check of a heap must not be harmed by what it checks: every word that it reads has to be in the
region, and every sum that it computes has to be a word. Here a read or a sum that is not answers a
fault, so a computation without one has kept to the rules. A check is a loop over such computations,
and `Ends` says how it comes to an end, if it does.
-/

namespace BlockHeap

inductive Fault where
  /-- A read of what is not a word, or not in the region. -/
  | read (offset : Nat)
  /-- A sum that does not fit in a word. -/
  | sum (m n : Nat)
deriving DecidableEq

def plus (m n : Nat) : Except Fault Nat :=
  if m + n < wordLimit then .ok (m + n) else .error (.sum m n)

def Region.fetch (r : Region) (offset : Nat) : Except Fault Nat :=
  if offset % wordSize = 0 ∧ offset + wordSize ≤ r.size then .ok (r.word offset)
  else .error (.read offset)

def Region.fetchTag (r : Region) (offset : Nat) : Except Fault Tag := Tag.ofWord <$> r.fetch offset

section Arithmetic

variable {α β : Type} {r : Region} {m n o k : Nat}

theorem bind_eq_ok_iff {x : Except Fault α} {f : α → Except Fault β} {b : β} :
    x >>= f = .ok b ↔ ∃ a, x = .ok a ∧ f a = .ok b := by
  cases x with
  | error e => exact ⟨nofun, nofun⟩
  | ok a => exact ⟨fun h => ⟨a, rfl, h⟩, fun ⟨_, ha, h⟩ => Except.ok.inj ha ▸ h⟩

theorem plus_eq_ok (h : plus m n = .ok k) : k = m + n := by
  unfold plus at h
  split at h
  · exact (Except.ok.inj h).symm
  · cases h

theorem Region.fetch_eq_ok (h : r.fetch o = .ok k) : k = r.word o := by
  unfold fetch at h
  split at h
  · exact (Except.ok.inj h).symm
  · cases h

theorem plus_of_lt (h : m + n < wordLimit) : plus m n = pure (m + n) := if_pos h

theorem plus_of_le (h : wordLimit ≤ m + n) : plus m n = .error (.sum m n) :=
  if_neg (Nat.not_lt.mpr h)

theorem Region.fetch_of_le (hMod : o % 8 = 0) (hIn : o + 8 ≤ r.size) :
    r.fetch o = pure (r.word o) :=
  if_pos ⟨hMod, hIn⟩

theorem Region.fetchTag_of_le (hMod : o % 8 = 0) (hIn : o + 8 ≤ r.size) :
    r.fetchTag o = pure (r.tag o) := by
  rw [fetchTag, fetch_of_le hMod hIn, map_pure, tag]

end Arithmetic

section Loop

variable {P Q A : Type} {turn : P → Except Fault (P ⊕ A)} {p q : P} {a b : Except Fault A}

/-- The loop whose rounds are `turn` ends with an answer or a fault when it is started at a point. A
round goes on to another point or settles the answer. -/
inductive Ends (turn : P → Except Fault (P ⊕ A)) : P → Except Fault A → Prop where
  | fault {p : P} {f : Fault} : turn p = .error f → Ends turn p (.error f)
  | done {p : P} {a : A} : turn p = .ok (.inr a) → Ends turn p (.ok a)
  | next {p q : P} {a : Except Fault A} : turn p = .ok (.inl q) → Ends turn q a → Ends turn p a

/-- The loop ends as said, after it has come to these points, one after the other. -/
inductive Trail (turn : P → Except Fault (P ⊕ A)) : P → List P → Except Fault A → Prop where
  | fault {p : P} {f : Fault} : turn p = .error f → Trail turn p [p] (.error f)
  | done {p : P} {a : A} : turn p = .ok (.inr a) → Trail turn p [p] (.ok a)
  | next {p q : P} {qs : List P} {a : Except Fault A} : turn p = .ok (.inl q) →
      Trail turn q qs a → Trail turn p (p :: qs) a

inductive After (turn : P → Except Fault (P ⊕ A)) :
    Except Fault (P ⊕ A) → Except Fault A → Prop where
  | fault {f : Fault} : After turn (.error f) (.error f)
  | done {a : A} : After turn (.ok (.inr a)) (.ok a)
  | next {q : P} {a : Except Fault A} : Ends turn q a → After turn (.ok (.inl q)) a

theorem After.ends (h : After turn (turn p) a) : Ends turn p a := by
  generalize hTurn : turn p = result at h
  cases h with
  | fault => exact .fault hTurn
  | done => exact .done hTurn
  | next hRest => exact .next hTurn hRest

theorem After.ite {c : Prop} [Decidable c] {x y : Except Fault (P ⊕ A)} {u v : A}
    (hThen : c → After turn x (.ok u)) (hElse : ¬ c → After turn y (.ok v)) :
    After turn (if c then x else y) (.ok (if c then u else v)) := by
  split
  · next h => exact hThen h
  · next h => exact hElse h

abbrev Reaches (turn : P → Except Fault (P ⊕ A)) : P → P → Prop :=
  Relation.ReflTransGen fun p q => turn p = .ok (.inl q)

theorem Ends.unique (h : Ends turn p a) (h' : Ends turn p b) : a = b := by
  induction h with
  | fault hTurn => cases h' <;> simp_all
  | done hTurn => cases h' <;> simp_all
  | next hTurn _ ih =>
    cases h' with
    | fault hTurn' => simp_all
    | done hTurn' => simp_all
    | next hTurn' hRest =>
      rw [hTurn] at hTurn'
      cases hTurn'
      exact ih hRest

theorem Ends.of_reaches (hReaches : Reaches turn p q) (h : Ends turn q a) : Ends turn p a := by
  induction hReaches using Relation.ReflTransGen.head_induction_on with
  | refl => exact h
  | head hTurn _ ih => exact .next hTurn ih

theorem Ends.exists_trail (h : Ends turn p a) : ∃ ps, Trail turn p ps a := by
  induction h with
  | fault hTurn => exact ⟨_, .fault hTurn⟩
  | done hTurn => exact ⟨_, .done hTurn⟩
  | next hTurn _ ih =>
    obtain ⟨ps, hTrail⟩ := ih
    exact ⟨_, .next hTurn hTrail⟩

/-- A loop takes no more rounds than a measure that each of them lowers allows. -/
theorem Trail.length_le {ps : List P} {m : P → Nat}
    (hTurn : ∀ p q, turn p = .ok (.inl q) → m q < m p) (h : Trail turn p ps a) :
    ps.length ≤ m p + 1 := by
  induction h with
  | fault _ => exact Nat.le_add_left 1 _
  | done _ => exact Nat.le_add_left 1 _
  | next hNext _ ih =>
    have hLower := hTurn _ _ hNext
    rw [List.length_cons]
    omega

/-- What each round preserves holds of every point that is reached. -/
theorem Reaches.preserves {I : P → Prop} (hTurn : ∀ p q, I p → turn p = .ok (.inl q) → I q)
    (h : Reaches turn p q) (hp : I p) : I q := by
  induction h with
  | refl => exact hp
  | tail _ hNext ih => exact hTurn _ _ ih hNext

/-- A loop within a loop: its points are points of the outer one, and so are its rounds. -/
theorem Ends.embed {outer : Q → Except Fault (Q ⊕ A)} {g : P → Q}
    (hOuter : ∀ p, outer (g p) = Sum.map g id <$> turn p) (h : Ends turn p a) :
    Ends outer (g p) a := by
  induction h with
  | fault hTurn =>
    refine .fault ?_
    rw [hOuter, hTurn]
    rfl
  | done hTurn =>
    refine .done ?_
    rw [hOuter, hTurn]
    rfl
  | next hTurn _ ih =>
    refine .next ?_ ih
    rw [hOuter, hTurn]
    rfl

end Loop

end BlockHeap
