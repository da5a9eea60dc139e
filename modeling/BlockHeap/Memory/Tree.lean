/-!
# Binary trees of bytes

A tree of height `h` holds a byte for each index below `width h`, two to the power of `h`. A part
whose bytes are all equal is a single leaf, so that a large area filled with one byte costs little.
Only the low `h` bits of an index matter, and each level of the tree is chosen by one of them. The
three lemmas `byte_set`, `byte_fill` and `expand_runs` say what the operations do to the bytes;
nothing else is used about trees.
-/

namespace BlockHeap

/-- The number of indices of a tree: two to the power of its height. -/
def width (height : Nat) : Nat := 1 <<< height

theorem width_eq (h : Nat) : width h = Nat.pow 2 h := Nat.one_shiftLeft h

theorem width_succ (k : Nat) : width (k + 1) = 2 * width k := by
  rw [width_eq, width_eq]
  exact Nat.pow_succ'

theorem width_mono {h k : Nat} (hk : h ≤ k) : width h ≤ width k := by
  rw [width_eq, width_eq]
  exact Nat.pow_le_pow_right (by decide) hk

theorem testBit_mod_width (a h i : Nat) :
    (a % width h).testBit i = (decide (i < h) && a.testBit i) := by
  rw [width_eq]
  exact Nat.testBit_mod_two_pow a h i

inductive Tree : Nat → Type where
  | all {h : Nat} (b : UInt8) : Tree h
  | split {h : Nat} (lower upper : Tree h) : Tree (h + 1)

structure ByteRun where
  byte : UInt8
  count : Nat
deriving DecidableEq

/-- The values of `f` at `count` places from `a` on. -/
def window (f : Nat → UInt8) (a : Nat) : (count : Nat) → List UInt8
  | 0 => []
  | count + 1 => f a :: window f (a + 1) count

@[simp] theorem length_window (f : Nat → UInt8) (a count : Nat) :
    (window f a count).length = count := by
  induction count generalizing a with
  | zero => rfl
  | succ n ih => simp [window, ih]

theorem window_add (f : Nat → UInt8) (a m n : Nat) :
    window f a (m + n) = window f a m ++ window f (a + m) n := by
  induction m generalizing a with
  | zero => simp [window]
  | succ m ih =>
    rw [show m + 1 + n = (m + n) + 1 by omega, window, window, ih, List.cons_append,
      show a + 1 + m = a + (m + 1) by omega]

theorem window_congr {f g : Nat → UInt8} {a b count : Nat}
    (h : ∀ i, i < count → f (a + i) = g (b + i)) : window f a count = window g b count := by
  induction count generalizing a b with
  | zero => rfl
  | succ n ih =>
    rw [window, window, ih, show f a = g b from h 0 (by omega)]
    intro i hi
    rw [show a + 1 + i = a + (i + 1) by omega, show b + 1 + i = b + (i + 1) by omega]
    exact h (i + 1) (by omega)

theorem window_const {f : Nat → UInt8} {b : UInt8} {a count : Nat}
    (h : ∀ i, i < count → f (a + i) = b) : window f a count = List.replicate count b := by
  induction count generalizing a with
  | zero => rfl
  | succ n ih =>
    rw [window, List.replicate_succ, ih, show f a = b from h 0 (by omega)]
    intro i hi
    rw [show a + 1 + i = a + (i + 1) by omega]
    exact h (i + 1) (by omega)

theorem getElem?_window (f : Nat → UInt8) (a count i : Nat) :
    (window f a count)[i]? = if i < count then some (f (a + i)) else none := by
  induction count generalizing a i with
  | zero => simp [window]
  | succ n ih =>
    cases i with
    | zero => simp [window]
    | succ i =>
      rw [window, List.getElem?_cons_succ, ih, show a + 1 + i = a + (i + 1) by omega]
      simp

namespace ByteRun

def bytes (r : ByteRun) : List UInt8 := List.replicate r.count r.byte

def push (r : ByteRun) (rest : List ByteRun) : List ByteRun :=
  if r.count = 0 then rest
  else
    match rest with
    | [] => [r]
    | s :: rest => if r.byte = s.byte then ⟨r.byte, r.count + s.count⟩ :: rest else r :: s :: rest

def expand (runs : List ByteRun) : List UInt8 := runs.flatMap bytes

@[simp] theorem expand_nil : expand [] = [] := rfl

@[simp] theorem expand_cons (r : ByteRun) (rest : List ByteRun) :
    expand (r :: rest) = r.bytes ++ expand rest := rfl

@[simp] theorem expand_push (r : ByteRun) (rest : List ByteRun) :
    expand (r.push rest) = r.bytes ++ expand rest := by
  unfold push
  split
  · next h => simp [bytes, h]
  · cases rest with
    | nil => rfl
    | cons s rest =>
      simp only
      split
      · next h => simp [bytes, ← h, ← List.replicate_append_replicate]
      · rfl

end ByteRun

namespace Tree

def byte {h : Nat} : Tree h → Nat → UInt8
  | .all b, _ => b
  | .split (h := k) lower upper, a => if a.testBit k then upper.byte a else lower.byte a

def lower {k : Nat} : Tree (k + 1) → Tree k
  | .all b => .all b
  | .split l _ => l

def upper {k : Nat} : Tree (k + 1) → Tree k
  | .all b => .all b
  | .split _ u => u

def set : {h : Nat} → Tree h → Nat → UInt8 → Tree h
  | 0, _, _, b => .all b
  | k + 1, t, a, b =>
    if a.testBit k then .split t.lower (t.upper.set a b) else .split (t.lower.set a b) t.upper

/-- Replaces the bytes at the indices from `lo` up to, but not including, `hi`. -/
def fill : {h : Nat} → Tree h → Nat → Nat → UInt8 → Tree h
  | 0, t, lo, hi, b => if lo < hi ∧ lo = 0 then .all b else t
  | k + 1, t, lo, hi, b =>
    let half := width k
    if hi ≤ lo ∨ 2 * half ≤ lo then t
    else if lo = 0 ∧ 2 * half ≤ hi then .all b
    else .split (t.lower.fill lo hi b) (t.upper.fill (lo - half) (hi - half) b)

def runs {h : Nat} : Tree h → Nat → Nat → List ByteRun → List ByteRun
  | .all b, lo, hi, rest => ByteRun.push ⟨b, hi - lo⟩ rest
  | .split (h := k) lower upper, lo, hi, rest =>
    if hi ≤ lo then rest
    else
      let half := width k
      lower.runs lo (min hi half) (upper.runs (lo - half) (hi - half) rest)

theorem byte_succ {k : Nat} (t : Tree (k + 1)) (a : Nat) :
    t.byte a = if a.testBit k then t.upper.byte a else t.lower.byte a := by
  cases t with
  | all b => simp [byte, upper, lower]
  | split l u => rfl

theorem byte_congr {h : Nat} (t : Tree h) {a b : Nat} (e : a % width h = b % width h) :
    t.byte a = t.byte b := by
  induction t with
  | all c => rfl
  | @split k l u ihl ihu =>
    have hbit : ∀ i, i < k + 1 → a.testBit i = b.testBit i := by
      intro i hi
      simpa [testBit_mod_width, hi] using congrArg (fun n => n.testBit i) e
    have hlow : a % width k = b % width k := by
      apply Nat.eq_of_testBit_eq
      intro i
      by_cases hi : i < k
      · simp [testBit_mod_width, hi, hbit i (by omega)]
      · simp [testBit_mod_width, hi]
    simp only [byte, hbit k (by omega), ihl hlow, ihu hlow]

theorem testBit_iff_le {k a : Nat} (ha : a < width (k + 1)) : a.testBit k = true ↔ width k ≤ a := by
  constructor
  · intro h
    rw [width_eq]
    exact Nat.ge_two_pow_of_testBit h
  · intro h
    rw [width_succ] at ha
    rw [Nat.testBit_eq_decide_div_mod_eq]
    have hdiv : a / Nat.pow 2 k = 1 := by
      rw [← width_eq]
      apply Nat.div_eq_of_lt_le
      · omega
      · omega
    exact decide_eq_true (congrArg (· % 2) hdiv)

theorem byte_of_lt {k : Nat} (t : Tree (k + 1)) {a : Nat} (ha : a < width (k + 1)) :
    t.byte a = if width k ≤ a then t.upper.byte (a - width k) else t.lower.byte a := by
  rw [byte_succ]
  by_cases h : width k ≤ a
  · rw [if_pos ((testBit_iff_le ha).mpr h), if_pos h]
    apply byte_congr
    conv => lhs; rw [show a = (a - width k) + width k by omega, Nat.add_mod_right]
  · rw [if_neg (mt (testBit_iff_le ha).mp h), if_neg h]

theorem byte_set {h : Nat} (t : Tree h) (b : UInt8) {a x : Nat} (ha : a < width h)
    (hx : x < width h) :
    (t.set a b).byte x = if x = a then b else t.byte x := by
  suffices H : ∀ {h : Nat} (t : Tree h) (a x : Nat),
      (t.set a b).byte x = if x % width h = a % width h then b else t.byte x by
    simpa [Nat.mod_eq_of_lt ha, Nat.mod_eq_of_lt hx] using H t a x
  intro h
  induction h with
  | zero =>
    intro t a x
    have hone : width 0 = 1 := rfl
    simp [set, byte, hone, Nat.mod_one]
  | succ k ih =>
    intro t a x
    have key : x % width (k + 1) = a % width (k + 1) ↔
        (x.testBit k = a.testBit k ∧ x % width k = a % width k) := by
      constructor
      · intro e
        have hb := congrArg (fun n => n.testBit k) e
        have hm := congrArg (fun n => n % width k) e
        simp only [testBit_mod_width, Nat.lt_succ_self, decide_true, Bool.true_and] at hb
        simp only [width_succ, Nat.mul_comm 2, Nat.mod_mul_right_mod] at hm
        exact ⟨hb, hm⟩
      · rintro ⟨hb, hm⟩
        apply Nat.eq_of_testBit_eq
        intro i
        simp only [testBit_mod_width]
        by_cases hi : i < k
        · have := congrArg (fun n => n.testBit i) hm
          simp only [testBit_mod_width, hi, decide_true, Bool.true_and] at this
          rw [this]
        · by_cases hik : i = k
          · subst hik
            simp [hb]
          · simp [show ¬ i < k + 1 by omega]
    rw [byte_succ, set, byte_succ t]
    by_cases hab : a.testBit k = true <;> by_cases hxb : x.testBit k = true <;>
      simp_all [upper, lower]

theorem byte_fill {h : Nat} (t : Tree h) (lo hi : Nat) (b : UInt8) {x : Nat} (hx : x < width h) :
    (t.fill lo hi b).byte x = if lo ≤ x ∧ x < hi then b else t.byte x := by
  induction h generalizing lo hi x with
  | zero =>
    have hone : width 0 = 1 := rfl
    have : x = 0 := by omega
    subst this
    simp only [fill]
    by_cases hc : lo < hi ∧ lo = 0
    · rw [if_pos hc, if_pos (by omega)]
      rfl
    · rw [if_neg hc, if_neg (by omega)]
  | succ k ih =>
    have hpow := width_succ k
    simp only [fill]
    split
    · next hc => rw [if_neg (by omega)]
    · split
      · next hc =>
        rw [if_pos (by omega)]
        rfl
      · rw [byte_of_lt _ hx, byte_of_lt t hx]
        by_cases hk : width k ≤ x
        · rw [if_pos hk, if_pos hk]
          simp only [upper]
          rw [ih _ _ _ (by omega)]
          by_cases hc : lo ≤ x ∧ x < hi
          · rw [if_pos (by omega), if_pos hc]
          · rw [if_neg (by omega), if_neg hc]
        · rw [if_neg hk, if_neg hk]
          simp only [lower]
          rw [ih _ _ _ (by omega)]

theorem expand_runs {h : Nat} (t : Tree h) (lo hi : Nat) (rest : List ByteRun) (hh : hi ≤ width h) :
    ByteRun.expand (t.runs lo hi rest) = window t.byte lo (hi - lo) ++ ByteRun.expand rest := by
  induction t generalizing lo hi rest with
  | all c =>
    simp only [runs, ByteRun.expand_push, ByteRun.bytes]
    rw [window_const]
    intro i _
    rfl
  | @split k l u ihl ihu =>
    have hpow := width_succ k
    simp only [runs]
    split
    · next hc => simp [show hi - lo = 0 by omega, window]
    · rw [ihl _ _ _ (Nat.min_le_right _ _), ihu _ _ _ (by omega), ← List.append_assoc]
      congr 1
      rw [show hi - lo = (min hi (width k) - lo) + (hi - width k - (lo - width k)) by omega,
        window_add]
      congr 1
      · apply window_congr
        intro i hi'
        rw [byte_of_lt _ (by omega), if_neg (by omega)]
        rfl
      · apply window_congr
        intro i hi'
        rw [byte_of_lt _ (by omega), if_pos (by omega)]
        simp only [upper]
        congr 1
        omega

end Tree

end BlockHeap
