import BlockHeap.Memory.Tree
import BlockHeap.Memory.Word

/-!
# Byte memory

A memory has a byte at every address, zero until it is written. The bytes live in a tree that is
raised when an address beyond it is written, so every operation is total. The single view of a
memory is `byte`: the lemmas named `byte_…` say what each operation does to it, and words are read
and written through bytes.
-/

namespace BlockHeap

structure Memory where
  height : Nat := 0
  tree : Tree height := .all 0

namespace Memory

def byte (m : Memory) (a : Nat) : UInt8 := if a >>> m.height = 0 then m.tree.byte a else 0

def read (m : Memory) (a count : Nat) : List UInt8 := window m.byte a count

def raise (m : Memory) : (k : Nat) → Memory
  | 0 => m
  | k + 1 => ⟨(m.raise k).height + 1, .split (m.raise k).tree (.all 0)⟩

def reach (m : Memory) (a : Nat) : Memory := m.raise (a.log2 + 1 - m.height)

def setByte (m : Memory) (a : Nat) (b : UInt8) : Memory :=
  let m := m.reach a
  ⟨m.height, m.tree.set a b⟩

def fill (m : Memory) (a count : Nat) (b : UInt8) : Memory :=
  if count = 0 then m
  else
    let m := m.reach (a + count - 1)
    ⟨m.height, m.tree.fill a (a + count) b⟩

def write (m : Memory) (a : Nat) : List UInt8 → Memory
  | [] => m
  | b :: rest => (m.setByte a b).write (a + 1) rest

/-- Writes `count` bytes, each one greater than the one before, from address `a` on. -/
def ramp (m : Memory) (a count : Nat) (b : UInt8) : Memory :=
  m.write a ((List.range count).map fun i => b + i.toUInt8)

/-- The `count` bytes from address `a` on, as maximal runs of equal bytes. -/
def runs (m : Memory) (a count : Nat) : List ByteRun :=
  let stop := min (a + count) (width m.height)
  m.tree.runs a stop (ByteRun.push ⟨0, a + count - max a stop⟩ [])

def writeRuns (m : Memory) (a : Nat) : List ByteRun → Memory
  | [] => m
  | r :: rest => (m.fill a r.count r.byte).writeRuns (a + r.count) rest

/-- Copies `count` bytes; the source is read before anything is written. -/
def copy (m : Memory) (source target count : Nat) : Memory :=
  m.writeRuns target (m.runs source count)

def word (m : Memory) (a : Nat) : Nat := ofLittleEndian (m.read a wordSize)

def setWord (m : Memory) (a n : Nat) : Memory := m.write a (littleEndian wordSize n)

def words (m : Memory) (a count : Nat) : List Nat :=
  (List.range count).map fun i => m.word (a + wordSize * i)

theorem byte_eq (m : Memory) (a : Nat) :
    m.byte a = if a < width m.height then m.tree.byte a else 0 := by
  unfold byte
  have : a >>> m.height = 0 ↔ a < width m.height := by
    rw [Nat.shiftRight_eq_div_pow, Nat.div_eq_zero_iff, width_eq]
    have := Nat.two_pow_pos m.height
    exact ⟨fun h => h.resolve_left (Nat.ne_of_gt this), Or.inr⟩
  simp only [this]

@[simp] theorem height_raise (m : Memory) (k : Nat) : (m.raise k).height = m.height + k := by
  induction k with
  | zero => rfl
  | succ k ih =>
    show (m.raise k).height + 1 = _
    omega

@[simp] theorem byte_raise (m : Memory) (k a : Nat) : (m.raise k).byte a = m.byte a := by
  induction k with
  | zero => rfl
  | succ k ih =>
    rw [← ih, byte_eq, byte_eq]
    show (if a < width ((m.raise k).height + 1) then
      (Tree.split (m.raise k).tree (.all 0)).byte a else 0) = _
    have hpow := width_succ (m.raise k).height
    by_cases h : a < width (m.raise k).height
    · rw [if_pos (by omega), if_pos h, Tree.byte_of_lt _ (by omega), if_neg (by omega)]
      rfl
    · rw [if_neg h]
      split
      · next hlt =>
        rw [Tree.byte_of_lt _ hlt, if_pos (by omega)]
        rfl
      · rfl

@[simp] theorem byte_reach (m : Memory) (a x : Nat) : (m.reach a).byte x = m.byte x :=
  byte_raise _ _ _

theorem lt_reach (m : Memory) (a : Nat) : a < width (m.reach a).height := by
  rw [reach, height_raise]
  have h : a < width (a.log2 + 1) := by
    rw [width_eq]
    exact Nat.lt_log2_self
  exact Nat.lt_of_lt_of_le h (width_mono (by omega))

theorem byte_setByte (m : Memory) (a x : Nat) (b : UInt8) :
    (m.setByte a b).byte x = if x = a then b else m.byte x := by
  have ha := m.lt_reach a
  rw [← m.byte_reach a x, setByte, byte_eq, byte_eq]
  simp only
  by_cases hx : x < width (m.reach a).height
  · rw [if_pos hx, if_pos hx, Tree.byte_set _ _ ha hx]
  · rw [if_neg hx, if_neg hx, if_neg (by omega)]

theorem byte_fill (m : Memory) (a count x : Nat) (b : UInt8) :
    (m.fill a count b).byte x = if a ≤ x ∧ x < a + count then b else m.byte x := by
  unfold fill
  split
  · next h => rw [if_neg (by omega)]
  · next h =>
    have ha := m.lt_reach (a + count - 1)
    rw [← m.byte_reach (a + count - 1) x, byte_eq, byte_eq]
    simp only
    by_cases hx : x < width (m.reach (a + count - 1)).height
    · rw [if_pos hx, if_pos hx, Tree.byte_fill _ _ _ _ hx]
    · rw [if_neg hx, if_neg hx, if_neg (by omega)]

theorem byte_write (m : Memory) (a x : Nat) (bs : List UInt8) :
    (m.write a bs).byte x = if a ≤ x then (bs[x - a]?).getD (m.byte x) else m.byte x := by
  induction bs generalizing m a with
  | nil => simp [write]
  | cons b rest ih =>
    rw [write, ih, byte_setByte]
    by_cases h : a + 1 ≤ x
    · have hx : x ≠ a := by omega
      have ha : a ≤ x := by omega
      rw [if_pos h, if_neg hx, if_pos ha, show x - a = (x - (a + 1)) + 1 by omega,
        List.getElem?_cons_succ]
    · rw [if_neg h]
      by_cases hx : x = a
      · subst hx
        simp
      · have ha : ¬ a ≤ x := by omega
        rw [if_neg hx, if_neg ha]

theorem byte_write_of_lt (m : Memory) {a x : Nat} {bs : List UInt8} (h : x < a) :
    (m.write a bs).byte x = m.byte x := by
  rw [byte_write, if_neg (by omega)]

theorem byte_write_of_le (m : Memory) {a x : Nat} {bs : List UInt8} (h : a + bs.length ≤ x) :
    (m.write a bs).byte x = m.byte x := by
  rw [byte_write]
  split
  · rw [List.getElem?_eq_none (by omega), Option.getD_none]
  · rfl

theorem read_write (m : Memory) (a : Nat) (bs : List UInt8) :
    (m.write a bs).read a bs.length = bs := by
  apply List.ext_getElem?
  intro i
  rw [read, getElem?_window]
  split
  · next h =>
    rw [byte_write, if_pos (by omega), show a + i - a = i by omega, List.getElem?_eq_getElem h]
    rfl
  · next h => rw [List.getElem?_eq_none (by omega)]

theorem read_congr {m n : Memory} {a count : Nat}
    (h : ∀ x, a ≤ x → x < a + count → m.byte x = n.byte x) : m.read a count = n.read a count :=
  window_congr fun i hi => h (a + i) (by omega) (by omega)

theorem expand_runs (m : Memory) (a count : Nat) :
    ByteRun.expand (m.runs a count) = m.read a count := by
  rw [runs, Tree.expand_runs _ _ _ _ (Nat.min_le_right _ _), ByteRun.expand_push,
    ByteRun.expand_nil, List.append_nil, read]
  have hsum : count = (min (a + count) (width m.height) - a) +
      (a + count - max a (min (a + count) (width m.height))) := by omega
  conv => rhs; rw [hsum, window_add]
  congr 1
  · apply window_congr
    intro i hi
    rw [byte_eq, if_pos (by omega)]
  · rw [window_const (b := 0)]
    · rfl
    · intro i hi
      rw [byte_eq, if_neg (by omega)]

theorem byte_writeRuns (m : Memory) (a x : Nat) (rs : List ByteRun) :
    (m.writeRuns a rs).byte x = (m.write a (ByteRun.expand rs)).byte x := by
  induction rs generalizing m a with
  | nil => rfl
  | cons r rest ih =>
    rw [writeRuns, ih, byte_write, byte_write, byte_fill, ByteRun.expand_cons]
    have hlen : r.bytes.length = r.count := by simp [ByteRun.bytes]
    by_cases h1 : a + r.count ≤ x
    · have h2 : ¬ (a ≤ x ∧ x < a + r.count) := by omega
      have h3 : a ≤ x := by omega
      rw [if_pos h1, if_neg h2, if_pos h3, List.getElem?_append_right (by omega), hlen,
        show x - a - r.count = x - (a + r.count) by omega]
    · rw [if_neg h1]
      by_cases h2 : a ≤ x
      · have h3 : a ≤ x ∧ x < a + r.count := by omega
        rw [if_pos h3, if_pos h2, List.getElem?_append_left (by omega), ByteRun.bytes,
          List.getElem?_replicate, if_pos (by omega), Option.getD_some]
      · have h3 : ¬ (a ≤ x ∧ x < a + r.count) := by omega
        rw [if_neg h3, if_neg h2]

theorem byte_copy (m : Memory) (source target count x : Nat) :
    (m.copy source target count).byte x =
      if target ≤ x ∧ x < target + count then m.byte (source + (x - target)) else m.byte x := by
  rw [copy, byte_writeRuns, expand_runs, byte_write, read, getElem?_window]
  by_cases h : target ≤ x
  · rw [if_pos h]
    by_cases hx : x < target + count
    · rw [if_pos (by omega), if_pos ⟨h, hx⟩, Option.getD_some]
    · rw [if_neg (by omega), if_neg (by omega), Option.getD_none]
  · rw [if_neg h, if_neg (by omega)]

theorem word_lt (m : Memory) (a : Nat) : m.word a < wordLimit := by
  have := ofLittleEndian_lt (m.read a wordSize)
  rwa [read, length_window, show byteRange wordSize = wordLimit from rfl] at this

theorem word_congr {m n : Memory} {a : Nat}
    (h : ∀ x, a ≤ x → x < a + wordSize → m.byte x = n.byte x) : m.word a = n.word a :=
  congrArg ofLittleEndian (read_congr h)

theorem word_setWord (m : Memory) (a n : Nat) : (m.setWord a n).word a = n % wordLimit := by
  have h := m.read_write a (littleEndian wordSize n)
  rw [length_littleEndian] at h
  rw [word, setWord, h, ofLittleEndian_littleEndian]
  rfl

theorem byte_setWord_of_disjoint (m : Memory) (n : Nat) {a x : Nat} (h : x < a ∨ a + wordSize ≤ x) :
    (m.setWord a n).byte x = m.byte x := by
  rcases h with h | h
  · exact m.byte_write_of_lt h
  · exact m.byte_write_of_le (by simpa using h)

theorem word_setWord_of_disjoint (m : Memory) (n : Nat) {a b : Nat}
    (h : b + wordSize ≤ a ∨ a + wordSize ≤ b) : (m.setWord a n).word b = m.word b :=
  word_congr fun x h1 h2 => m.byte_setWord_of_disjoint n (by omega)

attribute [irreducible] byte setByte fill write writeRuns runs copy word setWord

end Memory

end BlockHeap
