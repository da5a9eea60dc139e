/-!
# Blanks, lines and words

Blanks are the characters with the Unicode property White_Space. Text is cut into lines at line
feeds, with or without a carriage return before them, trimmed of blanks at both ends, and cut into
words at blanks. Cutting loses nothing but the separators: see `splitOn_of_all_not` and
`splitOn_append`.
-/

namespace BlockHeap.Text

def isBlank (c : Char) : Bool :=
  let n := c.toNat
  (9 ≤ n && n ≤ 13) || n == 0x20 || n == 0x85 || n == 0xa0 || n == 0x1680 ||
    (0x2000 ≤ n && n ≤ 0x200a) || n == 0x2028 || n == 0x2029 || n == 0x202f || n == 0x205f ||
    n == 0x3000

def consHead (c : Char) : List (List Char) → List (List Char)
  | [] => [[c]]
  | piece :: pieces => (c :: piece) :: pieces

/-- The pieces between the characters that satisfy `p`; there is one more than there are such
characters. -/
def splitOn (p : Char → Bool) (cs : List Char) : List (List Char) :=
  cs.foldr (fun c pieces => if p c then [] :: pieces else consHead c pieces) [[]]

/-- What ends at a line feed, without the carriage return that may come before it. -/
def dropReturn (cs : List Char) : List Char :=
  if cs.getLast? = some '\r' then cs.dropLast else cs

/-- The lines among the pieces of a text. The last piece ends at no line feed, and is a line only if
it has any characters. -/
def linesOf : List (List Char) → List (List Char)
  | [] => []
  | [last] => if last.isEmpty then [] else [last]
  | piece :: next :: pieces => dropReturn piece :: linesOf (next :: pieces)

def lines (cs : List Char) : List (List Char) := linesOf (splitOn (· == '\n') cs)

def words (cs : List Char) : List (List Char) := (splitOn isBlank cs).filter (!·.isEmpty)

def trim (cs : List Char) : List Char := ((cs.dropWhile isBlank).reverse.dropWhile isBlank).reverse

theorem splitOn_cons (p : Char → Bool) (c : Char) (cs : List Char) :
    splitOn p (c :: cs) = if p c then [] :: splitOn p cs else consHead c (splitOn p cs) := rfl

theorem splitOn_ne_nil (p : Char → Bool) (cs : List Char) : splitOn p cs ≠ [] := by
  cases cs with
  | nil => exact List.cons_ne_nil _ _
  | cons c cs =>
    rw [splitOn_cons]
    split
    · exact List.cons_ne_nil _ _
    · cases splitOn p cs <;> exact List.cons_ne_nil _ _

theorem splitOn_of_all_not {p : Char → Bool} {cs : List Char} (h : ∀ c ∈ cs, p c = false) :
    splitOn p cs = [cs] := by
  induction cs with
  | nil => rfl
  | cons c cs ih =>
    rw [splitOn_cons, h c List.mem_cons_self, ih fun d hd => h d (List.mem_cons_of_mem _ hd)]
    rfl

theorem splitOn_append {p : Char → Bool} (xs : List Char) {c : Char} (hc : p c = true)
    (ys : List Char) :
    splitOn p (xs ++ c :: ys) = splitOn p xs ++ splitOn p ys := by
  induction xs with
  | nil => rw [List.nil_append, splitOn_cons, if_pos hc]; rfl
  | cons x xs ih =>
    rw [List.cons_append, splitOn_cons, splitOn_cons, ih]
    split
    · rfl
    · cases h : splitOn p xs with
      | nil => exact absurd h (splitOn_ne_nil p xs)
      | cons piece pieces => rfl

end BlockHeap.Text
