import BlockHeap.Text.Blank
import Mathlib.Data.List.DropRight

/-!
# Lines, words and trimmed text

What cutting a text comes to, said of the text and its pieces alone: `Lined` of lines, `Trimmed` of
what is left without the blanks around it, `Spaced` of words. Each of these relates a text to
exactly one answer, the one that is computed.
-/

namespace BlockHeap.Text

def Blank (cs : List Char) : Prop := ∀ c ∈ cs, isBlank c = true

/-- The lines of a text: each ends at a line feed, and a carriage return before it is no part of the
line either; the last one, if it has any characters, may end with the text. -/
inductive Lined : List Char → List (List Char) → Prop where
  | nil : Lined [] []
  | last {line : List Char} : line ≠ [] → '\n' ∉ line → Lined line [line]
  | feed {line rest : List Char} {rows : List (List Char)} :
      '\n' ∉ line → line.getLast? ≠ some '\r' → Lined rest rows →
      Lined (line ++ '\n' :: rest) (line :: rows)
  | returnFeed {line rest : List Char} {rows : List (List Char)} :
      '\n' ∉ line → Lined rest rows → Lined (line ++ '\r' :: '\n' :: rest) (line :: rows)

/-- What is left of a text without the blanks around it. -/
structure Trimmed (cs content : List Char) : Prop where
  around : ∃ before after, cs = before ++ content ++ after ∧ Blank before ∧ Blank after
  head : ∀ c ∈ content.head?, isBlank c = false
  last : ∀ c ∈ content.getLast?, isBlank c = false

/-- The words of a text, with blanks around them and between any two. -/
inductive Spaced : List Char → List (List Char) → Prop where
  | nil {gap : List Char} : Blank gap → Spaced gap []
  | cons {gap word rest : List Char} {ws : List (List Char)} :
      Blank gap → word ≠ [] → (∀ c ∈ word, isBlank c = false) →
      (∀ c ∈ rest.head?, isBlank c = true) → Spaced rest ws →
      Spaced (gap ++ word ++ rest) (word :: ws)

variable {cs content gap line rest word xs ys : List Char} {rows ws : List (List Char)} {c : Char}

theorem dropReturn_of_ne (h : line.getLast? ≠ some '\r') : dropReturn line = line := if_neg h

theorem dropReturn_append (line : List Char) : dropReturn (line ++ ['\r']) = line := by
  rw [dropReturn, if_pos List.getLast?_concat, List.dropLast_concat]

theorem linesOf_cons {piece : List Char} {pieces : List (List Char)} (h : pieces ≠ []) :
    linesOf (piece :: pieces) = dropReturn piece :: linesOf pieces := by
  obtain ⟨next, rest, rfl⟩ := List.exists_cons_of_ne_nil h
  rfl

theorem splitOn_feed (h : '\n' ∉ line) : splitOn (· == '\n') line = [line] :=
  splitOn_of_all_not fun _ hc => beq_eq_false_iff_ne.mpr fun hEq => h (hEq ▸ hc)

theorem lines_feed (h : '\n' ∉ line) (rest : List Char) :
    lines (line ++ '\n' :: rest) = dropReturn line :: lines rest := by
  rw [lines, splitOn_append line (by rfl) rest, splitOn_feed h, List.singleton_append,
    linesOf_cons (splitOn_ne_nil _ rest), lines]

theorem Lined.lines_eq (h : Lined cs rows) : lines cs = rows := by
  induction h with
  | nil => rfl
  | @last line hNonempty hFeed =>
    rw [lines, splitOn_feed hFeed, linesOf, if_neg (by simpa using hNonempty)]
  | feed hFeed hReturn _ ih => rw [lines_feed hFeed, dropReturn_of_ne hReturn, ih]
  | @returnFeed line rest rows hFeed _ ih =>
    rw [List.append_cons, lines_feed (by simpa using hFeed), dropReturn_append, ih]

theorem exists_lined (cs : List Char) : ∃ rows, Lined cs rows := by
  -- On the length, since one step takes all up to the next line feed.
  induction hLength : cs.length using Nat.strong_induction_on generalizing cs with
  | _ n ih =>
    by_cases hFeed : '\n' ∈ cs
    · obtain ⟨line, rest, rfl, hNot⟩ := List.eq_append_cons_of_mem hFeed
      have hShorter : rest.length < n := by
        rw [← hLength, List.length_append, List.length_cons]
        omega
      obtain ⟨rows, hRows⟩ := ih _ hShorter rest rfl
      by_cases hReturn : line.getLast? = some '\r'
      · obtain ⟨front, rfl⟩ := List.getLast?_eq_some_iff.mp hReturn
        rw [← List.append_cons]
        exact ⟨front :: rows, .returnFeed (by simpa using hNot) hRows⟩
      · exact ⟨line :: rows, .feed hNot hReturn hRows⟩
    · by_cases hNil : cs = []
      · exact ⟨[], hNil ▸ .nil⟩
      · exact ⟨[cs], .last hNil hFeed⟩

theorem lined_iff : Lined cs rows ↔ lines cs = rows := by
  constructor
  · exact Lined.lines_eq
  · rintro rfl
    obtain ⟨rows, h⟩ := exists_lined cs
    rwa [h.lines_eq]

theorem exists_span (p : Char → Bool) (cs : List Char) : ∃ xs ys, cs = xs ++ ys ∧
    (∀ c ∈ xs, p c = true) ∧ ∀ c ∈ ys.head?, p c = false := by
  refine ⟨cs.takeWhile p, cs.dropWhile p, List.takeWhile_append_dropWhile.symm,
    fun _ hc => List.mem_takeWhile_imp hc, fun c hc => ?_⟩
  have hHead := List.head?_dropWhile_not p cs
  rwa [hc] at hHead

theorem dropWhile_blank (hGap : Blank gap) (hHead : ∀ c ∈ rest.head?, isBlank c = false) :
    (gap ++ rest).dropWhile isBlank = rest := by
  rw [List.dropWhile_append_of_pos hGap, List.dropWhile_eq_self_iff]
  intro hPos
  rw [hHead _ (List.head?_eq_getElem? ▸ List.getElem?_eq_getElem hPos)]
  exact Bool.false_ne_true

theorem Blank.append (hx : Blank xs) (hy : Blank ys) : Blank (xs ++ ys) :=
  List.forall_mem_append.mpr ⟨hx, hy⟩

theorem Trimmed.trim_eq (h : Trimmed cs content) : trim cs = content := by
  obtain ⟨⟨before, after, rfl, hBefore, hAfter⟩, hHead, hLast⟩ := h
  have hAfter' : Blank after.reverse := fun c hc => hAfter c (List.mem_reverse.mp hc)
  by_cases hNil : content = []
  · subst hNil
    rw [List.append_nil, trim, List.dropWhile_eq_nil_iff.mpr (hBefore.append hAfter)]
    rfl
  · obtain ⟨c, rest, rfl⟩ := List.exists_cons_of_ne_nil hNil
    have hRest : (before ++ (c :: rest ++ after)).dropWhile isBlank = c :: rest ++ after :=
      dropWhile_blank hBefore hHead
    rw [trim, List.append_assoc, hRest, List.reverse_append,
      dropWhile_blank hAfter' (by rwa [List.head?_reverse]), List.reverse_reverse]

theorem exists_trimmed (cs : List Char) : ∃ content, Trimmed cs content := by
  obtain ⟨before, front, rfl, hBefore, hFront⟩ := exists_span isBlank cs
  obtain ⟨after, back, hBack, hAfter, hLast⟩ := exists_span isBlank front.reverse
  obtain rfl : front = back.reverse ++ after.reverse := by
    rw [← List.reverse_append, ← hBack, List.reverse_reverse]
  refine ⟨back.reverse, ⟨before, after.reverse, (List.append_assoc _ _ _).symm, hBefore,
    fun c hc => hAfter c (List.mem_reverse.mp hc)⟩, fun c hc => hFront c ?_, fun c hc => hLast c ?_⟩
  · rw [List.head?_append, hc]
    rfl
  · rwa [List.getLast?_reverse] at hc

theorem trimmed_iff : Trimmed cs content ↔ trim cs = content := by
  constructor
  · exact Trimmed.trim_eq
  · rintro rfl
    obtain ⟨content, h⟩ := exists_trimmed cs
    rwa [h.trim_eq]

/-- A carriage return is blank, so trimming does not depend on whether a line has lost one. -/
theorem trim_dropReturn (line : List Char) : trim (dropReturn line) = trim line := by
  by_cases hReturn : line.getLast? = some '\r'
  · obtain ⟨front, rfl⟩ := List.getLast?_eq_some_iff.mp hReturn
    obtain ⟨⟨before, after, hAround, hBefore, hAfter⟩, hHead, hLast⟩ :=
      trimmed_iff.mpr (Eq.refl (trim front))
    rw [dropReturn_append]
    refine (Trimmed.trim_eq ⟨⟨before, after ++ ['\r'], ?_, hBefore, ?_⟩, hHead, hLast⟩).symm
    · rw [← List.append_assoc, ← hAround]
    · exact hAfter.append (List.forall_mem_singleton.mpr (by decide))
  · rw [dropReturn_of_ne hReturn]

theorem words_append_cons (xs : List Char) (hc : isBlank c = true) (ys : List Char) :
    words (xs ++ c :: ys) = words xs ++ words ys := by
  rw [words, splitOn_append xs hc ys, List.filter_append, words, words]

theorem words_cons (hc : isBlank c = true) (cs : List Char) : words (c :: cs) = words cs :=
  words_append_cons [] hc cs

theorem words_append_of_blank (hGap : Blank gap) (cs : List Char) :
    words (gap ++ cs) = words cs := by
  induction gap with
  | nil => rfl
  | cons c gap ih =>
    obtain ⟨hc, hRest⟩ := List.forall_mem_cons.mp hGap
    rw [List.cons_append, words_cons hc, ih hRest]

theorem words_of_blank (hGap : Blank gap) : words gap = [] := by
  have hWords := words_append_of_blank hGap []
  rwa [List.append_nil] at hWords

theorem words_word (hNonempty : word ≠ []) (hWord : ∀ c ∈ word, isBlank c = false) :
    words word = [word] := by
  rw [words, splitOn_of_all_not hWord, List.filter_cons_of_pos (by simpa using hNonempty)]
  rfl

theorem Spaced.words_eq (h : Spaced cs ws) : words cs = ws := by
  induction h with
  | nil hGap => exact words_of_blank hGap
  | @cons gap word rest ws hGap hNonempty hWord hRest _ ih =>
    rw [List.append_assoc, words_append_of_blank hGap]
    cases rest with
    | nil => rw [List.append_nil, words_word hNonempty hWord, ← ih]; rfl
    | cons c rest =>
      have hc : isBlank c = true := hRest c rfl
      rw [words_append_cons word hc, words_word hNonempty hWord, ← ih, words_cons hc]
      rfl

theorem exists_spaced (cs : List Char) : ∃ ws, Spaced cs ws := by
  induction hLength : cs.length using Nat.strong_induction_on generalizing cs with
  | _ n ih =>
    obtain ⟨gap, front, rfl, hGap, hFront⟩ := exists_span isBlank cs
    obtain ⟨word, rest, rfl, hWord, hRest⟩ := exists_span (!isBlank ·) front
    by_cases hNil : word = []
    · subst hNil
      have hEnd : rest = [] := by
        cases rest with
        | nil => rfl
        | cons c rest => simp [hFront c rfl] at hRest
      exact ⟨[], by simpa [hEnd] using Spaced.nil hGap⟩
    · have hShorter : rest.length < n := by
        have hPos := List.length_pos_iff.mpr hNil
        rw [← hLength, List.length_append, List.length_append]
        omega
      obtain ⟨ws, hWords⟩ := ih _ hShorter rest rfl
      rw [← List.append_assoc]
      exact ⟨word :: ws, .cons hGap hNil (by simpa using hWord) (by simpa using hRest) hWords⟩

theorem Spaced.head_eq (h : Spaced cs (word :: ws)) (hHead : ∀ c ∈ cs.head?, isBlank c = false) :
    word.head? = cs.head? := by
  cases h with
  | @cons gap _ rest _ hGap hNonempty _ _ _ =>
    cases gap with
    | nil => rw [List.nil_append, List.head?_append_of_ne_nil _ hNonempty]
    | cons g gap =>
      have hBlank : isBlank g = true := hGap g List.mem_cons_self
      exact absurd (hHead g rfl) (by simp [hBlank])

theorem spaced_iff : Spaced cs ws ↔ words cs = ws := by
  constructor
  · exact Spaced.words_eq
  · rintro rfl
    obtain ⟨ws, h⟩ := exists_spaced cs
    rwa [h.words_eq]

end BlockHeap.Text
