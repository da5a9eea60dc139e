import BlockHeap.Proofs.Trace.Grammar

/-!
# Traces and their text

The text of a request is its words with a space between any two, so reading it gives the request
back, if its numbers are words. Those of a trace that has been read are.
-/

namespace BlockHeap

open Text (Numeral Spaced Lined)

namespace Text

variable {cs gap word : List Char} {ws : List (List Char)} {c : Char}

theorem words_append_blank (cs : List Char) (hGap : Blank gap) : words (cs ++ gap) = words cs := by
  cases gap with
  | nil => rw [List.append_nil]
  | cons c gap =>
    obtain ⟨hc, hRest⟩ := List.forall_mem_cons.mp hGap
    rw [words_append_cons cs hc, words_of_blank hRest, List.append_nil]

theorem words_trim (cs : List Char) : words (trim cs) = words cs := by
  obtain ⟨before, after, hAround, hBefore, hAfter⟩ := (trimmed_iff.mpr (Eq.refl (trim cs))).around
  conv_rhs => rw [hAround]
  rw [words_append_blank _ hAfter, words_append_of_blank hBefore]

def IsWord (cs : List Char) : Prop := cs ≠ [] ∧ ∀ c ∈ cs, isBlank c = false

theorem isBlank_eq_false {c : Char} (hLow : 33 ≤ c.toNat) (hHigh : c.toNat ≤ 126) :
    isBlank c = false := by
  simp only [isBlank, Bool.or_eq_false_iff, Bool.and_eq_false_iff, decide_eq_false_iff_not,
    beq_eq_false_iff_ne]
  omega

theorem isWord_toDigits (n : Nat) : IsWord (Nat.toDigits 10 n) := by
  refine ⟨by simp, fun c hc => ?_⟩
  have hDigit := isDigit_iff.mp (Nat.isDigit_of_mem_toDigits (by decide) (by decide) hc)
  have hLow : 48 ≤ c.toNat := hDigit.1
  have hHigh : c.toNat ≤ 57 := hDigit.2
  exact isBlank_eq_false (by omega) (by omega)

theorem words_intercalate (h : ∀ w ∈ ws, IsWord w) : words ([' '].intercalate ws) = ws := by
  induction ws with
  | nil => rfl
  | cons w ws ih =>
    obtain ⟨⟨hNonempty, hWord⟩, hRest⟩ := List.forall_mem_cons.mp h
    cases ws with
    | nil => rw [List.intercalate_singleton, words_word hNonempty hWord]
    | cons v ws =>
      rw [List.intercalate_cons_cons, List.append_assoc, List.singleton_append,
        words_append_cons w (by rfl), words_word hNonempty hWord, ih hRest]
      rfl

theorem not_mem_intercalate (h : ∀ w ∈ ws, IsWord w) (hBlank : isBlank c = true) (hc : c ≠ ' ') :
    c ∉ [' '].intercalate ws := by
  induction ws with
  | nil => exact List.not_mem_nil
  | cons w ws ih =>
    obtain ⟨⟨_, hWord⟩, hRest⟩ := List.forall_mem_cons.mp h
    have hNot : c ∉ w := fun hMem => Bool.false_ne_true ((hWord c hMem).symm.trans hBlank)
    cases ws with
    | nil => rwa [List.intercalate_singleton]
    | cons v ws =>
      rw [List.intercalate_cons_cons]
      simp only [List.mem_append, List.mem_singleton, not_or]
      exact ⟨⟨hNot, hc⟩, ih hRest⟩

end Text

namespace Operation

variable {o : Operation} {ws : List (List Char)}

def Fits : Operation → Prop
  | .allocate id size => id < wordLimit ∧ size < wordLimit
  | .free id => id < wordLimit
  | .reallocate id size => id < wordLimit ∧ size < wordLimit
  | .zeroAllocate id count size => id < wordLimit ∧ count < wordLimit ∧ size < wordLimit

def spelling : Operation → List (List Char)
  | .allocate id size => [['a'], Nat.toDigits 10 id, Nat.toDigits 10 size]
  | .free id => [['f'], Nat.toDigits 10 id]
  | .reallocate id size => [['r'], Nat.toDigits 10 id, Nat.toDigits 10 size]
  | .zeroAllocate id count size =>
      [['c'], Nat.toDigits 10 id, Nat.toDigits 10 count, Nat.toDigits 10 size]

theorem toList_text (o : Operation) : o.text.toList = [' '].intercalate o.spelling := by
  cases o <;> simp [text, spelling, List.intercalate_cons_cons] <;> rfl

theorem spelled_spelling (h : o.Fits) : o.Spelled o.spelling := by
  cases o with
  | allocate id size => exact .allocate (Text.numeral_toDigits h.1) (Text.numeral_toDigits h.2)
  | free id => exact .free (Text.numeral_toDigits h)
  | reallocate id size => exact .reallocate (Text.numeral_toDigits h.1) (Text.numeral_toDigits h.2)
  | zeroAllocate id count size =>
    exact .zeroAllocate (Text.numeral_toDigits h.1) (Text.numeral_toDigits h.2.1)
      (Text.numeral_toDigits h.2.2)

theorem Spelled.fits (h : o.Spelled ws) : o.Fits := by
  cases h with
  | allocate hx hy => exact ⟨hx.lt, hy.lt⟩
  | free hx => exact hx.lt
  | reallocate hx hy => exact ⟨hx.lt, hy.lt⟩
  | zeroAllocate hx hy hz => exact ⟨hx.lt, hy.lt, hz.lt⟩

theorem isWord_of_mem_spelling (o : Operation) : ∀ w ∈ o.spelling, Text.IsWord w := by
  have hLetter : ∀ {c : Char}, Text.isBlank c = false → Text.IsWord [c] := fun h =>
    ⟨List.cons_ne_nil _ _, List.forall_mem_singleton.mpr h⟩
  cases o <;> simp [spelling, Text.isWord_toDigits] <;> exact hLetter rfl

theorem not_mem_text {c : Char} (hBlank : Text.isBlank c = true) (hc : c ≠ ' ') (o : Operation) :
    c ∉ o.text.toList := by
  rw [toList_text]
  exact Text.not_mem_intercalate o.isWord_of_mem_spelling hBlank hc

theorem means_text (h : o.Fits) : Means o.text.toList (some o) := by
  refine ⟨Text.trim o.text.toList, Text.trimmed_iff.mpr rfl, .request ?_ (spelled_spelling h)⟩
  rw [Text.spaced_iff, Text.words_trim, toList_text,
    Text.words_intercalate o.isWord_of_mem_spelling]

theorem Means.fits {row : List Char} (h : Means row (some o)) : o.Fits := by
  obtain ⟨content, _, hMeant⟩ := h
  cases hMeant with
  | request _ hSpelled => exact hSpelled.fits

end Operation

namespace Trace

theorem lined_text (t : Trace) : Lined t.text.toList (t.map (·.text.toList)) := by
  rw [text, String.toList_ofList]
  induction t with
  | nil => exact .nil
  | cons o t ih =>
    rw [List.flatMap_cons, List.append_assoc, List.singleton_append]
    refine .feed (o.not_mem_text (by rfl) (by decide)) (fun hReturn => ?_) ih
    exact o.not_mem_text (by rfl) (by decide) (List.mem_of_getLast? hReturn)

theorem parse_text {t : Trace} (h : ∀ o ∈ t, o.Fits) : parse t.text = .ok t := by
  rw [parse, (lined_text t).lines_eq, ofLines_eq_ok_iff]
  refine ⟨t.map some, ?_, ?_⟩
  · rw [List.forall₂_map_left_iff, List.forall₂_map_right_iff, List.forall₂_same]
    exact fun o ho => Operation.means_text (h o ho)
  · rw [List.reduceOption, List.filterMap_map]
    exact List.filterMap_some

theorem fits_of_means {rows : List (List Char)} {meanings : List (Option Operation)}
    (h : List.Forall₂ Operation.Means rows meanings) : ∀ o ∈ meanings.reduceOption, o.Fits := by
  induction h with
  | nil => exact fun _ ho => (List.not_mem_nil ho).elim
  | @cons row meaning rows meanings hRow _ ih =>
    intro o ho
    rw [reduceOption_cons] at ho
    rcases List.mem_append.mp ho with hFirst | hRest
    · obtain rfl : meaning = some o := Option.mem_toList.mp hFirst
      exact hRow.fits
    · exact ih o hRest

theorem fits_of_parse {text : String} {t : Trace} (h : parse text = .ok t) : ∀ o ∈ t, o.Fits := by
  rw [parse, ofLines_eq_ok_iff] at h
  obtain ⟨meanings, hMeans, rfl⟩ := h
  exact fits_of_means hMeans

/-- A trace of words is read back from its text; and what has been read is such a trace, so its text
is read as the same again. -/
theorem parse_roundTrip : (∀ t : Trace, (∀ o ∈ t, o.Fits) → parse t.text = .ok t) ∧
    ∀ (text : String) (t : Trace), parse text = .ok t → parse t.text = .ok t :=
  ⟨fun _ h => parse_text h, fun _ _ h => parse_text (fits_of_parse h)⟩

theorem parse_roundTrip_of_greatest :
    let t : Trace := [.allocate 0 (2 ^ 64 - 1), .zeroAllocate 1 (2 ^ 64 - 1) 0, .free 1]
    (∀ o ∈ t, o.Fits) ∧ parse t.text = .ok t ∧
    parse "# none\r\n\tr +0 0064" = .ok [.reallocate 0 64] ∧
    parse (text [.reallocate 0 64]) = .ok [.reallocate 0 64] := by
  intro t
  have hFits : ∀ o ∈ t, o.Fits := by simp [t, Operation.Fits, wordLimit]
  have hRead : parse "# none\r\n\tr +0 0064" = .ok [.reallocate 0 64] := rfl
  exact ⟨hFits, parse_roundTrip.1 t hFits, hRead, parse_roundTrip.2 _ _ hRead⟩

end Trace

end BlockHeap
