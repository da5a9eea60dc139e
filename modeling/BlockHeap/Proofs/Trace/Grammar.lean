import BlockHeap.Proofs.Text.Numerals
import BlockHeap.Proofs.Text.Pieces
import BlockHeap.Trace.Parser
import Mathlib.Data.List.Forall2
import Mathlib.Data.List.ReduceOption

/-!
# The grammar of traces

A line means nothing, or a request, or it has no meaning at all. The parser accepts the texts of
which every line has a meaning, and answers their requests in order; of any other text it reports
the first line that has none. Line numbers count all lines, so parsing goes line feed by line feed.
-/

namespace BlockHeap

open Text (Numeral Spaced Trimmed Lined)

/-- The words of a request: a letter, and as many numerals as it takes. -/
inductive Operation.Spelled : Operation → List (List Char) → Prop where
  | allocate {x y : List Char} {id size : Nat} :
      Numeral x id → Numeral y size → Spelled (.allocate id size) [['a'], x, y]
  | free {x : List Char} {id : Nat} : Numeral x id → Spelled (.free id) [['f'], x]
  | reallocate {x y : List Char} {id size : Nat} :
      Numeral x id → Numeral y size → Spelled (.reallocate id size) [['r'], x, y]
  | zeroAllocate {x y z : List Char} {id count size : Nat} :
      Numeral x id → Numeral y count → Numeral z size →
      Spelled (.zeroAllocate id count size) [['c'], x, y, z]

/-- What a text means that is a line without the blanks around it: nothing if it is empty or starts
with a number sign, and a request if these are its words. -/
inductive Operation.Meant : Option Operation → List Char → Prop where
  | empty : Meant none []
  | comment {cs : List Char} : Meant none ('#' :: cs)
  | request {o : Operation} {content : List Char} {ws : List (List Char)} :
      Spaced content ws → o.Spelled ws → Meant (some o) content

def Operation.Means (row : List Char) (meaning : Option Operation) : Prop :=
  ∃ content, Trimmed row content ∧ Operation.Meant meaning content

namespace Operation

variable {content kind : List Char} {words arguments : List (List Char)} {numbers : List Nat}
  {o : Operation} {meaning : Option Operation}

theorem mapM_word?_eq_some_iff :
    arguments.mapM Text.word? = some numbers ↔ List.Forall₂ Numeral arguments numbers := by
  induction arguments generalizing numbers with
  | nil => simp [eq_comm]
  | cons x xs ih =>
    simp only [List.mapM_cons, Option.bind_eq_bind, Option.bind_eq_some_iff, Option.pure_def,
      Option.some.injEq, ih, Text.word?_eq_some_iff, List.forall₂_cons_left_iff]
    constructor
    · rintro ⟨n, hx, ns, hxs, rfl⟩
      exact ⟨n, ns, hx, hxs, rfl⟩
    · rintro ⟨n, ns, hx, hxs, rfl⟩
      exact ⟨n, hx, ns, hxs, rfl⟩

theorem spelled_iff : o.Spelled words ↔ ∃ kind arguments numbers, words = kind :: arguments ∧
    List.Forall₂ Numeral arguments numbers ∧ ofWords? kind numbers = some o := by
  constructor
  · rintro (⟨hx, hy⟩ | hx | ⟨hx, hy⟩ | ⟨hx, hy, hz⟩)
    · exact ⟨_, _, _, rfl, .cons hx (.cons hy .nil), rfl⟩
    · exact ⟨_, _, _, rfl, .cons hx .nil, rfl⟩
    · exact ⟨_, _, _, rfl, .cons hx (.cons hy .nil), rfl⟩
    · exact ⟨_, _, _, rfl, .cons hx (.cons hy (.cons hz .nil)), rfl⟩
  · rintro ⟨kind, arguments, numbers, rfl, hNumbers, hWords⟩
    unfold ofWords? at hWords
    split at hWords
    · obtain rfl := Option.some.inj hWords
      obtain _ | ⟨hx, _ | ⟨hy, _ | _⟩⟩ := hNumbers
      exact .allocate hx hy
    · obtain rfl := Option.some.inj hWords
      obtain _ | ⟨hx, _ | _⟩ := hNumbers
      exact .free hx
    · obtain rfl := Option.some.inj hWords
      obtain _ | ⟨hx, _ | ⟨hy, _ | _⟩⟩ := hNumbers
      exact .reallocate hx hy
    · obtain rfl := Option.some.inj hWords
      obtain _ | ⟨hx, _ | ⟨hy, _ | ⟨hz, _ | _⟩⟩⟩ := hNumbers
      exact .zeroAllocate hx hy hz
    · cases hWords

theorem ofLine?_eq_some_iff :
    ofLine? content = some o ↔ ∃ ws, Spaced content ws ∧ o.Spelled ws := by
  constructor
  · intro h
    refine ⟨Text.words content, Text.spaced_iff.mpr rfl, spelled_iff.mpr ?_⟩
    unfold ofLine? at h
    split at h
    · cases h
    · next kind arguments hWords =>
      obtain ⟨numbers, hNumbers, hRequest⟩ := Option.bind_eq_some_iff.mp h
      exact ⟨kind, arguments, numbers, hWords, mapM_word?_eq_some_iff.mp hNumbers, hRequest⟩
  · rintro ⟨ws, hSpaced, hSpelled⟩
    obtain ⟨kind, arguments, numbers, rfl, hNumbers, hRequest⟩ := spelled_iff.mp hSpelled
    rw [ofLine?, Text.spaced_iff.mp hSpaced]
    exact Option.bind_eq_some_iff.mpr ⟨numbers, mapM_word?_eq_some_iff.mpr hNumbers, hRequest⟩

theorem isSkipped_iff :
    Trace.isSkipped content = true ↔ content = [] ∨ ∃ cs, content = '#' :: cs := by
  cases content with
  | nil => simp [Trace.isSkipped]
  | cons c cs => simp [Trace.isSkipped]

theorem Spelled.not_isSkipped (h : o.Spelled words) (hSpaced : Spaced content words) :
    Trace.isSkipped content = false := by
  refine Bool.eq_false_iff.mpr fun hSkipped => ?_
  rcases isSkipped_iff.mp hSkipped with rfl | ⟨cs, rfl⟩
  · have hNone : words = [] := hSpaced.words_eq.symm
    cases hNone ▸ h
  · have hSign : ∀ c ∈ ('#' :: cs).head?, Text.isBlank c = false := by
      rintro c ⟨⟩
      rfl
    cases h <;> exact absurd (hSpaced.head_eq hSign) (by simp)

/-- What the parser makes of a line without the blanks around it. -/
def meaning? (content : List Char) : Option (Option Operation) :=
  if Trace.isSkipped content then some none else (ofLine? content).map some

theorem meant_iff : Meant meaning content ↔ meaning? content = some meaning := by
  constructor
  · rintro (_ | _ | ⟨hSpaced, hSpelled⟩)
    · rfl
    · rfl
    · rw [meaning?, hSpelled.not_isSkipped hSpaced, if_neg Bool.false_ne_true,
        ofLine?_eq_some_iff.mpr ⟨_, hSpaced, hSpelled⟩]
      rfl
  · intro h
    unfold meaning? at h
    split at h
    · next hSkipped =>
      obtain rfl := Option.some.inj h
      rcases isSkipped_iff.mp hSkipped with rfl | ⟨cs, rfl⟩
      · exact .empty
      · exact .comment
    · obtain ⟨o, hLine, rfl⟩ := Option.map_eq_some_iff.mp h
      obtain ⟨ws, hSpaced, hSpelled⟩ := ofLine?_eq_some_iff.mp hLine
      exact .request hSpaced hSpelled

theorem means_iff {row : List Char} :
    Means row meaning ↔ meaning? (Text.trim row) = some meaning := by
  simp only [Means, Text.trimmed_iff, meant_iff, exists_eq_left']

end Operation

namespace Trace

variable {contents rest rows : List (List Char)} {content : List Char} {k : Nat} {t : Trace}
  {e : TraceError}

theorem ofLines_cons (k : Nat) (content : List Char) (rest : List (List Char)) :
    ofLines k (content :: rest) = match Operation.meaning? content with
      | none => .error ⟨k, String.ofList content⟩
      | some meaning => (ofLines (k + 1) rest).map (meaning.toList ++ ·) := by
  rw [ofLines, Operation.meaning?]
  split
  · cases ofLines (k + 1) rest <;> rfl
  · cases Operation.ofLine? content <;> rfl

/-- A last line without any characters means nothing, and a line means what it does with a carriage
return behind it; so the parser may as well read the pieces between line feeds. -/
theorem ofLines_linesOf (k : Nat) (pieces : List (List Char)) :
    ofLines k ((Text.linesOf pieces).map Text.trim) = ofLines k (pieces.map Text.trim) := by
  induction pieces generalizing k with
  | nil => rfl
  | cons piece pieces ih =>
    cases pieces with
    | nil =>
      rw [Text.linesOf]
      split
      · next hEmpty =>
        obtain rfl := List.isEmpty_iff.mp hEmpty
        rfl
      · rfl
    | cons next pieces =>
      rw [Text.linesOf_cons (List.cons_ne_nil _ _), List.map_cons, List.map_cons,
        Text.trim_dropReturn, ofLines_cons, ofLines_cons, ih]

theorem parse_eq (text : String) : parse text =
    ofLines 1 ((Text.splitOn (· == '\n') text.toList).map Text.trim) := by
  rw [parse, Text.lines, ofLines_linesOf]

theorem map_eq_ok_iff {x : Except TraceError Trace} {f : Trace → Trace} :
    x.map f = .ok t ↔ ∃ u, x = .ok u ∧ f u = t := by
  cases x <;> simp [Except.map]

theorem map_eq_error_iff {x : Except TraceError Trace} {f : Trace → Trace} :
    x.map f = .error e ↔ x = .error e := by
  cases x <;> simp [Except.map]

theorem reduceOption_cons (meaning : Option Operation) (meanings : List (Option Operation)) :
    (meaning :: meanings).reduceOption = meaning.toList ++ meanings.reduceOption := by
  cases meaning <;> rfl

theorem ofLines_eq_ok_iff : ofLines k (rows.map Text.trim) = .ok t ↔
    ∃ meanings, List.Forall₂ Operation.Means rows meanings ∧ meanings.reduceOption = t := by
  induction rows generalizing k t with
  | nil => simp [ofLines, List.reduceOption_nil, eq_comm]
  | cons row rows ih =>
    simp only [List.map_cons, ofLines_cons, List.forall₂_cons_left_iff, Operation.means_iff]
    cases hMeaning : Operation.meaning? (Text.trim row) with
    | none => exact iff_of_false nofun (by rintro ⟨_, ⟨_, _, ⟨⟩, _⟩, _⟩)
    | some meaning =>
      rw [map_eq_ok_iff]
      constructor
      · rintro ⟨u, hRest, rfl⟩
        obtain ⟨meanings, hMeans, rfl⟩ := ih.mp hRest
        exact ⟨_, ⟨_, meanings, rfl, hMeans, rfl⟩, reduceOption_cons meaning meanings⟩
      · rintro ⟨_, ⟨_, meanings, ⟨⟩, hMeans, rfl⟩, rfl⟩
        exact ⟨_, ih.mpr ⟨meanings, hMeans, rfl⟩, (reduceOption_cons meaning meanings).symm⟩

theorem ofLines_eq_error_iff : ofLines k (rows.map Text.trim) = .error e ↔
    ∃ before row after, rows = before ++ row :: after ∧
      (∀ r ∈ before, ∃ meaning, Operation.Means r meaning) ∧
      (∀ meaning, ¬ Operation.Means row meaning) ∧
      e = ⟨k + before.length, String.ofList (Text.trim row)⟩ := by
  induction rows generalizing k with
  | nil => simp [ofLines]
  | cons row rows ih =>
    rw [List.map_cons, ofLines_cons]
    cases hMeaning : Operation.meaning? (Text.trim row) with
    | none =>
      have hNone : ∀ meaning, ¬ Operation.Means row meaning := fun meaning h =>
        nomatch hMeaning.symm.trans (Operation.means_iff.mp h)
      constructor
      · intro h
        exact ⟨[], row, rows, rfl, by simp, hNone, (Except.error.inj h).symm⟩
      · rintro ⟨before, found, after, hRows, hBefore, _, rfl⟩
        cases before with
        | nil =>
          obtain ⟨rfl, -⟩ := List.cons.inj hRows
          rfl
        | cons first before =>
          obtain ⟨rfl, -⟩ := List.cons.inj hRows
          obtain ⟨meaning, hMeans⟩ := hBefore row List.mem_cons_self
          exact absurd hMeans (hNone meaning)
    | some meaning =>
      have hMeans : Operation.Means row meaning := Operation.means_iff.mpr hMeaning
      rw [map_eq_error_iff, ih]
      constructor
      · rintro ⟨before, found, after, rfl, hBefore, hFound, rfl⟩
        refine ⟨row :: before, found, after, rfl,
          List.forall_mem_cons.mpr ⟨⟨meaning, hMeans⟩, hBefore⟩, hFound, ?_⟩
        rw [List.length_cons, Nat.add_right_comm, Nat.add_assoc]
      · rintro ⟨before, found, after, hRows, hBefore, hFound, rfl⟩
        cases before with
        | nil =>
          obtain ⟨rfl, -⟩ := List.cons.inj hRows
          exact absurd hMeans (hFound meaning)
        | cons first before =>
          obtain ⟨rfl, rfl⟩ := List.cons.inj hRows
          refine ⟨before, found, after, rfl, (List.forall_mem_cons.mp hBefore).2, hFound, ?_⟩
          rw [List.length_cons, Nat.add_right_comm, Nat.add_assoc]

theorem ofLines_append (k : Nat) (contents rest : List (List Char)) :
    ofLines k (contents ++ rest) = match ofLines k contents with
      | .error e => .error e
      | .ok t => (ofLines (k + contents.length) rest).map (t ++ ·) := by
  induction contents generalizing k with
  | nil => cases h : ofLines k rest <;> simp [ofLines, h, Except.map]
  | cons content contents ih =>
    rw [List.cons_append, ofLines_cons, ofLines_cons, ih]
    cases Operation.meaning? content with
    | none => rfl
    | some meaning =>
      cases ofLines (k + 1) contents with
      | error e => rfl
      | ok t =>
        have hCount : k + (content :: contents).length = k + 1 + contents.length := by
          rw [List.length_cons, Nat.add_right_comm, Nat.add_assoc]
        simp only [hCount]
        cases ofLines (k + 1 + contents.length) rest <;> simp [Except.map, List.append_assoc]

theorem ofLines_add (k j : Nat) (contents : List (List Char)) : ofLines (k + j) contents =
    (ofLines k contents).mapError fun e => { e with line := e.line + j } := by
  induction contents generalizing k with
  | nil => rfl
  | cons content contents ih =>
    rw [ofLines_cons, ofLines_cons, Nat.add_right_comm, ih]
    cases Operation.meaning? content with
    | none => rfl
    | some meaning => cases ofLines (k + 1) contents <;> rfl

theorem length_splitOn (p : Char → Bool) (cs : List Char) :
    (Text.splitOn p cs).length = cs.countP p + 1 := by
  induction cs with
  | nil => rfl
  | cons c cs ih =>
    rw [Text.splitOn_cons, List.countP_cons]
    split
    · rw [List.length_cons, ih]
    · obtain ⟨piece, pieces, hPieces⟩ := List.exists_cons_of_ne_nil (Text.splitOn_ne_nil p cs)
      rw [hPieces] at ih ⊢
      exact ih

theorem eq_error_iff {n : Nat} {cs : List Char} :
    e = ⟨n, String.ofList cs⟩ ↔ e.line = n ∧ cs = e.content.toList := by
  obtain ⟨line, content⟩ := e
  rw [TraceError.mk.injEq]
  refine and_congr_right fun _ => ⟨?_, ?_⟩
  · rintro rfl
    exact String.toList_ofList.symm
  · rintro rfl
    exact String.ofList_toList.symm

/-- The parser accepts exactly the texts of which every line has a meaning, and answers their
requests in order. Of any other text it reports the first line that has none. -/
theorem parse_iff_grammar :
    (∀ (text : String) (t : Trace), parse text = .ok t ↔
      ∃ rows meanings, Lined text.toList rows ∧ List.Forall₂ Operation.Means rows meanings ∧
        meanings.reduceOption = t) ∧
    (∀ (text : String) (e : TraceError), parse text = .error e ↔
      ∃ before row after, Lined text.toList (before ++ row :: after) ∧
        (∀ r ∈ before, ∃ meaning, Operation.Means r meaning) ∧
        (∀ meaning, ¬ Operation.Means row meaning) ∧
        e.line = before.length + 1 ∧ Trimmed row e.content.toList) ∧
    ∀ s t : String, parse (s ++ "\n" ++ t) =
      match parse s, parse t with
      | .error e, _ => .error e
      | .ok _, .error e => .error { e with line := e.line + (1 + s.toList.count '\n') }
      | .ok u, .ok v => .ok (u ++ v) := by
  refine ⟨fun text t => ?_, fun text e => ?_, fun s t => ?_⟩
  · rw [parse, ofLines_eq_ok_iff]
    simp only [Text.lined_iff, exists_and_left, exists_eq_left']
  · rw [parse, ofLines_eq_error_iff]
    simp only [Text.lined_iff, Text.trimmed_iff, eq_error_iff, Nat.add_comm 1]
  · have hText : (s ++ "\n" ++ t).toList = s.toList ++ '\n' :: t.toList := by
      simp
    have hLines : 1 + ((Text.splitOn (· == '\n') s.toList).map Text.trim).length =
        1 + (1 + s.toList.count '\n') := by
      rw [List.length_map, length_splitOn, Nat.add_comm (List.countP _ _), List.count]
    rw [parse_eq, parse_eq s, parse_eq t, hText, Text.splitOn_append _ (by rfl), List.map_append,
      ofLines_append, hLines, ofLines_add]
    cases ofLines 1 ((Text.splitOn (· == '\n') s.toList).map Text.trim) with
    | error e => rfl
    | ok u => cases ofLines 1 ((Text.splitOn (· == '\n') t.toList).map Text.trim) <;> rfl

example : parse "a 0 24\r\n\n # x\n\u00a0f +0" = .ok [.allocate 0 24, .free 0] := rfl

example : parse "a 0 24\r\n\n # x\n a 0 -4 \n?" = .error ⟨4, "a 0 -4"⟩ := rfl

end Trace

end BlockHeap
