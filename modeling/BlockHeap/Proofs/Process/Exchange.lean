import BlockHeap.Proofs.Ledger.Abreast

/-!
# Exchanges

What passes between the process-wide heap and its client: calls, among them the writes of the client
to the bytes that it was given, and the replies to them. Pointers only matter relative to one
another, so an exchange can be moved to another place. Some calls are idle: there is nothing to be
done for them.
-/

namespace BlockHeap

/-- A call is for something to be done, or one of two questions. To ask the process-wide heap for a
layout is to reset it. -/
inductive Call where
  | ask (q : Request)
  | usableSize (pointer : Option Nat)
  | checkHeap (verbose : Bool)
deriving DecidableEq

inductive Reply (α : Type) where
  | status (n : Int)
  | pointer (p : Option α)
  | size (n : Nat)
  | nothing
deriving DecidableEq

namespace Call

def shift (f : Nat → Nat) : Call → Call
  | ask q => ask (q.shift f)
  | usableSize pointer => usableSize (pointer.map f)
  | checkHeap verbose => checkHeap verbose

def ends (answer : Option Nat) (p : Nat) : Call → Bool
  | ask q => q.ends answer p
  | _ => false

def isIdle : Call → Bool
  | ask (.free none) => true
  | usableSize none => true
  | checkHeap _ => true
  | _ => false

/-- The client names only pointers that it holds, and writes only to their usable bytes. -/
def Lawful (live : List Nat) (usable : Nat → Nat) : Call → Prop
  | ask (.free (some pointer)) => pointer ∈ live
  | ask (.reallocate (some pointer) _) => pointer ∈ live
  | ask (.write address bytes) =>
      ∃ p ∈ live, p ≤ address ∧ address + bytes.length ≤ p + usable p
  | usableSize (some pointer) => pointer ∈ live
  | _ => True

variable {f : Nat → Nat} {c : Call}

theorem Lawful.of_nil {usable usable' : Nat → Nat} (h : c.Lawful [] usable) :
    c.Lawful [] usable' := by
  cases c with
  | ask q =>
    cases q with
    | free pointer => cases pointer <;> exact h
    | reallocate pointer n => cases pointer <;> exact h
    | write address bytes =>
      obtain ⟨p, hp, -⟩ := h
      cases hp
    | _ => trivial
  | usableSize pointer => cases pointer <;> exact h
  | checkHeap verbose => trivial

theorem shift_injective (hf : Function.Injective f) : Function.Injective (shift f) := by
  have hOption := Option.map_injective hf
  intro c d h
  rcases c with q | pointer | verbose <;> rcases d with r | pointer' | verbose' <;>
    simp only [shift, reduceCtorEq, ask.injEq, usableSize.injEq, checkHeap.injEq] at h ⊢
  · cases q <;> cases r <;> simp_all [Request.shift, hf.eq_iff, hOption.eq_iff]
  · exact hOption h
  · exact h

@[simp] theorem isIdle_shift (f : Nat → Nat) (c : Call) : (c.shift f).isIdle = c.isIdle := by
  rcases c with q | pointer | verbose
  · cases q with
    | free pointer => cases pointer <;> rfl
    | _ => rfl
  · cases pointer <;> rfl
  · rfl

theorem cases_of_isIdle (hIdle : c.isIdle = true) :
    c = ask (.free none) ∨ c = usableSize none ∨ ∃ verbose, c = checkHeap verbose := by
  rcases c with q | ⟨_ | pointer⟩ | verbose
  · cases q with
    | free pointer => cases pointer with
      | none => exact .inl rfl
      | some p => cases hIdle
    | _ => cases hIdle
  · exact .inr (.inl rfl)
  · cases hIdle
  · exact .inr (.inr ⟨verbose, rfl⟩)

theorem filter_map_shift (f : Nat → Nat) (cs : List Call) :
    ((cs.map (shift f)).filter fun c => !c.isIdle) =
      (cs.filter fun c => !c.isIdle).map (shift f) := by
  rw [List.filter_map]
  simp only [Function.comp_def, isIdle_shift]

theorem shift_eq_layOut_iff : c.shift f = .ask .layOut ↔ c = .ask .layOut := by
  rcases c with q | pointer | verbose
  · cases q <;> simp [shift, Request.shift]
  · simp [shift]
  · simp [shift]

end Call

namespace Reply

variable {α β : Type} {f : α → β}

def map (f : α → β) : Reply α → Reply β
  | status n => status n
  | pointer p => pointer (p.map f)
  | size n => size n
  | nothing => nothing

def granted : Reply α → Option α
  | pointer p => p
  | _ => none

theorem map_injective (hf : Function.Injective f) : Function.Injective (map f) := by
  have hOption := Option.map_injective hf
  intro r s h
  cases r <;> cases s <;> simp_all [map, hOption.eq_iff]

theorem granted_map (f : α → β) (r : Reply α) : (r.map f).granted = r.granted.map f := by
  cases r <;> rfl

theorem map_of_granted_eq_none {r : Reply α} (hNone : r.granted = none) (f g : α → β) :
    r.map f = r.map g := by
  cases r with
  | pointer p =>
    obtain rfl : p = none := hNone
    rfl
  | _ => rfl

theorem map_map {γ : Type} (g : β → γ) (f : α → β) (r : Reply α) :
    (r.map f).map g = r.map (g ∘ f) := by
  cases r with
  | pointer p => exact congrArg pointer (Option.map_map g f p)
  | _ => rfl

end Reply

structure Exchange where
  call : Call
  reply : Reply Nat
deriving DecidableEq

namespace Exchange

def shift (base : Nat) (e : Exchange) : Exchange where
  call := e.call.shift (base + ·)
  reply := e.reply.map (base + ·)

variable {base : Nat} {es fs : List Exchange}

theorem shift_injective (base : Nat) : Function.Injective (shift base) := by
  have hAdd : Function.Injective (base + ·) := fun _ _ => Nat.add_left_cancel
  rintro ⟨c, r⟩ ⟨d, s⟩ h
  rw [shift, shift, mk.injEq] at h
  rw [mk.injEq]
  exact ⟨Call.shift_injective hAdd h.1, Reply.map_injective hAdd h.2⟩

theorem map_call_shift (base : Nat) (es : List Exchange) :
    (es.map (shift base)).map call = (es.map call).map (Call.shift (base + ·)) := by
  rw [List.map_map, List.map_map]
  rfl

theorem map_reply_shift (base : Nat) (es : List Exchange) :
    (es.map (shift base)).map reply = (es.map reply).map (Reply.map (base + ·)) := by
  rw [List.map_map, List.map_map]
  rfl

theorem filter_map_shift (base : Nat) (es : List Exchange) :
    ((es.map (shift base)).filter fun e => !e.call.isIdle) =
      (es.filter fun e => !e.call.isIdle).map (shift base) := by
  rw [List.filter_map]
  simp only [Function.comp_def, shift, Call.isIdle_shift]

theorem since_shift_iff :
    (∀ e ∈ es.map (shift base), e.call ≠ .ask .layOut) ↔ ∀ e ∈ es, e.call ≠ .ask .layOut := by
  rw [List.forall_mem_map]
  exact forall₂_congr fun _ _ => not_congr Call.shift_eq_layOut_iff

theorem since_of_active (hSince : ∀ e ∈ es, e.call ≠ .ask .layOut)
    (hSame : (fs.filter fun e => !e.call.isIdle) = es.filter fun e => !e.call.isIdle) :
    ∀ e ∈ fs, e.call ≠ .ask .layOut := by
  intro e he hLayOut
  have hMem : e ∈ fs.filter fun e => !e.call.isIdle :=
    List.mem_filter.mpr ⟨he, by rw [hLayOut]; rfl⟩
  rw [hSame] at hMem
  exact hSince e (List.mem_filter.mp hMem).1 hLayOut

end Exchange

/-- The replies with all pointers relative to the first one that is handed out. -/
def relative (rs : List (Reply Nat)) : List (Reply Int) :=
  rs.map (Reply.map fun p : Nat => (p : Int) - (rs.findSome? Reply.granted).getD 0)

theorem relative_shift (base : Nat) (rs : List (Reply Nat)) :
    relative (rs.map (Reply.map (base + ·))) = relative rs := by
  have hFirst : (rs.map (Reply.map (base + ·))).findSome? Reply.granted =
      (rs.findSome? Reply.granted).map (base + ·) := by
    rw [List.findSome?_map, List.map_findSome?]
    exact congrArg (List.findSome? · rs) (funext fun r => Reply.granted_map _ r)
  unfold relative
  rw [hFirst, List.map_map]
  refine List.map_congr_left fun r hr => ?_
  rw [Function.comp_apply, Reply.map_map]
  cases hSome : rs.findSome? Reply.granted with
  | none => exact Reply.map_of_granted_eq_none (List.findSome?_eq_none_iff.mp hSome r hr) _ _
  | some first =>
    refine congrArg (Reply.map · r) (funext fun p => ?_)
    simp only [Function.comp_apply, Option.map_some, Option.getD_some]
    omega

namespace Request

variable {α β : Type} {f : α → β} {answer : Option α} {q : Request}

def replied (answer : Option α) : Request → Reply α
  | free _ => .nothing
  | write _ _ => .nothing
  | _ => .pointer answer

theorem replied_shift (g : Nat → Nat) (f : α → β) (answer : Option α) (q : Request) :
    (q.shift g).replied (answer.map f) = (q.replied answer).map f := by
  cases q <;> rfl

end Request

end BlockHeap
