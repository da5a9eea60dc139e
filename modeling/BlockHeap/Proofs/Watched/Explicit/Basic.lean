import BlockHeap.Proofs.Explicit.Operations
import BlockHeap.Proofs.Watched.FreeList

/-!
# Explicit heaps under watch

The operations of the explicit strategy. `Kept` says of a bench what `Holds` says of its region, and
that every word of tags and links is the heap's own; `Secure` is the same for `Represents`. An
operation on a secure bench does what it should, and ends on a secure bench.
-/

namespace BlockHeap.Watched.Explicit

open Bench
open BlockHeap.Explicit
open FreeList (Linked)

def headerAt (block : Nat) : Watched Nat := plus block wordSize

def payloadAt (block : Nat) : Watched Nat := plus block alignment.value

def blockAt (payload : Nat) : Watched Nat := minus payload alignment.value

def tagAt (block : Nat) : Watched Tag := do fetchTag (← headerAt block)

def sizeAt (block : Nat) : Watched Nat := do return (← tagAt block).size

def next (block : Nat) : Watched Nat := do
  let payload ← payloadAt block
  plus payload (← sizeAt block)

def previous (block : Nat) : Watched Nat := do
  let tag ← fetchTag block
  minus (← minus block tag.size) alignment.value

def previousFree (block : Nat) : Watched Bool := do return !(← fetchTag block).allocated

def nextFree (block : Nat) : Watched Bool := do
  let tag ← tagAt (← next block)
  return tag.size != 0 && !tag.allocated

def mark (block : Nat) (tag : Tag) : Watched Unit := do
  storeTag (← headerAt block) tag
  storeTag (← plus (← payloadAt block) tag.size) tag

def seek (need : Nat) : (rounds : Nat) → (cursor : Option Nat) → Watched (Option (Nat × Nat))
  | _, none => return none
  | 0, some _ => throw .rounds
  | rounds + 1, some node => do
    let block ← blockAt node
    let available ← sizeAt block
    if need ≤ available then
      return some (block, available)
    seek need rounds (← older freeList node)

/-- The search may take as many rounds as there are blocks. -/
def search (need : Nat) : Watched (Option (Nat × Nat)) := do
  let rounds := (chunks (← get).region).length
  seek need rounds (← newest freeList)

def carve (block available need : Nat) : Watched Unit := do
  if (← minus available need) < overhead + minimumSize then
    mark block ⟨available, true⟩
  else
    let remainder ← plus (← payloadAt block) need
    let leftover ← minus (← minus available need) overhead
    mark block ⟨need, true⟩
    mark remainder ⟨leftover, false⟩
    push freeList (← payloadAt remainder)

def take (block available need : Nat) : Watched Unit := do
  ensure (need ≤ available) (.assertion (.largeEnough available need))
  remove freeList (← payloadAt block)
  carve block available need

def reuse (need : Nat) : Watched (Option Nat) := do
  match ← search need with
  | none => return none
  | some (block, available) =>
    take block available need
    return some block

def merge (block : Nat) : Watched Unit := do
  let own ← sizeAt block
  match ← previousFree block, ← nextFree block with
  | false, false => return
  | true, false =>
    let before ← previous block
    remove freeList (← payloadAt block)
    mark before ⟨← plus (← plus (← sizeAt before) overhead) own, false⟩
  | false, true =>
    let after ← next block
    remove freeList (← payloadAt after)
    mark block ⟨← plus (← plus own overhead) (← sizeAt after), false⟩
  | true, true =>
    let before ← previous block
    let after ← next block
    remove freeList (← payloadAt block)
    remove freeList (← payloadAt after)
    let merged ← plus (← plus (← sizeAt before) own) (← sizeAt after)
    mark before ⟨← plus merged (2 * overhead), false⟩

def layOutTags : Watched Unit := do
  store prologue Tag.sentinel.word
  store (← headerAt prologue) Tag.sentinel.word
  layOutList freeList

def setUp : Watched Bool := do
  if !(← reanchor) then
    return false
  match ← grow (2 * FreeList.nodeSize + 2 * wordSize) with
  | none => return false
  | some _ =>
    layOutTags
    return true

def extend (need : Nat) : Watched (Option Nat) := do
  if wordLimit ≤ need + overhead then
    return none
  match ← grow (need + overhead) with
  | none => return none
  | some fresh =>
    let block ← minus fresh overhead
    mark block ⟨need, true⟩
    store (← headerAt (← next block)) Tag.sentinel.word
    return some (← payloadAt block)

def allocate (n : Nat) : Watched (Option Nat) := do
  match required? n with
  | none => return none
  | some need =>
    match ← reuse need with
    | some block => return some (← payloadAt block)
    | none => extend need

def deallocate (payload : Nat) : Watched Unit := do
  let block ← blockAt payload
  let size ← sizeAt block
  ensure (← tagAt block).allocated (.assertion (.notFreedTwice block))
  mark block ⟨size, false⟩
  push freeList payload
  merge block

def capacity (payload : Nat) : Watched Nat := do sizeAt (← blockAt payload)

def firstBlock : Watched (Option Nat) := do
  let r := (← get).region
  if r.anchor = 0 ∨ r.size = 0 then
    return none
  return if (← sizeAt prologue) ≠ 0 then some prologue else none

def nextBlock (block : Nat) : Watched (Option Nat) := do
  let after ← next block
  return if (← sizeAt after) ≠ 0 then some after else none

def describe (block : Nat) : Watched Block := do
  let tag ← tagAt block
  return ⟨← payloadAt block, tag.size, tag.allocated⟩

structure Kept (b : Bench) (e : Nat) (cs : List Chunk) (ns : List Nat) : Prop where
  holds : Holds b.region e cs ns
  closed : freeList.Closed b.region
  owned : ∀ o ∈ tagWords cs ++ linkWords ns, b.Owned o

structure Secure (b : Bench) (cs : List Chunk) (ns : List Nat) : Prop where
  represents : Represents b.region cs ns
  closed : freeList.Closed b.region
  owned : ∀ o ∈ header (b.region.size - overhead) :: (tagWords cs ++ linkWords ns), b.Owned o

variable {b c : Bench} {e n need o : Nat} {x y p : Chunk} {cs ds xs ys : List Chunk}
  {ns ms os : List Nat}

theorem inside_of_tagWord (h : Holds b.region e cs ns) (ho : o ∈ tagWords cs) : b.Inside o := by
  have hStop := h.stop_le
  have hLe := tagWord_stop_le h.tiles ho
  rw [overhead_eq] at hStop
  have hMod : o % 8 = 0 := by
    rcases mem_tagWords.mp ho with rfl | ⟨x, hx, ho⟩
    · rfl
    · have hBounds := bounds_of_mem h.tiles hx
      rw [header_eq, payload_eq] at ho
      omega
  unfold Bench.Inside wordSize
  omega

theorem inside_epilogue (h : Holds b.region e cs ns) : b.Inside (header e) := by
  have hStop := h.stop_le
  have hMod := h.tiles.mod_eq (by decide)
  rw [overhead_eq] at hStop
  rw [prologue_eq] at hMod
  unfold Bench.Inside wordSize
  rw [header_eq]
  omega

theorem hasNode_of_site (h : Holds b.region e cs ns) (hn : Site cs n) : b.HasNode n := by
  have hStop := h.stop_le
  have hLe := site_stop_le h.tiles hn
  rw [overhead_eq] at hStop
  have hMod : n % 8 = 0 := by
    rcases hn with rfl | rfl | ⟨x, hx, _, rfl⟩
    · rfl
    · rfl
    · have hBounds := bounds_of_mem h.tiles hx
      rw [payload_eq]
      omega
  unfold Bench.HasNode Bench.Inside wordSize
  omega

theorem inside_of_mem {r : Region} (h : Holds r e cs ns) (hx : x ∈ cs) :
    x.offset % 16 = 0 ∧ x.size % 16 = 0 ∧ x.offset + 32 + x.size ≤ r.size := by
  have hBounds := bounds_of_mem h.tiles hx
  have hStop := h.stop_le
  rw [overhead_eq] at hStop
  omega

theorem size_lt_of_mem {r : Region} (h : Holds r e cs ns) (hx : x ∈ cs) : x.size < wordLimit := by
  have hIn := inside_of_mem h hx
  have hEnd := h.anchored.end_lt
  omega

theorem offset_mem_tagWords (h : Chunk.Tiles overhead prologue cs e) (hx : x ∈ cs) :
    x.offset ∈ tagWords cs := by
  obtain ⟨xs, ys, rfl⟩ := List.append_of_mem hx
  obtain ⟨hLeft, _, _⟩ := Chunk.tiles_append_cons.mp h
  rcases List.eq_nil_or_concat' xs with rfl | ⟨ws, p, rfl⟩
  · exact mem_tagWords.mpr (.inl hLeft.symm)
  · obtain ⟨_, _, hStop⟩ := Chunk.tiles_append_cons.mp hLeft
    exact mem_tagWords.mpr (.inr ⟨p, by simp, .inr (Chunk.tiles_nil.mp hStop).symm⟩)

theorem header_stop_mem (h : Chunk.Tiles overhead prologue cs e) (hx : x ∈ cs) :
    header (x.stop overhead) ∈ header e :: tagWords cs := by
  obtain ⟨xs, ys, rfl⟩ := List.append_of_mem hx
  obtain ⟨_, _, hRight⟩ := Chunk.tiles_append_cons.mp h
  cases ys with
  | nil => exact List.mem_cons.mpr (.inl (congrArg header (Chunk.tiles_nil.mp hRight)))
  | cons y ys =>
    rw [← hRight.1]
    exact List.mem_cons_of_mem _ (mem_tagWords.mpr (.inr ⟨y, by simp, .inl rfl⟩))

theorem Secure.kept (h : Secure b cs ns) : Kept b (b.region.size - overhead) cs ns :=
  ⟨h.represents.holds, h.closed, fun o ho => h.owned o (List.mem_cons_of_mem _ ho)⟩

theorem Kept.secure (h : Kept b e cs ns) (hr : Represents b.region cs ns)
    (hEnd : b.Owned (header e)) : Secure b cs ns := by
  obtain rfl := h.holds.tiles.unique hr.holds.tiles
  exact ⟨hr, h.closed, List.forall_mem_cons.mpr ⟨hEnd, h.owned⟩⟩

theorem Kept.owned_tagWord (h : Kept b e cs ns) (ho : o ∈ tagWords cs) : b.Owned o :=
  h.owned o (List.mem_append_left _ ho)

theorem Kept.owned_node (h : Kept b e cs ns)
    (hn : n ∈ freeList.first :: (ns ++ [freeList.last])) :
    b.Owned n ∧ b.Owned (n + wordSize) :=
  ⟨h.owned n (List.mem_append_right _ (mem_linkWords.mpr ⟨n, hn, .inl rfl⟩)),
    h.owned _ (List.mem_append_right _ (mem_linkWords.mpr ⟨n, hn, .inr rfl⟩))⟩

/-- A secure bench stays so when its client changes bytes that it holds, or takes them over. -/
theorem Secure.of_client (h : Secure b cs ns)
    (hs : b.region.Keeps (fun x => ¬ ∃ d ∈ held (cs.map block), d.At b.region.anchor x) c.region)
    (hOwn : ∀ x, (¬ ∃ d ∈ held (cs.map block), d.At b.region.anchor x) → b.own x = true →
      c.own x = true) : Secure c cs ns := by
  have hWord : ∀ o ∈ header (b.region.size - overhead) :: (tagWords cs ++ linkWords ns),
      ∀ x, b.region.WordAt o x → ¬ ∃ d ∈ held (cs.map block), d.At b.region.anchor x :=
    fun o ho x hx hIn => h.represents.word_not_foreign ho x hx (.inr (.inr hIn))
  have hLink : ∀ o ∈ linkWords ns, c.region.word o = b.region.word o := fun o ho =>
    hs.word_eq (hWord o (List.mem_cons_of_mem _ (List.mem_append_right _ ho)))
  refine ⟨h.represents.of_client hs, ⟨?_, ?_⟩, fun o ho =>
    (h.owned o (hs.size_eq ▸ ho)).of_word hs.anchor_eq hOwn (hWord o (hs.size_eq ▸ ho))⟩
  · have hFirst : freeList.first ∈ linkWords ns :=
      mem_linkWords.mpr ⟨freeList.first, List.mem_cons_self, .inl rfl⟩
    exact (hLink _ hFirst).trans h.closed.1
  · have hLast : freeList.last + wordSize ∈ linkWords ns :=
      mem_linkWords.mpr ⟨freeList.last, by simp, .inr rfl⟩
    exact (hLink _ hLast).trans h.closed.2

theorem Kept.hasNode (h : Kept b e cs ns) (hn : n ∈ freeList.first :: (ns ++ [freeList.last])) :
    b.HasNode n := hasNode_of_site h.holds (site_of_mem h.holds.free hn)

theorem Kept.written {e' : Nat} (h : Kept b e cs ns) (hMarks : b.Marks os c)
    (hHolds : Holds c.region e' ds ms) (hClosed : freeList.Closed c.region)
    (hTags : ∀ y ∈ ds, y ∈ cs ∨ header y.offset ∈ os ∧ payload y.offset + y.size ∈ os)
    (hLinks : ∀ n ∈ ms, n ∈ ns ∨ n ∈ os ∧ n + wordSize ∈ os) : Kept c e' ds ms := by
  refine ⟨hHolds, hClosed, fun o ho => ?_⟩
  rcases List.mem_append.mp ho with ho | ho
  · rcases mem_tagWords.mp ho with rfl | ⟨y, hy, ho⟩
    · exact hMarks.of_owned (h.owned_tagWord (mem_tagWords.mpr (.inl rfl)))
    · rcases hTags y hy with hOld | ⟨hHeader, hFooter⟩
      · exact hMarks.of_owned (h.owned_tagWord (mem_tagWords.mpr (.inr ⟨y, hOld, ho⟩)))
      · rcases ho with rfl | rfl
        · exact hMarks.owned _ hHeader
        · exact hMarks.owned _ hFooter
  · obtain ⟨n, hn, ho⟩ := mem_linkWords.mp ho
    have hNode : n ∈ freeList.first :: (ns ++ [freeList.last]) ∨ n ∈ os ∧ n + wordSize ∈ os := by
      rcases List.mem_cons.mp hn with rfl | hn
      · exact .inl List.mem_cons_self
      · rcases List.mem_append.mp hn with hn | hn
        · exact (hLinks n hn).imp_left fun hOld =>
            List.mem_cons_of_mem _ (List.mem_append_left _ hOld)
        · exact .inl (List.mem_cons_of_mem _ (List.mem_append_right _ hn))
    rcases hNode with hOld | ⟨hPrev, hNext⟩
    · rcases ho with rfl | rfl
      · exact hMarks.of_owned (h.owned_node hOld).1
      · exact hMarks.of_owned (h.owned_node hOld).2
    · rcases ho with rfl | rfl
      · exact hMarks.owned _ hPrev
      · exact hMarks.owned _ hNext

theorem closed_writeTags {r : Region} (h : freeList.Closed r)
    (hTiles : Chunk.Tiles overhead prologue (xs ++ ds ++ ys) e) :
    freeList.Closed (writeTags r ds) := by
  constructor
  · exact (word_writeTags_of_site hTiles (.inl rfl) (.inl rfl)).trans h.1
  · exact (word_writeTags_of_site hTiles (.inr (.inl rfl)) (.inr rfl)).trans h.2

/-- Writing the tags of a run makes it part of what is kept, as far as it may be held. -/
theorem Kept.retagged {e' : Nat} (h : Kept b e cs ns) (hMarks : b.Marks os c)
    (hRegion : c.region = writeTags b.region ds)
    (hHolds : Holds (writeTags b.region ds) e' (xs ++ ds ++ ys) ns)
    (hRun : ∀ y ∈ ds, header y.offset ∈ os ∧ payload y.offset + y.size ∈ os)
    (hOld : ∀ y ∈ xs ++ ys, y ∈ cs) : Kept c e' (xs ++ ds ++ ys) ns := by
  have hClosed := closed_writeTags h.closed hHolds.tiles
  rw [← hRegion] at hHolds hClosed
  refine h.written hMarks hHolds hClosed (fun y hy => ?_) fun n hn => .inl hn
  rcases Chunk.mem_around.mp hy with hMem | hMem
  · exact .inr (hRun y hMem)
  · exact .inl (hOld y hMem)

section Reads

variable (h : Kept b e cs ns)

include h

theorem does_headerAt (hx : x ∈ cs) : Does (headerAt x.offset) b (header x.offset) b := by
  have hIn := inside_of_mem h.holds hx
  have hEnd := h.holds.anchored.end_lt
  refine does_plus ?_ b
  unfold wordSize
  omega

theorem does_payloadAt (hx : x ∈ cs) : Does (payloadAt x.offset) b (payload x.offset) b := by
  have hIn := inside_of_mem h.holds hx
  have hEnd := h.holds.anchored.end_lt
  refine does_plus ?_ b
  rw [alignment_value]
  omega

theorem does_tagAt (hx : x ∈ cs) : Does (tagAt x.offset) b x.tag b := by
  have hWord : header x.offset ∈ tagWords cs := mem_tagWords.mpr (.inr ⟨x, hx, .inl rfl⟩)
  have hFetch := does_fetchTag h.holds.anchored (inside_of_tagWord h.holds hWord)
    (h.owned_tagWord hWord)
  rw [(h.holds.tagged x hx).1] at hFetch
  exact (does_headerAt h hx).bind hFetch

theorem does_sizeAt (hx : x ∈ cs) : Does (sizeAt x.offset) b x.size b :=
  (does_tagAt h hx).bind (does_pure _ b)

theorem does_next (hx : x ∈ cs) : Does (next x.offset) b (x.stop overhead) b := by
  have hIn := inside_of_mem h.holds hx
  have hEnd := h.holds.anchored.end_lt
  refine (does_payloadAt h hx).bind ((does_sizeAt h hx).bind (does_plus ?_ b))
  rw [payload_eq]
  omega

theorem does_previousFree (hx : x ∈ cs) :
    Does (previousFree x.offset) b (isPreviousFree b.region x.offset) b := by
  have hWord := offset_mem_tagWords h.holds.tiles hx
  exact (does_fetchTag h.holds.anchored (inside_of_tagWord h.holds hWord)
    (h.owned_tagWord hWord)).bind (does_pure _ b)

end Reads

theorem Kept.does_previous (h : Kept b e (xs ++ [p] ++ x :: ys) ns) :
    Does (previous x.offset) b p.offset b := by
  have hx : x ∈ xs ++ [p] ++ x :: ys := by simp
  have hp : p ∈ xs ++ [p] ++ x :: ys := by simp
  have hWord := offset_mem_tagWords h.holds.tiles hx
  have hTag : b.region.tag x.offset = p.tag := by
    rw [h.holds.tag_before, List.getLast?_concat]
    rfl
  have hFetch := does_fetchTag h.holds.anchored (inside_of_tagWord h.holds hWord)
    (h.owned_tagWord hWord)
  obtain ⟨hLeft, _, _⟩ := Chunk.tiles_append_cons.mp h.holds.tiles
  obtain ⟨_, _, hStop⟩ := Chunk.tiles_append_cons.mp hLeft
  have hOffset : p.offset + 16 + p.tag.size = x.offset := Chunk.tiles_nil.mp hStop
  rw [hTag] at hFetch
  have hMinus := does_minus (m := x.offset) (n := p.tag.size) (by omega) b
  have hMinus' := does_minus (m := x.offset - p.tag.size) (n := alignment.value)
    (by rw [alignment_value]; omega) b
  have hDone : x.offset - p.tag.size - alignment.value = p.offset := by
    rw [alignment_value]
    omega
  rw [hDone] at hMinus'
  exact hFetch.bind (hMinus.bind hMinus')

theorem Kept.does_nextFree (h : Kept b e cs ns) (hEnd : b.Owned (header e)) (hx : x ∈ cs) :
    Does (nextFree x.offset) b (isNextFree b.region x.offset) b := by
  have hStop := header_stop_mem h.holds.tiles hx
  have hWord : b.Inside (header (x.stop overhead)) ∧ b.Owned (header (x.stop overhead)) := by
    rcases List.mem_cons.mp hStop with hEq | hMem
    · rw [hEq]
      exact ⟨inside_epilogue h.holds, hEnd⟩
    · exact ⟨inside_of_tagWord h.holds hMem, h.owned_tagWord hMem⟩
  have hFetch := does_fetchTag h.holds.anchored hWord.1 hWord.2
  have hNext : nextOf b.region x.offset = x.stop overhead := by
    rw [nextOf, h.holds.size_eq hx, stop_eq]
  have hPlus := does_plus (m := x.stop overhead) (n := wordSize) (by
    have hEnd := h.holds.anchored.end_lt
    have hIn := hWord.1.2
    rw [header_eq] at hIn
    unfold wordSize at *
    omega) b
  unfold isNextFree
  rw [hNext]
  exact (does_next h hx).bind ((hPlus.bind hFetch).bind (does_pure _ b))

theorem anchored_setTags {r : Region} (hr : r.Anchored) (o : Nat) (t : Tag) :
    (setTags r o t).Anchored :=
  ⟨hr.aligned, hr.base_le, hr.mark_eq⟩

theorem does_blockAt (o : Nat) (b : Bench) : Does (blockAt (payload o)) b o b := by
  have hMinus := does_minus (m := payload o) (n := alignment.value) (Nat.le_add_left _ _) b
  rwa [show payload o - alignment.value = o from blockOf_payload o] at hMinus

theorem does_mark (hr : b.region.Anchored) (hIn : y.offset % 16 = 0 ∧ y.size % 16 = 0 ∧
      y.offset + 32 + y.size ≤ b.region.size) :
    ∃ c, Does (mark y.offset y.tag) b ⟨⟩ c ∧ c.region = setTags b.region y.offset y.tag ∧
      b.Marks [header y.offset, payload y.offset + y.size] c := by
  have hEnd := hr.end_lt
  have hSize : y.tag.size % 16 = 0 := hIn.2.1
  unfold Chunk.size at *
  have hHeader : b.Inside (header y.offset) := by
    unfold Bench.Inside wordSize
    rw [header_eq]
    omega
  have hFooter : b.Inside (payload y.offset + y.tag.size) := by
    unfold Bench.Inside wordSize
    rw [payload_eq]
    omega
  have hPlus := does_plus (m := y.offset) (n := wordSize) (by unfold wordSize; omega) b
  have hPlus' := does_plus (m := y.offset) (n := alignment.value) (by rw [alignment_value]; omega)
  have hPlus'' := does_plus (m := payload y.offset) (n := y.tag.size) (by rw [payload_eq]; omega)
  refine ⟨(b.store (header y.offset) y.tag.word).store (payload y.offset + y.tag.size) y.tag.word,
    hPlus.bind ((does_storeTag hr hHeader hSize).bind ((hPlus' _).bind ((hPlus'' _).bind
    (does_storeTag (anchored_store hr _ _) (hFooter.store _ _) hSize)))), rfl, ?_⟩
  exact (marks_store _ _ _).trans (marks_store _ _ _)

theorem Kept.does_mark {e' : Nat} (h : Kept b e cs ns)
    (hHolds : Holds (writeTags b.region [y]) e' (xs ++ y :: ys) ns)
    (hOld : ∀ z ∈ xs ++ ys, z ∈ cs) :
    ∃ c, Does (mark y.offset y.tag) b ⟨⟩ c ∧ c.region = writeTags b.region [y] ∧
      Kept c e' (xs ++ y :: ys) ns ∧ b.Marks [] c := by
  have hIn := inside_of_mem hHolds (x := y) (by simp)
  obtain ⟨c, hDoes, hRegion, hMarks⟩ := Explicit.does_mark h.holds.anchored hIn
  rw [List.append_cons] at hHolds ⊢
  exact ⟨c, hDoes, hRegion, h.retagged hMarks hRegion hHolds
    (fun z hz => by obtain rfl := List.mem_singleton.mp hz; simp) hOld, hMarks.mono nofun⟩

theorem Kept.does_remove (h : Kept b e cs ns) (hn : n ∈ ns) :
    ∃ c, Does (remove freeList n) b ⟨⟩ c ∧ c.region = FreeList.remove b.region n ∧
      Kept c e cs (ns.erase n) ∧ b.Marks [] c := by
  have hHolds := (h.holds.remove hn).1
  have hLinked := h.holds.linked
  have hSpread := h.holds.spread
  have hNot : n ≠ freeList.first ∧ n ≠ freeList.last :=
    ⟨fun hEq => h.holds.not_mem.1 (hEq ▸ hn), fun hEq => h.holds.not_mem.2 (hEq ▸ hn)⟩
  have hNode : ∀ m ∈ freeList.first :: (ns ++ [freeList.last]), b.HasNode m := fun m hm =>
    h.hasNode hm
  have hOwned := h.owned_node (List.mem_cons_of_mem _ (List.mem_append_left _ hn))
  obtain ⟨older, newer, hSplit⟩ := List.append_of_mem hn
  rw [hSplit] at hLinked hSpread hNode
  obtain ⟨c, hDoes, hRegion, hMarks⟩ :=
    Watched.does_remove h.holds.anchored hLinked hNode hOwned hNot
  have hClosed := FreeList.closed_remove h.closed hLinked hSpread
  rw [← hRegion] at hHolds hClosed
  exact ⟨c, hDoes, hRegion, h.written hMarks hHolds hClosed (fun y hy => .inl hy)
    fun m hm => .inl (List.mem_of_mem_erase hm), hMarks⟩

theorem Kept.does_push (h : Kept b e cs ns) (hx : x ∈ cs) (hFlag : x.allocated = false)
    (hNew : payload x.offset ∉ ns) :
    ∃ c, Does (push freeList (payload x.offset)) b ⟨⟩ c ∧
      c.region = freeList.push b.region (payload x.offset) ∧
      Kept c e cs (ns ++ [payload x.offset]) ∧ b.Marks [] c := by
  have hHolds := (h.holds.push hx hFlag hNew).1
  have hLast := (h.owned_node (n := freeList.last) (by simp)).1
  have hNode : ∀ m ∈ freeList.first :: ((ns ++ [payload x.offset]) ++ [freeList.last]),
      b.HasNode m := fun m hm => hasNode_of_site h.holds (site_of_mem hHolds.free hm)
  obtain ⟨c, hDoes, hRegion, hMarks⟩ :=
    Watched.does_push h.holds.anchored h.holds.linked hNode hLast
  have hClosed := FreeList.closed_push h.closed h.holds.linked hHolds.spread
  rw [← hRegion] at hHolds hClosed
  refine ⟨c, hDoes, hRegion, ?_, hMarks.mono nofun⟩
  refine h.written hMarks hHolds hClosed (fun y hy => .inl hy) fun m hm => ?_
  rcases List.mem_append.mp hm with hm | hm
  · exact .inl hm
  · obtain rfl := List.mem_singleton.mp hm
    exact .inr ⟨by simp, by simp⟩

end BlockHeap.Watched.Explicit
