import Sponge.Buffer.Faithful
import Sponge.Buffer.Views
import Sponge.Lib.Machine
import Sponge.Lib.Shared

/-!
# Shared storage and views of it

The values of `Sponge.Buffer.Basic` hide that copies of a `Buffer` point to one string. Here the
pointers are there: a heap of strings that are released with their last owner, buffers that own one
of them, and views that own nothing. A view can be read as long as the strings it points to are
there; after that, reading is undefined.

A program that makes, copies, cuts and drops buffers, lists and views of lists sees nothing of the
sharing: **everything it observes is what it would observe of plain strings**, and no
`remove_prefix` is seen through another copy. The strings in the heap are exactly those that some
buffer still owns.

Two things can go wrong. A view may be read after the last owner of one of its strings has gone,
and whether that is so can be told from the buffers that are left. And a list may be appended to
itself: `append` walks the list that it pushes to, which is undefined if there is anything in it.
-/

open SharedHeap Machine

/-! ### Pointers -/

/-- `Buffer`, with a pointer for the shared string. -/
structure SharedBuffer where
  storage : Option ℕ
  startingOffset : ℕ
  deriving DecidableEq, Repr

/-- `std::string_view`: where the string is that it looks into, from where on, and how far. -/
structure SharedView where
  storage : Option ℕ
  offset : ℕ
  size : ℕ
  deriving DecidableEq, Repr

namespace SharedBuffer

/-- What a buffer owns. -/
def owned (b : SharedBuffer) : List ℕ := b.storage.toList

/-- `str()`. -/
def str (heap : SharedHeap Bytes) (b : SharedBuffer) : Option SharedView :=
  match b.storage with
  | none => some ⟨none, 0, 0⟩
  | some p => (heap.get p).map fun s ↦ ⟨some p, b.startingOffset, s.length - b.startingOffset⟩

/-- `reset` of the pointer, if the whole string has been consumed. -/
def resetIfConsumed (heap : SharedHeap Bytes) (b : SharedBuffer) :
    Option (SharedBuffer × SharedHeap Bytes) :=
  match b.storage with
  | none => some (b, heap)
  | some p => do
    let s ← heap.get p
    if b.startingOffset = s.length then
      let heap' ← heap.release p
      some (⟨none, b.startingOffset⟩, heap')
    else some (b, heap)

/-- `remove_prefix`: what it throws, the buffer and the heap. -/
def removePrefix (heap : SharedHeap Bytes) (b : SharedBuffer) (n : ℕ) :
    Option (Option Exn × SharedBuffer × SharedHeap Bytes) := do
  let view ← b.str heap
  if n > view.size then some (some (.outOfRange "Buffer::remove_prefix"), b, heap)
  else
    let (b', heap') ← resetIfConsumed heap ⟨b.storage, b.startingOffset + n⟩
    some (none, b', heap')

/-- `remove_prefix` of a list. A buffer that is popped is destroyed. -/
def removePrefixList (heap : SharedHeap Bytes) :
    List SharedBuffer → ℕ → Option (Option Exn × List SharedBuffer × SharedHeap Bytes)
  | [], n =>
    if n > 0 then some (some (.outOfRange "BufferList::remove_prefix"), [], heap)
    else some (none, [], heap)
  | b :: rest, n =>
    if n > 0 then do
      let view ← b.str heap
      if n < view.size then
        let (thrown, b', heap') ← b.removePrefix heap n
        some (thrown, b' :: rest, heap')
      else
        let heap' ← heap.releaseAll b.owned
        removePrefixList heap' rest (n - view.size)
    else some (none, b :: rest, heap)

end SharedBuffer

namespace SharedView

/-- `std::string_view::remove_prefix`, of no more than there is. -/
def removePrefix (v : SharedView) (n : ℕ) : SharedView := ⟨v.storage, v.offset + n, v.size - n⟩

/-- `remove_prefix` of a `BufferViewList`. It looks at sizes and never into a string. -/
def removePrefixList : List SharedView → ℕ → Option Exn × List SharedView
  | [], n => if n > 0 then (some (.outOfRange "BufferListView::remove_prefix"), []) else (none, [])
  | v :: rest, n =>
    if n > 0 then
      if n < v.size then (none, v.removePrefix n :: rest) else removePrefixList rest (n - v.size)
    else (none, v :: rest)

/-- What a system call reads through an entry of `as_iovecs`. -/
def read (heap : SharedHeap Bytes) (v : SharedView) : Option Bytes :=
  if v.size = 0 then some []
  else do
    let p ← v.storage
    let s ← heap.get p
    some ((s.drop v.offset).take v.size)

end SharedView

/-! ### Programs -/

/-- The operations of a program on buffers, lists and views of lists. -/
inductive SharedOp where
  /-- An operation on buffers and lists. -/
  | plain (op : BufferOp)
  /-- A buffer is assigned an empty one, or goes. -/
  | clearBuffer (i : ℕ)
  /-- A list is assigned an empty one, or goes. -/
  | clearList (i : ℕ)
  /-- `BufferViewList(list)`. -/
  | view (i : ℕ)
  /-- `remove_prefix` on a `BufferViewList`. -/
  | cutView (i n : ℕ)
  /-- The bytes that `as_iovecs` points to are read. -/
  | readView (i : ℕ)

/-- What a program observes of an operation: what it throws, and what is read. -/
abbrev Sight := Option Exn × Bytes

/-- The variables of a program, the heap, and what has been observed. -/
structure SharedStore where
  heap : SharedHeap Bytes
  buffers : List SharedBuffer
  lists : List (List SharedBuffer)
  views : List (List SharedView)
  seen : List Sight

namespace SharedStore

/-- An operation on buffers and lists: what it throws and the variables after it. It may be
undefined. -/
def plainStep (s : SharedStore) : BufferOp → Option (Option Exn × SharedStore)
  | .newBuffer => some (none, { s with buffers := s.buffers ++ [⟨none, 0⟩] })
  | .newBufferOf str => some (none, { s with
      heap := s.heap.alloc str
      buffers := s.buffers ++ [⟨some s.heap.next, 0⟩] })
  | .copyBuffer i =>
    match s.buffers[i]? with
    | none => some (none, s)
    | some b => do
      let heap ← s.heap.retainAll b.owned
      some (none, { s with heap, buffers := s.buffers ++ [b] })
  | .cutBuffer i n =>
    match s.buffers[i]? with
    | none => some (none, s)
    | some b => do
      let (thrown, b', heap) ← b.removePrefix s.heap n
      some (thrown, { s with heap, buffers := s.buffers.set i b' })
  | .newList => some (none, { s with lists := s.lists ++ [[]] })
  | .newListOf i =>
    match s.buffers[i]? with
    | none => some (none, s)
    | some b => do
      let heap ← s.heap.retainAll b.owned
      some (none, { s with heap, lists := s.lists ++ [[b]] })
  | .newListOfString str => some (none, { s with
      heap := s.heap.alloc str
      lists := s.lists ++ [[⟨some s.heap.next, 0⟩]] })
  | .append i j =>
    match s.lists[i]?, s.lists[j]? with
    | some l, some other =>
      -- pushing to a list invalidates the iterator of the loop, if the list is its own
      if i = j then if l.isEmpty then some (none, s) else none
      else do
        let heap ← s.heap.retainAll (other.flatMap SharedBuffer.owned)
        some (none, { s with heap, lists := s.lists.set i (l ++ other) })
    | _, _ => some (none, s)
  | .removePrefix i n =>
    match s.lists[i]? with
    | none => some (none, s)
    | some l => do
      let (thrown, l', heap) ← SharedBuffer.removePrefixList s.heap l n
      some (thrown, { s with heap, lists := s.lists.set i l' })

/-- Every operation. -/
def step (s : SharedStore) : SharedOp → Option SharedStore
  | .plain op => do
    let (thrown, s') ← s.plainStep op
    some { s' with seen := s'.seen ++ [(thrown, [])] }
  | .clearBuffer i =>
    match s.buffers[i]? with
    | none => some s
    | some b => do
      let heap ← s.heap.releaseAll b.owned
      some { s with heap, buffers := s.buffers.set i ⟨none, 0⟩ }
  | .clearList i =>
    match s.lists[i]? with
    | none => some s
    | some l => do
      let heap ← s.heap.releaseAll (l.flatMap SharedBuffer.owned)
      some { s with heap, lists := s.lists.set i [] }
  | .view i =>
    match s.lists[i]? with
    | none => some s
    | some l => do
      let v ← l.mapM (SharedBuffer.str s.heap)
      some { s with views := s.views ++ [v] }
  | .cutView i n =>
    match s.views[i]? with
    | none => some s
    | some v =>
      let (thrown, v') := SharedView.removePrefixList v n
      some { s with views := s.views.set i v', seen := s.seen ++ [(thrown, [])] }
  | .readView i =>
    match s.views[i]? with
    | none => some s
    | some v => do
      let bytes ← v.mapM (SharedView.read s.heap)
      some { s with seen := s.seen ++ [(none, bytes.flatten)] }

/-- The start of a program. -/
def start : SharedStore := ⟨SharedHeap.empty, [], [], [], []⟩

/-- Everything that is owned, once for each owner. -/
def owners (s : SharedStore) : List ℕ :=
  s.buffers.flatMap SharedBuffer.owned ++
    s.lists.flatMap fun l ↦ l.flatMap SharedBuffer.owned

end SharedStore

/-! ### The same program on plain strings -/

/-- The same variables as plain strings, and what has been observed. -/
structure StringStore where
  store : ByteStore
  views : List Bytes
  seen : List Sight

namespace StringStore

/-- What each operation is to do to the strings, if it is defined. -/
def step (t : StringStore) : SharedOp → StringStore
  | .plain op =>
    { t with store := (t.store.step op).2, seen := t.seen ++ [((t.store.step op).1, [])] }
  | .clearBuffer i => { t with store := { t.store with buffers := t.store.buffers.set i [] } }
  | .clearList i => { t with store := { t.store with lists := t.store.lists.set i [] } }
  | .view i =>
    match t.store.lists[i]? with
    | none => t
    | some l => { t with views := t.views ++ [l] }
  | .cutView i n =>
    match t.views[i]? with
    | none => t
    | some v =>
      if n ≤ v.length then
        { t with views := t.views.set i (v.drop n), seen := t.seen ++ [(none, [])] }
      else { t with
        views := t.views.set i []
        seen := t.seen ++ [(some (.outOfRange "BufferListView::remove_prefix"), [])] }
  | .readView i =>
    match t.views[i]? with
    | none => t
    | some v => { t with seen := t.seen ++ [(none, v)] }

/-- The start of a program. -/
def start : StringStore := ⟨⟨[], []⟩, [], []⟩

end StringStore

/-! ### What the pointers stand for -/

namespace SharedBuffer

variable {heap : SharedHeap Bytes} {b : SharedBuffer} {bytes : Bytes} {owners : List ℕ}

/-- A buffer holds a string. -/
def Holds (heap : SharedHeap Bytes) (b : SharedBuffer) (bytes : Bytes) : Prop :=
  match b.storage with
  | none => bytes = []
  | some p => ∃ s, heap.get p = some s ∧ b.startingOffset ≤ s.length ∧
      s.drop b.startingOffset = bytes

theorem holds_none (heap : SharedHeap Bytes) (offset : ℕ) : Holds heap ⟨none, offset⟩ [] := rfl

theorem framed_holds : Framed owned Holds := by
  rintro heap heap' owners ⟨- | p, offset⟩ bytes hmoves hown h
  · exact h
  · obtain ⟨s, hs, hle, hbytes⟩ := h
    exact ⟨s, (hmoves.kept p (hown List.mem_cons_self)).trans hs, hle, hbytes⟩

/-- The view of a buffer has the size of its string. -/
theorem str_eq (h : Holds heap b bytes) :
    ∃ offset, b.str heap = some ⟨b.storage, offset, bytes.length⟩ ∧
      ∀ p s, b.storage = some p → heap.get p = some s → s.drop offset = bytes := by
  obtain ⟨- | p, offset⟩ := b
  · obtain rfl : bytes = [] := h
    exact ⟨0, rfl, fun p s hp ↦ absurd hp (by simp)⟩
  · obtain ⟨s, hs, -, rfl⟩ := h
    refine ⟨offset, ?_, fun q s' hq hs' ↦ ?_⟩
    · dsimp only [str]
      rw [hs, Option.map_some, List.length_drop]
    · obtain rfl : p = q := Option.some.inj hq
      rw [Option.some.inj (hs.symm.trans hs')]

theorem removePrefix_of_gt (h : Holds heap b bytes) {n : ℕ} (hn : bytes.length < n) :
    b.removePrefix heap n = some (some (.outOfRange "Buffer::remove_prefix"), b, heap) := by
  obtain ⟨offset, hstr, -⟩ := str_eq h
  rw [removePrefix, hstr]
  exact if_pos hn

/-- **A cut moves the offset of one buffer**, and lets the string go at its end. -/
theorem removePrefix_of_le (h : Holds heap b bytes) (hcounted : heap.Counted (b.owned ++ owners))
    {n : ℕ} (hn : n ≤ bytes.length) :
    ∃ b' heap', b.removePrefix heap n = some (none, b', heap') ∧ b'.owned ⊆ b.owned ∧
      heap'.Counted (b'.owned ++ owners) ∧ heap.Moves heap' (b'.owned ++ owners) ∧
      Holds heap' b' (bytes.drop n) := by
  obtain ⟨offset, hstr, -⟩ := str_eq h
  have hcut : ∀ {b' heap'}, resetIfConsumed heap ⟨b.storage, b.startingOffset + n⟩ =
      some (b', heap') → b.removePrefix heap n = some (none, b', heap') := by
    intro b' heap' hreset
    rw [removePrefix, hstr]
    show (if n > bytes.length then _ else _) = _
    rw [if_neg (Nat.not_lt.2 hn), hreset]
    rfl
  obtain ⟨- | p, start⟩ := b
  · obtain rfl : bytes = [] := h
    exact ⟨_, heap, hcut rfl, List.Subset.refl _, hcounted, Moves.refl heap _, List.drop_nil⟩
  · obtain ⟨s, hs, hle, rfl⟩ := h
    dsimp only at hle hn
    rw [List.length_drop] at hn
    by_cases hend : start + n = s.length
    · obtain ⟨heap', hrelease, hcounted', hmoves⟩ := Counted.release hcounted
      refine ⟨⟨none, start + n⟩, heap', hcut ?_, List.nil_subset _, hcounted', hmoves, ?_⟩
      · rw [resetIfConsumed]
        show (heap.get p >>= _) = _
        rw [hs]
        show (if start + n = s.length then _ else _) = _
        rw [if_pos hend, hrelease]
        rfl
      · rw [List.drop_drop, hend, List.drop_length]
        exact holds_none heap' _
    · refine ⟨⟨some p, start + n⟩, heap, hcut ?_, List.Subset.refl _, hcounted, Moves.refl heap _,
        s, hs, ?_, ?_⟩
      · rw [resetIfConsumed]
        show (heap.get p >>= _) = _
        rw [hs]
        exact if_neg hend
      · show start + n ≤ s.length
        omega
      · rw [List.drop_drop]

/-- A list of buffers holds the strings of its buffers, one after the other. -/
def HoldsList (heap : SharedHeap Bytes) (l : List SharedBuffer) (bytes : Bytes) : Prop :=
  ∃ segs, List.Forall₂ (Holds heap) l segs ∧ segs.flatten = bytes

theorem framed_holdsList : Framed (fun l ↦ l.flatMap owned) HoldsList := by
  rintro heap heap' owners l bytes hmoves hown ⟨segs, hsegs, hbytes⟩
  exact ⟨segs, framed_holds.forall₂ hmoves hown hsegs, hbytes⟩

theorem holdsList_nil (heap : SharedHeap Bytes) : HoldsList heap [] [] := ⟨[], .nil, rfl⟩

theorem holdsList_singleton (h : Holds heap b bytes) : HoldsList heap [b] bytes :=
  ⟨[bytes], .cons h .nil, List.flatten_singleton⟩

theorem holdsList_append {l l' : List SharedBuffer} {bytes' : Bytes} (h : HoldsList heap l bytes)
    (h' : HoldsList heap l' bytes') : HoldsList heap (l ++ l') (bytes ++ bytes') := by
  obtain ⟨segs, hsegs, rfl⟩ := h
  obtain ⟨segs', hsegs', rfl⟩ := h'
  exact ⟨segs ++ segs', List.rel_append hsegs hsegs', List.flatten_append⟩

/-- The pop of a buffer: what is left of the list still holds its strings. -/
theorem exists_releaseAll {l : List SharedBuffer} {segs : List Bytes}
    (hcounted : heap.Counted ((b :: l).flatMap owned ++ owners))
    (hsegs : List.Forall₂ (Holds heap) l segs) :
    ∃ heap', heap.releaseAll b.owned = some heap' ∧
      heap'.Counted (l.flatMap owned ++ owners) ∧ heap.Moves heap' (l.flatMap owned ++ owners) ∧
      List.Forall₂ (Holds heap') l segs := by
  rw [List.flatMap_cons, List.append_assoc] at hcounted
  obtain ⟨heap', hrelease, hcounted', hmoves⟩ := Counted.releaseAll hcounted
  exact ⟨heap', hrelease, hcounted', hmoves,
    framed_holds.forall₂ hmoves (List.subset_append_left _ _) hsegs⟩

/-- **Within the string** the loop drops as many bytes as it is to, and destroys what it pops. -/
theorem removePrefixList_of_le {l : List SharedBuffer} {n : ℕ} (h : HoldsList heap l bytes)
    (hcounted : heap.Counted (l.flatMap owned ++ owners)) (hn : n ≤ bytes.length) :
    ∃ l' heap', removePrefixList heap l n = some (none, l', heap') ∧
      l'.flatMap owned ⊆ l.flatMap owned ∧ heap'.Counted (l'.flatMap owned ++ owners) ∧
      heap.Moves heap' (l'.flatMap owned ++ owners) ∧ HoldsList heap' l' (bytes.drop n) := by
  obtain ⟨segs, hsegs, rfl⟩ := h
  induction l generalizing heap n segs with
  | nil =>
    cases hsegs
    obtain rfl : n = 0 := Nat.le_zero.1 hn
    exact ⟨[], heap, rfl, List.Subset.refl _, hcounted, Moves.refl heap _, holdsList_nil heap⟩
  | cons b l ih =>
    obtain ⟨seg, segs, hb, hrest, rfl⟩ := List.forall₂_cons_left_iff.1 hsegs
    rcases Nat.eq_zero_or_pos n with rfl | hpos
    · exact ⟨b :: l, heap, rfl, List.Subset.refl _, hcounted, Moves.refl heap _, _,
        .cons hb hrest, rfl⟩
    obtain ⟨offset, hstr, -⟩ := str_eq hb
    rw [List.flatten_cons, List.length_append] at hn
    rw [removePrefixList, if_pos hpos, hstr]
    rcases Nat.lt_or_ge n seg.length with hlt | hge
    · -- the cut falls into the first buffer
      rw [List.flatMap_cons, List.append_assoc] at hcounted
      obtain ⟨b', heap', hcut, hsub, hcounted', hmoves, hholds⟩ :=
        removePrefix_of_le hb hcounted (Nat.le_of_lt hlt)
      have hsegs' := framed_holds.forall₂ hmoves
        (List.Subset.trans (List.subset_append_left _ owners) (List.subset_append_right _ _)) hrest
      refine ⟨b' :: l, heap', ?_, ?_, ?_, ?_, seg.drop n :: segs, .cons hholds hsegs', ?_⟩
      · show (if n < seg.length then _ else _) = _
        rw [if_pos hlt, hcut]
        rfl
      · rw [List.flatMap_cons, List.flatMap_cons]
        exact List.append_subset.2 ⟨List.Subset.trans hsub (List.subset_append_left _ _),
          List.subset_append_right _ _⟩
      · rwa [List.flatMap_cons, List.append_assoc]
      · rwa [List.flatMap_cons, List.append_assoc]
      · rw [List.flatten_cons, List.flatten_cons, List.drop_append_of_le_length hlt.le]
    · obtain ⟨heap₁, hrelease, hcounted₁, hmoves₁, hsegs₁⟩ := exists_releaseAll hcounted hrest
      obtain ⟨l', heap', hloop, hsub, hcounted', hmoves', hholds⟩ :=
        ih (n := n - seg.length) hcounted₁ segs hsegs₁ (by omega)
      refine ⟨l', heap', ?_, List.Subset.trans hsub (List.subset_append_right _ _), hcounted',
        hmoves₁.trans hmoves' ?_, ?_⟩
      · show (if n < seg.length then _ else _) = _
        rw [if_neg (Nat.not_lt.2 hge), hrelease]
        exact hloop
      · exact List.append_subset.2 ⟨List.Subset.trans hsub (List.subset_append_left _ _),
          List.subset_append_right _ _⟩
      · rwa [List.flatten_cons, List.drop_append, List.drop_of_length_le hge, List.nil_append]

/-- **Beyond the string** everything is popped. -/
theorem removePrefixList_of_gt {l : List SharedBuffer} {n : ℕ} (h : HoldsList heap l bytes)
    (hcounted : heap.Counted (l.flatMap owned ++ owners)) (hn : bytes.length < n) :
    ∃ heap', removePrefixList heap l n =
        some (some (.outOfRange "BufferList::remove_prefix"), [], heap') ∧
      heap'.Counted owners ∧ heap.Moves heap' owners := by
  obtain ⟨segs, hsegs, rfl⟩ := h
  induction l generalizing heap n segs with
  | nil =>
    cases hsegs
    exact ⟨heap, by rw [removePrefixList, if_pos (Nat.zero_lt_of_lt hn)], hcounted,
      Moves.refl heap _⟩
  | cons b l ih =>
    obtain ⟨seg, segs, hb, hrest, rfl⟩ := List.forall₂_cons_left_iff.1 hsegs
    obtain ⟨offset, hstr, -⟩ := str_eq hb
    rw [List.flatten_cons, List.length_append] at hn
    obtain ⟨heap₁, hrelease, hcounted₁, hmoves₁, hsegs₁⟩ := exists_releaseAll hcounted hrest
    obtain ⟨heap', hloop, hcounted', hmoves'⟩ :=
      ih (n := n - seg.length) hcounted₁ segs hsegs₁ (by omega)
    refine ⟨heap', ?_, hcounted', hmoves₁.trans hmoves' (List.subset_append_right _ _)⟩
    rw [removePrefixList, if_pos (by omega), hstr]
    show (if n < seg.length then _ else _) = _
    rw [if_neg (by omega), hrelease]
    exact hloop

end SharedBuffer

namespace SharedView

variable {heap : SharedHeap Bytes} {v : SharedView} {bytes : Bytes} {owners : List ℕ}

/-- A view shows a string, as long as the string it looks into is there. -/
def Shows (heap : SharedHeap Bytes) (v : SharedView) (bytes : Bytes) : Prop :=
  v.size = bytes.length ∧ (0 < v.size → ∃ p < heap.next, v.storage = some p ∧
    ∀ s, heap.get p = some s → (s.drop v.offset).take v.size = bytes)

/-- Whatever happens to the heap, a view shows the same or nothing. -/
theorem framed_shows : Framed (fun _ ↦ []) Shows := by
  rintro heap heap' owners v bytes hmoves - ⟨hsize, h⟩
  refine ⟨hsize, fun hpos ↦ ?_⟩
  obtain ⟨p, hp, hstorage, hs⟩ := h hpos
  exact ⟨p, hp.trans_le hmoves.next_le, hstorage, fun s hget ↦ hs s (hmoves.stale p hp s hget)⟩

theorem shows_removePrefix (h : Shows heap v bytes) {n : ℕ} (hn : n < v.size) :
    Shows heap (v.removePrefix n) (bytes.drop n) := by
  obtain ⟨hsize, h⟩ := h
  refine ⟨by rw [removePrefix, List.length_drop, hsize], fun _ ↦ ?_⟩
  obtain ⟨p, hp, hstorage, hs⟩ := h (Nat.zero_lt_of_lt hn)
  refine ⟨p, hp, hstorage, fun s hget ↦ ?_⟩
  rw [removePrefix, ← hs s hget, List.drop_take, List.drop_drop]

/-- A list of views shows the strings of its views, one after the other. -/
def ShowsList (heap : SharedHeap Bytes) (l : List SharedView) (bytes : Bytes) : Prop :=
  ∃ segs, List.Forall₂ (Shows heap) l segs ∧ segs.flatten = bytes

theorem framed_showsList : Framed (fun _ ↦ []) ShowsList := by
  rintro heap heap' owners l bytes hmoves - ⟨segs, hsegs, hbytes⟩
  refine ⟨segs, framed_shows.forall₂ (hmoves.mono (List.nil_subset _)) ?_ hsegs, hbytes⟩
  simp

theorem removePrefixList_of_le {l : List SharedView} {n : ℕ} (h : ShowsList heap l bytes)
    (hn : n ≤ bytes.length) :
    ∃ l', removePrefixList l n = (none, l') ∧ ShowsList heap l' (bytes.drop n) := by
  obtain ⟨segs, hsegs, rfl⟩ := h
  induction hsegs generalizing n with
  | nil =>
    obtain rfl : n = 0 := Nat.le_zero.1 hn
    exact ⟨[], rfl, [], .nil, rfl⟩
  | @cons v seg l segs hv hsegs ih =>
    rcases Nat.eq_zero_or_pos n with rfl | hpos
    · exact ⟨v :: l, rfl, _, .cons hv hsegs, rfl⟩
    rw [List.flatten_cons, List.length_append, ← hv.1] at hn
    rw [removePrefixList, if_pos hpos, List.flatten_cons]
    rcases Nat.lt_or_ge n v.size with hlt | hge
    · rw [if_pos hlt]
      refine ⟨_, rfl, _, .cons (shows_removePrefix hv hlt) hsegs, ?_⟩
      rw [List.flatten_cons, List.drop_append_of_le_length (hv.1 ▸ hlt.le)]
    · rw [if_neg (Nat.not_lt.2 hge), List.drop_append, List.drop_of_length_le (hv.1 ▸ hge),
        List.nil_append, ← hv.1]
      exact ih (by omega)

theorem removePrefixList_of_gt {l : List SharedView} {n : ℕ} (h : ShowsList heap l bytes)
    (hn : bytes.length < n) :
    removePrefixList l n = (some (.outOfRange "BufferListView::remove_prefix"), []) := by
  obtain ⟨segs, hsegs, rfl⟩ := h
  induction hsegs generalizing n with
  | nil => exact if_pos (Nat.zero_lt_of_lt hn)
  | @cons v seg l segs hv hsegs ih =>
    rw [List.flatten_cons, List.length_append, ← hv.1] at hn
    rw [removePrefixList, if_pos (by omega), if_neg (by omega)]
    exact ih (by omega)

/-- **When a view can be read**: nothing is to be read, or the string is still owned. -/
theorem read_eq (hcounted : heap.Counted owners) (h : Shows heap v bytes) :
    (v.read heap = none ∧ v.size ≠ 0 ∧ ∀ p ∈ owners, v.storage ≠ some p) ∨
      (v.read heap = some bytes ∧ (v.size = 0 ∨ ∃ p ∈ owners, v.storage = some p)) := by
  obtain ⟨hsize, h⟩ := h
  rcases Nat.eq_zero_or_pos v.size with hzero | hpos
  · refine Or.inr ⟨?_, Or.inl hzero⟩
    rw [read, if_pos hzero, List.length_eq_zero_iff.1 (hsize.symm.trans hzero)]
  · obtain ⟨p, -, hstorage, hs⟩ := h hpos
    have hread : v.read heap = (heap.get p).map fun s ↦ (s.drop v.offset).take v.size := by
      rw [read, if_neg hpos.ne', hstorage]
      show (heap.get p >>= _) = _
      cases heap.get p <;> rfl
    by_cases hp : p ∈ owners
    · obtain ⟨s, hget⟩ := hcounted.exists_get hp
      refine Or.inr ⟨?_, Or.inr ⟨p, hp, hstorage⟩⟩
      rw [hread, hget, Option.map_some, hs s hget]
    · refine Or.inl ⟨by rw [hread, hcounted.get_eq_none hp]; rfl, hpos.ne', fun q hq heq ↦ ?_⟩
      exact hp (Option.some.inj (hstorage.symm.trans heq) ▸ hq)

theorem mapM_read (hcounted : heap.Counted owners) {l : List SharedView}
    (h : ShowsList heap l bytes) :
    (l.mapM (read heap) = none ∧ ∃ v ∈ l, v.size ≠ 0 ∧ ∀ p ∈ owners, v.storage ≠ some p) ∨
      ((∃ segs, l.mapM (read heap) = some segs ∧ segs.flatten = bytes) ∧
        ∀ v ∈ l, v.size = 0 ∨ ∃ p ∈ owners, v.storage = some p) := by
  obtain ⟨segs, hsegs, rfl⟩ := h
  induction hsegs with
  | nil => exact Or.inr ⟨⟨[], rfl, rfl⟩, fun _ hv ↦ absurd hv List.not_mem_nil⟩
  | @cons v seg l segs hv hsegs ih =>
    rcases read_eq hcounted hv with ⟨hread, hdangling⟩ | ⟨hread, halive⟩
    · exact Or.inl ⟨by rw [List.mapM_cons, hread]; rfl, v, List.mem_cons_self, hdangling⟩
    rcases ih with ⟨hnone, w, hw, hdangling⟩ | ⟨⟨segs', hsome, hflat⟩, halive'⟩
    · exact Or.inl ⟨by rw [List.mapM_cons, hread, hnone]; rfl, w, List.mem_cons_of_mem _ hw,
        hdangling⟩
    · refine Or.inr ⟨⟨seg :: segs', by rw [List.mapM_cons, hread, hsome]; rfl, ?_⟩,
        List.forall_mem_cons.2 ⟨halive, halive'⟩⟩
      rw [List.flatten_cons, List.flatten_cons, hflat]

end SharedView

/-- The view of a list shows what the list holds. -/
theorem SharedBuffer.mapM_str {heap : SharedHeap Bytes} {owners : List ℕ}
    (hcounted : heap.Counted owners) {l : List SharedBuffer} {bytes : Bytes}
    (h : HoldsList heap l bytes) (hown : l.flatMap owned ⊆ owners) :
    ∃ v, l.mapM (str heap) = some v ∧ SharedView.ShowsList heap v bytes := by
  obtain ⟨segs, hsegs, rfl⟩ := h
  induction hsegs with
  | nil => exact ⟨[], rfl, [], .nil, rfl⟩
  | @cons b seg l segs hb hsegs ih =>
    rw [List.flatMap_cons, List.append_subset] at hown
    obtain ⟨offset, hstr, hdrop⟩ := str_eq hb
    obtain ⟨v, hv, segs', hsegs', hflat⟩ := ih hown.2
    refine ⟨⟨b.storage, offset, seg.length⟩ :: v, by rw [List.mapM_cons, hstr, hv]; rfl,
      seg :: segs', .cons ⟨rfl, fun hpos ↦ ?_⟩ hsegs', by rw [List.flatten_cons, hflat]; rfl⟩
    rcases hstorage : b.storage with - | p
    · -- a buffer without storage holds nothing
      rw [Holds, hstorage] at hb
      exact absurd hpos (by rw [hb]; exact Nat.lt_irrefl 0)
    · have hp : p ∈ b.owned := by
        rw [owned, hstorage]
        exact List.mem_singleton_self p
      refine ⟨p, hcounted.lt_next (hown.1 hp), rfl, fun s hget ↦ ?_⟩
      dsimp only
      rw [hdrop p s hstorage hget, List.take_length]

/-! ### Every step -/

namespace SharedStore

open SharedBuffer SharedView

variable {s s' : SharedStore} {t : StringStore}

/-- The variables stand for the strings of the other program, and the same has been observed. -/
structure Simulates (s : SharedStore) (t : StringStore) : Prop where
  counted : s.heap.Counted s.owners
  buffers : List.Forall₂ (Holds s.heap) s.buffers t.store.buffers
  lists : List.Forall₂ (HoldsList s.heap) s.lists t.store.lists
  views : List.Forall₂ (ShowsList s.heap) s.views t.views
  seen_eq : s.seen = t.seen

/-- Views stay as they are. -/
theorem Simulates.views_moves (h : s.Simulates t) {heap : SharedHeap Bytes} {owners : List ℕ}
    (hmoves : s.heap.Moves heap owners) : List.Forall₂ (ShowsList heap) s.views t.views :=
  framed_showsList.forall₂ (hmoves.mono (List.nil_subset _)) (by simp) h.views

/-- **A buffer is added.** -/
theorem Simulates.addBuffer (h : s.Simulates t) {heap : SharedHeap Bytes} {b : SharedBuffer}
    {bytes : Bytes} (hcounted : heap.Counted (b.owned ++ s.owners))
    (hmoves : s.heap.Moves heap s.owners) (hholds : Holds heap b bytes) :
    Simulates { s with heap, buffers := s.buffers ++ [b] }
      { t with store := { t.store with buffers := t.store.buffers ++ [bytes] } } where
  counted := by
    refine hcounted.perm ?_
    rw [owners, owners, List.flatMap_append, List.flatMap_singleton, ← List.append_assoc]
    exact List.perm_append_comm.append_right _
  buffers := List.rel_append
    (framed_holds.forall₂ hmoves (List.subset_append_left _ _) h.buffers) (.cons hholds .nil)
  lists := framed_holdsList.forall₂ hmoves (List.subset_append_right _ _) h.lists
  views := h.views_moves hmoves
  seen_eq := h.seen_eq

/-- **A list is added.** -/
theorem Simulates.addList (h : s.Simulates t) {heap : SharedHeap Bytes} {l : List SharedBuffer}
    {bytes : Bytes} (hcounted : heap.Counted (l.flatMap owned ++ s.owners))
    (hmoves : s.heap.Moves heap s.owners) (hholds : HoldsList heap l bytes) :
    Simulates { s with heap, lists := s.lists ++ [l] }
      { t with store := { t.store with lists := t.store.lists ++ [bytes] } } where
  counted := by
    refine hcounted.perm ?_
    rw [owners, owners, List.flatMap_append, List.flatMap_singleton]
    refine List.perm_append_comm.trans ?_
    rw [List.append_assoc]
  buffers := framed_holds.forall₂ hmoves (List.subset_append_left _ _) h.buffers
  lists := List.rel_append
    (framed_holdsList.forall₂ hmoves (List.subset_append_right _ _) h.lists) (.cons hholds .nil)
  views := h.views_moves hmoves
  seen_eq := h.seen_eq

/-- **A buffer changes.** -/
theorem Simulates.setBuffer (h : s.Simulates t) {i : ℕ} {b : SharedBuffer}
    (hb : s.buffers[i]? = some b) :
    ∃ bytes rest, t.store.buffers[i]? = some bytes ∧ Holds s.heap b bytes ∧
      s.owners.Perm (b.owned ++ rest) ∧
      ∀ {heap : SharedHeap Bytes} {b' : SharedBuffer} {bytes' : Bytes},
        heap.Counted (b'.owned ++ rest) → s.heap.Moves heap (b'.owned ++ rest) →
        Holds heap b' bytes' →
        Simulates { s with heap, buffers := s.buffers.set i b' }
          { t with store := { t.store with buffers := t.store.buffers.set i bytes' } } := by
  obtain ⟨bytes, rest, hbytes, hholds, hperm, hset⟩ := set_of_forall₂ framed_holds h.buffers hb
  refine ⟨bytes, rest ++ s.lists.flatMap fun l ↦ l.flatMap owned, hbytes, hholds, ?_, ?_⟩
  · rw [← List.append_assoc]
    exact hperm.append_right _
  · intro heap b' bytes' hcounted hmoves hnew
    rw [← List.append_assoc] at hcounted hmoves
    obtain ⟨hall, hperm'⟩ := hset hmoves (List.Subset.trans (List.subset_append_right _ _)
      (List.subset_append_left _ _)) hnew
    exact ⟨hcounted.perm (hperm'.symm.append_right _), hall,
      framed_holdsList.forall₂ hmoves (List.subset_append_right _ _) h.lists,
      h.views_moves hmoves, h.seen_eq⟩

/-- **A list changes.** -/
theorem Simulates.setList (h : s.Simulates t) {i : ℕ} {l : List SharedBuffer}
    (hl : s.lists[i]? = some l) :
    ∃ bytes rest, t.store.lists[i]? = some bytes ∧ HoldsList s.heap l bytes ∧
      s.owners.Perm (l.flatMap owned ++ rest) ∧
      ∀ {heap : SharedHeap Bytes} {l' : List SharedBuffer} {bytes' : Bytes},
        heap.Counted (l'.flatMap owned ++ rest) → s.heap.Moves heap (l'.flatMap owned ++ rest) →
        HoldsList heap l' bytes' →
        Simulates { s with heap, lists := s.lists.set i l' }
          { t with store := { t.store with lists := t.store.lists.set i bytes' } } := by
  obtain ⟨bytes, rest, hbytes, hholds, hperm, hset⟩ := set_of_forall₂ framed_holdsList h.lists hl
  refine ⟨bytes, s.buffers.flatMap owned ++ rest, hbytes, hholds, ?_, ?_⟩
  · exact (hperm.append_left _).trans (List.perm_append_comm_assoc _ _ _)
  · intro heap l' bytes' hcounted hmoves hnew
    obtain ⟨hall, hperm'⟩ := hset hmoves (List.Subset.trans (List.subset_append_right _ _)
      (List.subset_append_right _ _)) hnew
    refine ⟨hcounted.perm ?_, ?_, hall, h.views_moves hmoves, h.seen_eq⟩
    · exact (List.perm_append_comm_assoc _ _ _).trans (hperm'.symm.append_left _)
    · exact framed_holds.forall₂ hmoves (List.Subset.trans (List.subset_append_left _ _)
        (List.subset_append_right _ _)) h.buffers

/-- The operation returns, and does what it is to do to the strings. -/
def Follows (s : SharedStore) (t : StringStore) (op : BufferOp) : Prop :=
  ∃ s', s.plainStep op = some ((t.store.step op).1, s') ∧
    s'.Simulates { t with store := (t.store.step op).2 }

/-- A copy of a buffer owns its string as well. -/
theorem Simulates.retainBuffer (h : s.Simulates t) {i : ℕ} {b : SharedBuffer}
    (hb : s.buffers[i]? = some b) :
    ∃ bytes heap, t.store.buffers[i]? = some bytes ∧ s.heap.retainAll b.owned = some heap ∧
      heap.Counted (b.owned ++ s.owners) ∧ s.heap.Moves heap s.owners ∧ Holds heap b bytes := by
  obtain ⟨bytes, rest, hbytes, hholds, hperm, -⟩ := h.setBuffer hb
  have hsub : b.owned ⊆ s.owners := fun p hp ↦ hperm.mem_iff.2 (List.mem_append_left _ hp)
  obtain ⟨heap, hretain, hcounted, hmoves⟩ := h.counted.retainAll hsub
  exact ⟨bytes, heap, hbytes, hretain, hcounted, hmoves.mono (List.subset_append_right _ _),
    framed_holds hmoves (List.subset_append_left _ _) hholds⟩

theorem Simulates.copyBuffer (h : s.Simulates t) (i : ℕ) : Follows s t (.copyBuffer i) := by
  rcases hb : s.buffers[i]? with - | b
  · have hnone := getElem?_of_forall₂ h.buffers hb
    rw [Follows, SharedStore.plainStep, hb, ByteStore.step, hnone]
    exact ⟨s, rfl, h⟩
  · obtain ⟨bytes, heap, hbytes, hretain, hcounted, hmoves, hholds⟩ := h.retainBuffer hb
    rw [Follows, SharedStore.plainStep, hb, ByteStore.step, hbytes]
    dsimp only
    rw [hretain]
    exact ⟨_, rfl, h.addBuffer hcounted hmoves hholds⟩

theorem Simulates.newListOf (h : s.Simulates t) (i : ℕ) : Follows s t (.newListOf i) := by
  rcases hb : s.buffers[i]? with - | b
  · have hnone := getElem?_of_forall₂ h.buffers hb
    rw [Follows, SharedStore.plainStep, hb, ByteStore.step, hnone]
    exact ⟨s, rfl, h⟩
  · obtain ⟨bytes, heap, hbytes, hretain, hcounted, hmoves, hholds⟩ := h.retainBuffer hb
    rw [Follows, SharedStore.plainStep, hb, ByteStore.step, hbytes]
    dsimp only
    rw [hretain]
    refine ⟨_, rfl, h.addList ?_ hmoves (holdsList_singleton hholds)⟩
    rwa [List.flatMap_singleton]

theorem Simulates.cutBuffer (h : s.Simulates t) (i n : ℕ) : Follows s t (.cutBuffer i n) := by
  rcases hb : s.buffers[i]? with - | b
  · have hnone := getElem?_of_forall₂ h.buffers hb
    rw [Follows, SharedStore.plainStep, hb, ByteStore.step, hnone]
    exact ⟨s, rfl, h⟩
  · obtain ⟨bytes, rest, hbytes, hholds, hperm, hset⟩ := h.setBuffer hb
    have hcounted := h.counted.perm hperm
    rw [Follows, SharedStore.plainStep, hb, ByteStore.step, hbytes]
    dsimp only
    rcases Nat.lt_or_ge bytes.length n with hlt | hge
    · -- it throws before it has changed anything
      rw [removePrefix_of_gt hholds hlt, if_neg (Nat.not_le.2 hlt)]
      have hself : t.store.buffers.set i bytes = t.store.buffers := by
        obtain ⟨hi, rfl⟩ := List.getElem?_eq_some_iff.1 hbytes
        exact List.set_getElem_self hi
      have hsame := hset hcounted (Moves.refl _ _) hholds
      rw [hself] at hsame
      exact ⟨_, rfl, hsame⟩
    · obtain ⟨b', heap, hcut, -, hcounted', hmoves, hholds'⟩ :=
        removePrefix_of_le hholds hcounted hge
      rw [hcut, if_pos hge]
      exact ⟨_, rfl, hset hcounted' hmoves hholds'⟩

/-- A list that is not empty is appended to itself. -/
def AppendsSelf (s : SharedStore) (op : BufferOp) : Prop :=
  ∃ i l, op = .append i i ∧ s.lists[i]? = some l ∧ l ≠ []

theorem Simulates.append_self (h : s.Simulates t) (i : ℕ) :
    (s.plainStep (.append i i) = none ∧ s.AppendsSelf (.append i i)) ∨
      ¬ s.AppendsSelf (.append i i) ∧ Follows s t (.append i i) := by
  have hstrings : t.store.step (.append i i) = (none, t.store) := by
    rw [ByteStore.step]
    split
    · rw [if_pos rfl]
    · rfl
  rw [Follows, hstrings]
  rcases hl : s.lists[i]? with - | l
  · refine Or.inr ⟨?_, s, by rw [SharedStore.plainStep, hl], h⟩
    rintro ⟨j, l, hop, hl', -⟩
    cases hop
    exact absurd (hl.symm.trans hl') (by simp)
  · rw [SharedStore.plainStep, hl]
    dsimp only
    rw [if_pos rfl]
    cases l with
    | nil =>
      refine Or.inr ⟨?_, s, rfl, h⟩
      rintro ⟨j, l, hop, hl', hne⟩
      cases hop
      exact hne (Option.some.inj (hl.symm.trans hl')).symm
    | cons b l => exact Or.inl ⟨rfl, i, b :: l, rfl, hl, by simp⟩

theorem Simulates.append (h : s.Simulates t) {i j : ℕ} (hij : i ≠ j) :
    Follows s t (.append i j) := by
  rcases hi : s.lists[i]? with - | l
  · have hnone := getElem?_of_forall₂ h.lists hi
    rw [Follows, SharedStore.plainStep, hi, ByteStore.step, hnone]
    exact ⟨s, rfl, h⟩
  obtain ⟨bytes, rest, hbytes, hholds, hperm, hset⟩ := h.setList hi
  rcases hj : s.lists[j]? with - | other
  · have hnone := getElem?_of_forall₂ h.lists hj
    rw [Follows, SharedStore.plainStep, hi, hj, ByteStore.step, hbytes, hnone]
    exact ⟨s, rfl, h⟩
  obtain ⟨bytes', rest', hbytes', hholds', hperm', -⟩ := h.setList hj
  rw [Follows, SharedStore.plainStep, hi, hj, ByteStore.step, hbytes, hbytes']
  dsimp only
  have hsub : other.flatMap owned ⊆ s.owners := fun p hp ↦
    hperm'.mem_iff.2 (List.mem_append_left _ hp)
  obtain ⟨heap, hretain, hcounted, hmoves⟩ := h.counted.retainAll hsub
  -- the longer list owns what both have owned
  have hboth : (other.flatMap owned ++ s.owners).Perm ((l ++ other).flatMap owned ++ rest) := by
    rw [List.flatMap_append, List.append_assoc]
    exact (hperm.append_left _).trans (List.perm_append_comm_assoc _ _ _)
  have hl : l.flatMap owned ⊆ other.flatMap owned ++ s.owners := fun p hp ↦
    List.mem_append_right _ (hperm.mem_iff.2 (List.mem_append_left _ hp))
  rw [if_neg hij, if_neg hij, hretain]
  refine ⟨_, rfl, hset (hcounted.perm hboth) (hmoves.mono hboth.symm.subset) ?_⟩
  exact holdsList_append (framed_holdsList hmoves hl hholds)
    (framed_holdsList hmoves (List.subset_append_left _ _) hholds')

theorem Simulates.removePrefix (h : s.Simulates t) (i n : ℕ) :
    Follows s t (.removePrefix i n) := by
  rcases hl : s.lists[i]? with - | l
  · have hnone := getElem?_of_forall₂ h.lists hl
    rw [Follows, SharedStore.plainStep, hl, ByteStore.step, hnone]
    exact ⟨s, rfl, h⟩
  · obtain ⟨bytes, rest, hbytes, hholds, hperm, hset⟩ := h.setList hl
    have hcounted := h.counted.perm hperm
    rw [Follows, SharedStore.plainStep, hl, ByteStore.step, hbytes]
    dsimp only
    rcases Nat.lt_or_ge bytes.length n with hlt | hge
    · -- it throws when it has dropped all buffers
      obtain ⟨heap, hloop, hcounted', hmoves⟩ := removePrefixList_of_gt hholds hcounted hlt
      rw [hloop, if_neg (Nat.not_le.2 hlt)]
      exact ⟨_, rfl, hset hcounted' hmoves (holdsList_nil heap)⟩
    · obtain ⟨l', heap, hloop, -, hcounted', hmoves, hholds'⟩ :=
        removePrefixList_of_le hholds hcounted hge
      rw [hloop, if_pos hge]
      exact ⟨_, rfl, hset hcounted' hmoves hholds'⟩

/-- **An operation on buffers and lists** does what it is to do to the strings, unless it appends a
list to itself. -/
theorem Simulates.plainStep (h : s.Simulates t) (op : BufferOp) :
    (s.plainStep op = none ∧ s.AppendsSelf op) ∨ ¬ s.AppendsSelf op ∧ Follows s t op := by
  have hother : (∀ i, op ≠ .append i i) → Follows s t op →
      (s.plainStep op = none ∧ s.AppendsSelf op) ∨ ¬ s.AppendsSelf op ∧ Follows s t op :=
    fun hop hfollows ↦ Or.inr ⟨fun ⟨i, _, heq, _⟩ ↦ hop i heq, hfollows⟩
  cases op with
  | newBuffer =>
    exact hother (by simp) ⟨_, rfl, h.addBuffer h.counted (Moves.refl _ _) (holds_none _ 0)⟩
  | newBufferOf str =>
    obtain ⟨hcounted, hmoves, hget⟩ := h.counted.alloc str
    exact hother (by simp) ⟨_, rfl, h.addBuffer hcounted hmoves ⟨str, hget, Nat.zero_le _, rfl⟩⟩
  | newList =>
    exact hother (by simp) ⟨_, rfl, h.addList h.counted (Moves.refl _ _) (holdsList_nil _)⟩
  | newListOfString str =>
    obtain ⟨hcounted, hmoves, hget⟩ := h.counted.alloc str
    exact hother (by simp) ⟨_, rfl, h.addList hcounted hmoves
      (holdsList_singleton ⟨str, hget, Nat.zero_le _, rfl⟩)⟩
  | copyBuffer i => exact hother (by simp) (h.copyBuffer i)
  | newListOf i => exact hother (by simp) (h.newListOf i)
  | cutBuffer i n => exact hother (by simp) (h.cutBuffer i n)
  | removePrefix i n => exact hother (by simp) (h.removePrefix i n)
  | append i j =>
    rcases eq_or_ne i j with rfl | hij
    · exact h.append_self i
    · refine hother (fun k hk ↦ hij ?_) (h.append hij)
      obtain ⟨rfl, rfl⟩ := BufferOp.append.inj hk
      rfl

/-- The view that an operation would read has lost a string. -/
def Dangling (s : SharedStore) (op : SharedOp) : Prop :=
  ∃ i v x, op = .readView i ∧ s.views[i]? = some v ∧ x ∈ v ∧ x.size ≠ 0 ∧
    ∀ p ∈ s.owners, x.storage ≠ some p

/-- **What is undefined**: to read a view that has lost a string, and to append a list to itself. -/
def Undefined (s : SharedStore) : SharedOp → Prop
  | .plain op => s.AppendsSelf op
  | op => s.Dangling op

/-- Of the operations on views, only a read can go wrong. -/
theorem not_dangling {op : SharedOp} (hop : ∀ i, op ≠ .readView i) : ¬ s.Dangling op := by
  rintro ⟨i, v, x, heq, -⟩
  exact hop i heq

/-- **A buffer goes**, and its string with its last owner. -/
theorem Simulates.clearBuffer (h : s.Simulates t) (i : ℕ) :
    ∃ s', s.step (.clearBuffer i) = some s' ∧ s'.Simulates (t.step (.clearBuffer i)) := by
  rw [SharedStore.step, StringStore.step]
  rcases hb : s.buffers[i]? with - | b
  · have hnone := getElem?_of_forall₂ h.buffers hb
    rw [List.set_eq_of_length_le (List.getElem?_eq_none_iff.1 hnone)]
    exact ⟨s, rfl, h⟩
  · obtain ⟨bytes, rest, -, -, hperm, hset⟩ := h.setBuffer hb
    obtain ⟨heap, hrelease, hcounted, hmoves⟩ := Counted.releaseAll (h.counted.perm hperm)
    dsimp only
    rw [hrelease]
    exact ⟨_, rfl, hset hcounted hmoves (holds_none heap 0)⟩

/-- **A list goes**, and each of its strings with its last owner. -/
theorem Simulates.clearList (h : s.Simulates t) (i : ℕ) :
    ∃ s', s.step (.clearList i) = some s' ∧ s'.Simulates (t.step (.clearList i)) := by
  rw [SharedStore.step, StringStore.step]
  rcases hl : s.lists[i]? with - | l
  · have hnone := getElem?_of_forall₂ h.lists hl
    rw [List.set_eq_of_length_le (List.getElem?_eq_none_iff.1 hnone)]
    exact ⟨s, rfl, h⟩
  · obtain ⟨bytes, rest, -, -, hperm, hset⟩ := h.setList hl
    obtain ⟨heap, hrelease, hcounted, hmoves⟩ := Counted.releaseAll (h.counted.perm hperm)
    dsimp only
    rw [hrelease]
    exact ⟨_, rfl, hset hcounted hmoves (holdsList_nil heap)⟩

/-- **A view is taken**: it shows what the list holds now. -/
theorem Simulates.view (h : s.Simulates t) (i : ℕ) :
    ∃ s', s.step (.view i) = some s' ∧ s'.Simulates (t.step (.view i)) := by
  rw [SharedStore.step, StringStore.step]
  rcases hl : s.lists[i]? with - | l
  · rw [getElem?_of_forall₂ h.lists hl]
    exact ⟨s, rfl, h⟩
  · obtain ⟨bytes, rest, hbytes, hholds, hperm, -⟩ := h.setList hl
    obtain ⟨v, hv, hshows⟩ := mapM_str h.counted hholds
      fun p hp ↦ hperm.mem_iff.2 (List.mem_append_left _ hp)
    dsimp only
    rw [hv, hbytes]
    exact ⟨_, rfl, h.counted, h.buffers, h.lists, List.rel_append h.views (.cons hshows .nil),
      h.seen_eq⟩

/-- **A view is cut**: that is seen of no other view and of no list. -/
theorem Simulates.cutView (h : s.Simulates t) (i n : ℕ) :
    ∃ s', s.step (.cutView i n) = some s' ∧ s'.Simulates (t.step (.cutView i n)) := by
  rw [SharedStore.step, StringStore.step]
  rcases hv : s.views[i]? with - | v
  · rw [getElem?_of_forall₂ h.views hv]
    exact ⟨s, rfl, h⟩
  · obtain ⟨bytes, rest, hbytes, hshows, -, hset⟩ := set_of_forall₂ framed_showsList h.views hv
    have hviews : ∀ {v' bytes'}, ShowsList s.heap v' bytes' →
        List.Forall₂ (ShowsList s.heap) (s.views.set i v') (t.views.set i bytes') :=
      fun hshows' ↦ (hset (Moves.refl s.heap rest) (List.Subset.refl _) hshows').1
    rw [hbytes]
    dsimp only
    rcases Nat.lt_or_ge bytes.length n with hlt | hge
    · rw [removePrefixList_of_gt hshows hlt, if_neg (Nat.not_le.2 hlt)]
      exact ⟨_, rfl, h.counted, h.buffers, h.lists, hviews ⟨[], .nil, rfl⟩,
        congrArg (· ++ _) h.seen_eq⟩
    · obtain ⟨v', hcut, hshows'⟩ := removePrefixList_of_le hshows hge
      rw [hcut, if_pos hge]
      exact ⟨_, rfl, h.counted, h.buffers, h.lists, hviews hshows',
        congrArg (· ++ _) h.seen_eq⟩

/-- **A view is read**: as it was taken, as long as its strings are there. -/
theorem Simulates.readView (h : s.Simulates t) (i : ℕ) :
    (s.step (.readView i) = none ∧ s.Dangling (.readView i)) ∨
      ¬ s.Dangling (.readView i) ∧
        ∃ s', s.step (.readView i) = some s' ∧ s'.Simulates (t.step (.readView i)) := by
  rw [SharedStore.step, StringStore.step]
  rcases hv : s.views[i]? with - | v
  · rw [getElem?_of_forall₂ h.views hv]
    refine Or.inr ⟨?_, s, rfl, h⟩
    rintro ⟨j, w, x, hj, hw, -⟩
    cases hj
    exact absurd (hv.symm.trans hw) (by simp)
  · obtain ⟨bytes, rest, hbytes, hshows, -, -⟩ := set_of_forall₂ framed_showsList h.views hv
    rw [hbytes]
    dsimp only
    rcases mapM_read h.counted hshows with ⟨hnone, x, hx, hlost⟩ | ⟨⟨segs, hread, rfl⟩, hthere⟩
    · rw [hnone]
      exact Or.inl ⟨rfl, i, v, x, rfl, hv, hx, hlost⟩
    · rw [hread]
      refine Or.inr ⟨?_, _, rfl, h.counted, h.buffers, h.lists, h.views,
        congrArg (· ++ _) h.seen_eq⟩
      rintro ⟨j, w, x, hj, hw, hx, hpos, hlost⟩
      cases hj
      obtain rfl : v = w := Option.some.inj (hv.symm.trans hw)
      rcases hthere x hx with hzero | ⟨p, hp, hstorage⟩
      · exact hpos hzero
      · exact hlost p hp hstorage

/-- **One step**: it does what it is to do to the strings, or it is undefined. -/
theorem Simulates.step (h : s.Simulates t) (op : SharedOp) :
    (s.step op = none ∧ s.Undefined op) ∨
      ¬ s.Undefined op ∧ ∃ s', s.step op = some s' ∧ s'.Simulates (t.step op) := by
  cases op with
  | plain op =>
    rcases h.plainStep op with ⟨hnone, hself⟩ | ⟨hself, s', hs', hsim⟩
    · exact Or.inl ⟨by rw [SharedStore.step, hnone]; rfl, hself⟩
    refine Or.inr ⟨hself, { s' with seen := s'.seen ++ [((t.store.step op).1, [])] }, ?_, ?_⟩
    · rw [SharedStore.step, hs']
      rfl
    · exact ⟨hsim.counted, hsim.buffers, hsim.lists, hsim.views, congrArg (· ++ _) hsim.seen_eq⟩
  | clearBuffer i => exact Or.inr ⟨not_dangling (by simp), h.clearBuffer i⟩
  | clearList i => exact Or.inr ⟨not_dangling (by simp), h.clearList i⟩
  | view i => exact Or.inr ⟨not_dangling (by simp), h.view i⟩
  | cutView i n => exact Or.inr ⟨not_dangling (by simp), h.cutView i n⟩
  | readView i => exact h.readView i

theorem simulates_start : start.Simulates StringStore.start :=
  ⟨counted_empty, .nil, .nil, .nil, rfl⟩

theorem Simulates.run (h : s.Simulates t) {ops : List SharedOp}
    (hrun : exec SharedStore.step ops s = some s') :
    s'.Simulates (ops.foldl StringStore.step t) := by
  induction ops generalizing s t with
  | nil =>
    obtain rfl : s = s' := Option.some.inj hrun
    exact h
  | cons op ops ih =>
    rcases h.step op with ⟨hnone, -⟩ | ⟨-, s₁, hs₁, hsim⟩
    · rw [exec, hnone] at hrun
      exact absurd hrun (by simp)
    · rw [exec, hs₁] at hrun
      exact ih hsim hrun

/-- **The sharing is not seen.** Whatever a program does with buffers, lists and views, it has
observed what it would have observed of plain strings; each string in the heap has the owners that
are left, and one without owners is gone; and the next operation is undefined exactly if it reads a
view with a string that nobody owns any more, or appends a list that is not empty to itself. -/
theorem exec_observes (ops : List SharedOp) (hrun : exec SharedStore.step ops start = some s) :
    s.seen = (ops.foldl StringStore.step StringStore.start).seen ∧
      (∀ p, (s.heap.cells p).map Prod.snd =
        if s.owners.count p = 0 then none else some (s.owners.count p)) ∧
      ∀ op, s.step op = none ↔ s.Undefined op := by
  have h := simulates_start.run hrun
  refine ⟨h.seen_eq, h.counted.count_eq, fun op ↦ ?_⟩
  rcases h.step op with ⟨hnone, hundefined⟩ | ⟨hdefined, s', hs', -⟩
  · exact ⟨fun _ ↦ hundefined, fun _ ↦ hnone⟩
  · refine ⟨fun hnone ↦ absurd (hs'.symm.trans hnone) (by simp), fun h ↦ absurd h hdefined⟩

/-- A buffer is copied into a list, viewed there, and consumed; the view still shows the string. The
last owner goes with the list, and then the view cannot be read. -/
def consumed : List SharedOp :=
  [.plain (.newBufferOf [1, 2, 3]), .plain (.newListOf 0), .view 0, .plain (.cutBuffer 0 3),
    .readView 0, .clearList 0]

theorem exec_observes_consumed :
    ∃ s, exec SharedStore.step consumed start = some s ∧
      s.seen = [(none, []), (none, []), (none, []), (none, [1, 2, 3])] ∧
      (s.heap.cells 0).map Prod.snd = none ∧ s.Dangling (.readView 0) := by
  obtain ⟨s, hrun⟩ : ∃ s, exec SharedStore.step consumed start = some s := ⟨_, rfl⟩
  have hnext : exec SharedStore.step consumed start >>= (step · (.readView 0)) = none := rfl
  have howners : (exec SharedStore.step consumed start).map owners = some [] := rfl
  obtain ⟨hseen, hcount, hundefined⟩ := exec_observes consumed hrun
  rw [hrun] at hnext howners
  refine ⟨s, hrun, hseen, ?_, (hundefined (.readView 0)).1 hnext⟩
  rw [hcount, Option.some.inj howners]
  rfl

/-- `BufferList l("a"); l.append(l);` -/
example : exec SharedStore.step [.plain (.newListOfString [97]), .plain (.append 0 0)] start =
    none :=
  rfl

end SharedStore
