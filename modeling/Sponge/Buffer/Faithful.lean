import Sponge.Buffer.Basic
import Sponge.Lib.Machine

/-!
# Buffer lists are faithful to the strings they denote

A `BufferList` denotes the concatenation of its buffers. The first half of this file gives each
operation of the class its meaning on that string; the size is the only one that can go wrong, since
it is summed as a `size_t`.

The second half puts the operations into runs. A `BufferStore` is a program's variables, some of
them buffers and some of them lists; an operation reads and writes them, and one that throws leaves
the variable as the exception found it. `ByteStore` is the same program on plain strings. Every run
on buffers, with the exceptions it throws, is the run on strings (`BufferStore.denote_run`). In
particular buffers that were consumed partly or wholly before they were put into a list, and ones
that never had a storage, are all reached.
-/

namespace BufferList

/-! ### The meaning of the operations -/

theorem concatenate_eq (l : BufferList) :
    l.concatenate = Buffer.segmentOps.contents l.buffers :=
  List.flatMap_eq_foldl.symm

@[simp] theorem concatenate_default : default.concatenate = [] := rfl

@[simp] theorem concatenate_ofBuffer (b : Buffer) : (ofBuffer b).concatenate = b.str := rfl

@[simp] theorem concatenate_ofString (str : Bytes) : (ofString str).concatenate = str := rfl

@[simp] theorem buffers_append (l other : BufferList) :
    (l.append other).buffers = l.buffers ++ other.buffers := by
  show other.buffers.foldl (fun bs buf ↦ bs ++ [id buf]) l.buffers = _
  rw [Cpp.foldl_pushBack, List.map_id]

theorem concatenate_append (l other : BufferList) :
    (l.append other).concatenate = l.concatenate ++ other.concatenate := by
  rw [concatenate_eq, concatenate_eq, concatenate_eq, buffers_append,
    SegmentOps.contents_append]

/-- The size is the length of the string, modulo `2 ^ 64`. -/
theorem size_eq_mod (l : BufferList) : l.size = l.concatenate.length % 2 ^ 64 := by
  rw [size, Cpp.foldl_szAdd _ _ (by decide), Nat.zero_add, concatenate_eq,
    SegmentOps.length_contents]
  rfl

theorem size_eq {l : BufferList} (h : l.concatenate.length < 2 ^ 64) :
    l.size = l.concatenate.length := by
  rw [size_eq_mod, Nat.mod_eq_of_lt h]

theorem removePrefix_of_le {l : BufferList} {n : ℕ} (h : n ≤ l.concatenate.length) :
    ∃ l', l.removePrefix n = .ok () l' ∧ l'.concatenate = l.concatenate.drop n := by
  rw [concatenate_eq] at h
  obtain ⟨bs, hok, hbs⟩ :=
    SegmentOps.removePrefix_of_le (.outOfRange "BufferList::remove_prefix") h
  refine ⟨⟨bs⟩, by rw [removePrefix, hok], ?_⟩
  rw [concatenate_eq, concatenate_eq, hbs]

/-- Past the end the exception is thrown from an emptied list. -/
theorem removePrefix_of_gt {l : BufferList} {n : ℕ} (h : l.concatenate.length < n) :
    l.removePrefix n = .error (.outOfRange "BufferList::remove_prefix") default := by
  rw [concatenate_eq] at h
  rw [removePrefix, SegmentOps.removePrefix_of_gt _ h]
  rfl

/-- An exception comes from the loop, with the segments that it leaves. -/
theorem removePrefix_eq_error {l l' : BufferList} {n : ℕ} {e : Exn} :
    l.removePrefix n = .error e l' ↔ Buffer.segmentOps.removePrefix
      (.outOfRange "BufferList::remove_prefix") l.buffers n = .error e l'.buffers := by
  rw [removePrefix]
  split
  · rename_i hloop
    rw [hloop]
    exact iff_of_false (fun h ↦ nomatch h) (fun h ↦ nomatch h)
  · rename_i hloop
    rw [hloop, EStateM.Result.error.injEq, EStateM.Result.error.injEq, BufferList.ext_iff]

end BufferList

/-! ### Programs that use buffers -/

/-- The operations of a program on its buffer variables and its list variables. A variable is named
by its index; an index that names none makes the operation do nothing. -/
inductive BufferOp where
  /-- `Buffer()`. -/
  | newBuffer
  /-- `Buffer(std::move(str))`. -/
  | newBufferOf (str : Bytes)
  /-- Copy construction of a buffer. -/
  | copyBuffer (i : ℕ)
  /-- `remove_prefix` on a buffer. -/
  | cutBuffer (i n : ℕ)
  /-- `BufferList()`. -/
  | newList
  /-- `BufferList(buffer)`. -/
  | newListOf (i : ℕ)
  /-- `BufferList(std::move(str))`. -/
  | newListOfString (str : Bytes)
  /-- `append` of another list; a list is not appended to itself. -/
  | append (i j : ℕ)
  /-- `remove_prefix` on a list. -/
  | removePrefix (i n : ℕ)

/-- The variables of a program that uses buffers. -/
@[ext]
structure BufferStore where
  buffers : List Buffer
  lists : List BufferList

namespace BufferStore

/-- One operation, with the exception it throws, if any. -/
def step (st : BufferStore) : BufferOp → Option Exn × BufferStore
  | .newBuffer => (none, { st with buffers := st.buffers ++ [Buffer.default] })
  | .newBufferOf str => (none, { st with buffers := st.buffers ++ [Buffer.ofString str] })
  | .copyBuffer i =>
    match st.buffers[i]? with
    | none => (none, st)
    | some b => (none, { st with buffers := st.buffers ++ [b] })
  | .cutBuffer i n =>
    match st.buffers[i]? with
    | none => (none, st)
    | some b =>
      match b.removePrefix n with
      | .ok _ b' => (none, { st with buffers := st.buffers.set i b' })
      | .error e b' => (some e, { st with buffers := st.buffers.set i b' })
  | .newList => (none, { st with lists := st.lists ++ [BufferList.default] })
  | .newListOf i =>
    match st.buffers[i]? with
    | none => (none, st)
    | some b => (none, { st with lists := st.lists ++ [BufferList.ofBuffer b] })
  | .newListOfString str => (none, { st with lists := st.lists ++ [BufferList.ofString str] })
  | .append i j =>
    match st.lists[i]?, st.lists[j]? with
    | some l, some other =>
      if i = j then (none, st) else (none, { st with lists := st.lists.set i (l.append other) })
    | _, _ => (none, st)
  | .removePrefix i n =>
    match st.lists[i]? with
    | none => (none, st)
    | some l =>
      match l.removePrefix n with
      | .ok _ l' => (none, { st with lists := st.lists.set i l' })
      | .error e l' => (some e, { st with lists := st.lists.set i l' })

/-- A run from a program's start, with no variables. -/
def run (ops : List BufferOp) : List (Option Exn) × BufferStore :=
  Machine.trace step ⟨[], []⟩ ops

/-- Every buffer there is: the variables and the members of the lists. -/
def allBuffers (st : BufferStore) : List Buffer := st.buffers ++ st.lists.flatMap (·.buffers)

end BufferStore

/-- The same variables as plain strings. -/
@[ext]
structure ByteStore where
  buffers : List Bytes
  lists : List Bytes

namespace ByteStore

/-- What each operation is to do to the strings. -/
def step (st : ByteStore) : BufferOp → Option Exn × ByteStore
  | .newBuffer => (none, { st with buffers := st.buffers ++ [[]] })
  | .newBufferOf str => (none, { st with buffers := st.buffers ++ [str] })
  | .copyBuffer i =>
    match st.buffers[i]? with
    | none => (none, st)
    | some b => (none, { st with buffers := st.buffers ++ [b] })
  | .cutBuffer i n =>
    match st.buffers[i]? with
    | none => (none, st)
    | some b =>
      if n ≤ b.length then (none, { st with buffers := st.buffers.set i (b.drop n) })
      else (some (.outOfRange "Buffer::remove_prefix"), st)
  | .newList => (none, { st with lists := st.lists ++ [[]] })
  | .newListOf i =>
    match st.buffers[i]? with
    | none => (none, st)
    | some b => (none, { st with lists := st.lists ++ [b] })
  | .newListOfString str => (none, { st with lists := st.lists ++ [str] })
  | .append i j =>
    match st.lists[i]?, st.lists[j]? with
    | some l, some other =>
      if i = j then (none, st) else (none, { st with lists := st.lists.set i (l ++ other) })
    | _, _ => (none, st)
  | .removePrefix i n =>
    match st.lists[i]? with
    | none => (none, st)
    | some l =>
      if n ≤ l.length then (none, { st with lists := st.lists.set i (l.drop n) })
      else (some (.outOfRange "BufferList::remove_prefix"), { st with lists := st.lists.set i [] })

/-- A run from a program's start. -/
def run (ops : List BufferOp) : List (Option Exn) × ByteStore :=
  Machine.trace step ⟨[], []⟩ ops

end ByteStore

/-! ### The simulation -/

namespace BufferStore

/-- The strings that the variables of a program denote. -/
def denote (st : BufferStore) : ByteStore where
  buffers := st.buffers.map Buffer.str
  lists := st.lists.map BufferList.concatenate

/-- **One operation** does to the denoted strings what it is to do, and throws when it is to. -/
theorem denote_step (st : BufferStore) (op : BufferOp) :
    st.denote.step op = ((st.step op).1, (st.step op).2.denote) := by
  cases op with
  | newBuffer | newBufferOf | newList | newListOfString => simp [step, ByteStore.step, denote]
  | copyBuffer i | newListOf i =>
    rcases hb : st.buffers[i]? with - | b <;> simp [step, ByteStore.step, denote, hb]
  | cutBuffer i n =>
    rcases hb : st.buffers[i]? with - | b
    · simp [step, ByteStore.step, denote, hb]
    rcases Nat.lt_or_ge b.size n with hlt | hge
    · have hset : st.buffers.set i b = st.buffers := by
        obtain ⟨hi, rfl⟩ := List.getElem?_eq_some_iff.1 hb
        exact List.set_getElem_self hi
      have hnot : ¬ n ≤ b.str.length := Nat.not_le.2 hlt
      simp [step, ByteStore.step, denote, hb, Buffer.removePrefix_of_gt hlt, hnot, hset]
    · obtain ⟨b', hok, hstr⟩ := Buffer.removePrefix_of_le hge
      have hle : n ≤ b.str.length := hge
      simp [step, ByteStore.step, denote, hb, hok, hle, hstr, List.map_set]
  | append i j =>
    rcases hi : st.lists[i]? with - | l
    · simp [step, ByteStore.step, denote, hi]
    rcases hj : st.lists[j]? with - | other
    · simp [step, ByteStore.step, denote, hi, hj]
    by_cases hij : i = j
    · simp [step, ByteStore.step, denote, hj, hij]
    · simp [step, ByteStore.step, denote, hi, hj, hij, List.map_set,
        BufferList.concatenate_append]
  | removePrefix i n =>
    rcases hl : st.lists[i]? with - | l
    · simp [step, ByteStore.step, denote, hl]
    rcases Nat.lt_or_ge l.concatenate.length n with hlt | hge
    · simp [step, ByteStore.step, denote, hl, BufferList.removePrefix_of_gt hlt,
        Nat.not_le.2 hlt, List.map_set]
    · obtain ⟨l', hok, hl'⟩ := BufferList.removePrefix_of_le hge
      simp [step, ByteStore.step, denote, hl, hok, hge, hl', List.map_set]

/-- **Every run on buffers is the run on strings.** -/
theorem denote_run (ops : List BufferOp) :
    ByteStore.run ops = ((run ops).1, (run ops).2.denote) :=
  Machine.trace_abs denote_step ⟨[], []⟩ ops

end BufferStore

/-! ### Faithfulness in every reached state -/

/-- What the members of a reached state owe to the class: the offset lies inside the storage, so the
length that `str()` subtracts is not negative, and `remove_prefix` throws exactly past the end,
without touching the buffer. -/
structure Buffer.Sound (b : Buffer) : Prop where
  offset_le : b.storage = none ∨ ∃ s, b.storage = some s ∧ b.startingOffset ≤ s.length
  size_eq : ∀ s, b.storage = some s → (b.size : ℤ) = (s.length : ℤ) - b.startingOffset
  throws_iff : ∀ n, (∃ e b', b.removePrefix n = .error e b') ↔ n > b.size
  unchanged : ∀ n e b', b.removePrefix n = .error e b' → b' = b

theorem Buffer.sound (b : Buffer) : b.Sound where
  offset_le := by
    rcases hs : b.storage with - | s
    · exact Or.inl rfl
    · exact Or.inr ⟨s, rfl, b.offset_le s hs⟩
  size_eq := by
    intro s hs
    have hle := b.offset_le s hs
    rw [size, str, hs, List.length_drop]
    omega
  throws_iff := by
    intro n
    rcases Nat.lt_or_ge b.size n with hlt | hge
    · exact iff_of_true ⟨_, _, removePrefix_of_gt hlt⟩ hlt
    · obtain ⟨b', hok, -⟩ := removePrefix_of_le hge
      exact iff_of_false (by simp [hok]) (Nat.not_lt.2 hge)
  unchanged := by
    intro n e b' h
    rcases Nat.lt_or_ge b.size n with hlt | hge
    · rw [removePrefix_of_gt hlt] at h
      exact (EStateM.Result.error.inj h).2.symm
    · obtain ⟨b'', hok, -⟩ := removePrefix_of_le hge
      rw [hok] at h
      cases h

/-- What it is for a list to be faithful to its string. -/
structure BufferList.Faithful (l : BufferList) : Prop where
  concatenate_eq : l.concatenate = (l.buffers.map Buffer.str).flatten
  size_eq : l.size = l.concatenate.length
  append_eq : ∀ other : BufferList,
    (l.append other).concatenate = l.concatenate ++ other.concatenate
  removePrefix_le : ∀ n ≤ l.size,
    ∃ l', l.removePrefix n = .ok () l' ∧ l'.concatenate = l.concatenate.drop n
  removePrefix_gt : ∀ n > l.size,
    ∃ l', l.removePrefix n = .error (.outOfRange "BufferList::remove_prefix") l'

theorem BufferList.faithful {l : BufferList} (h : l.concatenate.length < 2 ^ 64) :
    l.Faithful where
  concatenate_eq := l.concatenate_eq.trans List.flatMap_def
  size_eq := size_eq h
  append_eq := l.concatenate_append
  removePrefix_le _ hn := removePrefix_of_le (size_eq h ▸ hn)
  removePrefix_gt _ hn := ⟨_, removePrefix_of_gt (size_eq h ▸ hn)⟩

/-- **Buffer lists are faithful.** After any sequence of operations on buffers and lists: the
strings denoted, and the exceptions thrown on the way, are those of the same operations on plain
strings; every list whose string is shorter than `2 ^ 64` is faithful to it; and every buffer, free
or in a list, is sound. -/
theorem BufferStore.run_faithful (ops : List BufferOp) :
    ByteStore.run ops = ((run ops).1, (run ops).2.denote) ∧
      (∀ l ∈ (run ops).2.lists, l.concatenate.length < 2 ^ 64 → l.Faithful) ∧
      ∀ b ∈ (run ops).2.allBuffers, b.Sound :=
  ⟨denote_run ops, fun _ _ h ↦ BufferList.faithful h, fun b _ ↦ b.sound⟩
