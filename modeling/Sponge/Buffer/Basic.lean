import Sponge.Lib.Arith
import Sponge.Lib.Segments
import Sponge.Util

/-!
# Buffers, buffer lists and views of them

`Buffer` is a reference-counted read-only string that discards bytes from the front by moving an
offset; `BufferList` is a queue of buffers and `BufferViewList` a queue of string views, each of
which can discard a prefix that crosses any number of segments.

The storage is shared between copies of a `Buffer` but never written through them, so a copy is a
value: the model keeps the shared string by contents. What is observable is which copy has given its
storage up, and that is kept: a buffer that has been consumed to its last byte has **no storage and
a non-zero offset**.

`Buffer` carries its invariant as a field, `offset_le`. In the source this is what keeps the length
computed by `str()` from being negative; here every operation has to establish it to be defined at
all, and the only one that moves the offset, `removePrefix`, gets it from the check it makes first.

An operation that can throw returns `EStateM.Result`, which has the state of the object in both
outcomes. Allocation is assumed to succeed.
-/

/-! ### A single buffer -/

/-- The private fields of the class, and the invariant between them. -/
@[ext]
structure Buffer where
  /-- The shared string, if the buffer still has one. -/
  storage : Option Bytes
  startingOffset : ℕ
  /-- The offset stays inside the storage. -/
  offset_le : ∀ s, storage = some s → startingOffset ≤ s.length

namespace Buffer

/-- `Buffer()`. -/
def default : Buffer where
  storage := none
  startingOffset := 0
  offset_le := by simp

/-- `Buffer(std::string &&str)`. -/
def ofString (str : Bytes) : Buffer where
  storage := some str
  startingOffset := 0
  offset_le := by simp

/-- The bytes of the view from the offset to the end of the storage. -/
def str (b : Buffer) : Bytes :=
  match b.storage with
  | none => []
  | some s => s.drop b.startingOffset

def size (b : Buffer) : ℕ := b.str.length

/-- `at(n)`: a checked access, unlike the subscripts of a string. -/
def charAt (b : Buffer) (n : ℕ) : Except Exn UInt8 :=
  match b.str[n]? with
  | some byte => pure byte
  | none => throw (.outOfRange "basic_string_view::at")

theorem offset_add_le {b : Buffer} {n : ℕ} (h : n ≤ b.str.length) {s : Bytes}
    (hs : b.storage = some s) : b.startingOffset + n ≤ s.length := by
  have hle := b.offset_le s hs
  rw [str, hs, List.length_drop] at h
  omega

/-- The assignments of `remove_prefix`: the offset moves, and a buffer consumed to its last byte
releases its storage. -/
def advance (b : Buffer) (n : ℕ) (h : n ≤ b.str.length) : Buffer :=
  if b.storage.map List.length = some (b.startingOffset + n) then
    { storage := none
      startingOffset := b.startingOffset + n
      offset_le := by simp }
  else
    { storage := b.storage
      startingOffset := b.startingOffset + n
      offset_le := fun _ hs ↦ offset_add_le h hs }

/-- Discard the first `n` bytes. -/
def removePrefix (b : Buffer) (n : ℕ) : EStateM.Result Exn Buffer Unit :=
  if h : n > b.str.length then .error (.outOfRange "Buffer::remove_prefix") b
  else .ok () (b.advance n (not_lt.1 h))

@[simp] theorem str_default : default.str = [] := rfl

@[simp] theorem str_ofString (s : Bytes) : (ofString s).str = s := rfl

/-- **Moving the offset drops from the front**, also when the storage is given up. -/
theorem str_advance (b : Buffer) {n : ℕ} (h : n ≤ b.str.length) :
    (b.advance n h).str = b.str.drop n := by
  rw [advance]
  split
  · rename_i hend
    obtain ⟨s, hs, hlen⟩ := Option.map_eq_some_iff.1 hend
    show [] = b.str.drop n
    rw [str, hs, List.drop_drop, List.drop_of_length_le (Nat.le_of_eq hlen)]
  · show (match b.storage with
      | none => []
      | some s => s.drop (b.startingOffset + n)) = b.str.drop n
    rw [str]
    cases b.storage with
    | none => rw [List.drop_nil]
    | some s => rw [List.drop_drop]

theorem removePrefix_of_le {b : Buffer} {n : ℕ} (h : n ≤ b.size) :
    ∃ b', b.removePrefix n = .ok () b' ∧ b'.str = b.str.drop n :=
  ⟨_, dif_neg (not_lt.2 h), b.str_advance h⟩

theorem removePrefix_of_gt {b : Buffer} {n : ℕ} (h : b.size < n) :
    b.removePrefix n = .error (.outOfRange "Buffer::remove_prefix") b :=
  dif_pos h

/-- Buffers as segments. -/
def segmentOps : SegmentOps Buffer UInt8 Exn where
  content := str
  cut := removePrefix
  cut_spec _ _ h := removePrefix_of_le (Nat.le_of_lt h)

end Buffer

/-! ### Lists of buffers -/

/-- A discontiguous string. -/
@[ext]
structure BufferList where
  buffers : List Buffer

namespace BufferList

/-- `BufferList()`. -/
def default : BufferList := ⟨[]⟩

/-- `BufferList(Buffer buffer)`. -/
def ofBuffer (buffer : Buffer) : BufferList := ⟨[buffer]⟩

/-- Append the buffers of another list, one by one. -/
def append (l other : BufferList) : BufferList :=
  ⟨other.buffers.foldl (fun bs buf ↦ bs ++ [buf]) l.buffers⟩

/-- `BufferList(std::string &&str)`: an empty list, to which a one-buffer list is appended. -/
def ofString (str : Bytes) : BufferList := default.append (ofBuffer (Buffer.ofString str))

/-- The conversion to `Buffer`, for a list that is contiguous. -/
def toBuffer (l : BufferList) : Except Exn Buffer :=
  match l.buffers with
  | [] => pure Buffer.default
  | [buf] => pure buf
  | _ => throw (.runtimeError
      "BufferList: please use concatenate() to combine a multi-Buffer BufferList into one Buffer")

/-- Copy the bytes of all buffers, one after the other. -/
def concatenate (l : BufferList) : Bytes :=
  l.buffers.foldl (fun ret buf ↦ ret ++ buf.str) []

/-- The sum of the sizes, as a `size_t`. -/
def size (l : BufferList) : ℕ :=
  l.buffers.foldl (fun ret buf ↦ Cpp.szAdd ret buf.size) 0

/-- Discard the first `n` bytes. -/
def removePrefix (l : BufferList) (n : ℕ) : EStateM.Result Exn BufferList Unit :=
  match Buffer.segmentOps.removePrefix (.outOfRange "BufferList::remove_prefix") l.buffers n with
  | .ok _ bs => .ok () ⟨bs⟩
  | .error e bs => .error e ⟨bs⟩

end BufferList

/-! ### Lists of views -/

/-- `iovec`: the bytes from the base on, and how many of them belong to the segment. -/
structure Iovec where
  iovBase : Bytes
  iovLen : ℕ
  deriving DecidableEq, Repr

/-- The bytes that a list of iovecs hands over. -/
def iovecBytes (iovecs : List Iovec) : Bytes := iovecs.flatMap fun v ↦ v.iovBase.take v.iovLen

/-- A non-owning view of a discontiguous string. -/
@[ext]
structure BufferViewList where
  views : List Bytes
  deriving DecidableEq, Repr

namespace BufferViewList

/-- `BufferViewList(std::string_view str)`. -/
def ofString (str : Bytes) : BufferViewList := ⟨[str]⟩

/-- `BufferViewList(const BufferList &buffers)`: one view for each buffer. -/
def ofBufferList (l : BufferList) : BufferViewList :=
  ⟨l.buffers.foldl (fun vs buf ↦ vs ++ [buf.str]) []⟩

/-- Views as segments; `std::string_view::remove_prefix` moves the start of the view. -/
def segmentOps : SegmentOps Bytes UInt8 Exn where
  content := id
  cut v n := .ok () (v.drop n)
  cut_spec v n _ := ⟨v.drop n, rfl, rfl⟩

/-- Discard the first `n` bytes. -/
def removePrefix (v : BufferViewList) (n : ℕ) : EStateM.Result Exn BufferViewList Unit :=
  match segmentOps.removePrefix (.outOfRange "BufferListView::remove_prefix") v.views n with
  | .ok _ vs => .ok () ⟨vs⟩
  | .error e vs => .error e ⟨vs⟩

/-- The sum of the sizes, as a `size_t`. -/
def size (v : BufferViewList) : ℕ :=
  v.views.foldl (fun ret view ↦ Cpp.szAdd ret view.length) 0

def asIovecs (v : BufferViewList) : List Iovec :=
  v.views.map fun x ↦ { iovBase := x, iovLen := x.length }

end BufferViewList
