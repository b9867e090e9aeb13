import Sponge.FileDescriptor.Basic

/-!
# Reading from a descriptor

`read` makes one call of `read(2)`, for at most a mebibyte, into a string that it resizes before and
after. It is also where the end of the file is noticed: a call that asked for something and got
nothing sets `_eof`, for all duplicates of the descriptor.

The order of the steps is kept. In particular the flag is set before the check that the kernel has
not stored more than was asked for, and the counter is advanced last, so a call that throws does not
count as a read.

What the kernel answers is an argument. `ReadAnswer.Standard` is its side of the contract, and under
the contract the check never fails.
-/

open Cpp

/-! ### Strings -/

/-- `str.resize(n)`: cut off, or fill up with zeros. -/
def resize (str : Bytes) (n : ℕ) : Except Exn Bytes :=
  if n ≤ maxStringSize then pure (str.take n ++ List.replicate (n - str.length) 0)
  else throw .lengthError

theorem resize_eq {n : ℕ} (h : n ≤ maxStringSize) (str : Bytes) :
    resize str n = .ok (str.take n ++ List.replicate (n - str.length) 0) :=
  if_pos h

/-- There is room for what is about to be stored. -/
theorem exists_room (str : Bytes) {size : ℕ} (hsize : size ≤ maxStringSize) :
    ∃ room, resize str size = .ok room ∧ room.length = size := by
  refine ⟨_, resize_eq hsize str, ?_⟩
  rw [List.length_append, List.length_take, List.length_replicate]
  omega

theorem resize_of_le {str : Bytes} {n : ℕ} (h : n ≤ maxStringSize) (hle : n ≤ str.length) :
    resize str n = .ok (str.take n) := by
  rw [resize_eq h, Nat.sub_eq_zero_of_le hle, List.replicate_zero, List.append_nil]

/-- The memory of `str`, after a call has stored `data` at its beginning. -/
def stored (data str : Bytes) : Bytes := data ++ str.drop data.length

theorem length_stored {data str : Bytes} (h : data.length ≤ str.length) :
    (stored data str).length = str.length := by
  rw [stored, List.length_append, List.length_drop]
  omega

theorem take_stored (data str : Bytes) : (stored data str).take data.length = data :=
  List.take_left

/-- Cutting a string off behind what was stored. -/
theorem resize_stored {data str : Bytes} (h : data.length ≤ str.length)
    (hlen : data.length ≤ maxStringSize) : resize (stored data str) data.length = .ok data := by
  rw [resize_of_le hlen (by rw [length_stored h]; exact h), take_stored]

/-! ### The kernel's side of `read(2)` -/

/-- What a call of `read` answers. -/
inductive ReadAnswer where
  /-- The call returns `-1` and sets `errno`. -/
  | failed (errno : ℤ)
  /-- The call stores the bytes and returns their number. -/
  | returned (data : Bytes)
  deriving DecidableEq, Repr

namespace ReadAnswer

def returnValue : ReadAnswer → ℤ
  | failed _ => -1
  | returned data => data.length

/-- The `errno` after the call; a call that succeeds does not set it. -/
def errno : ReadAnswer → ℤ
  | failed e => e
  | returned _ => 0

/-- What is stored. -/
def data : ReadAnswer → Bytes
  | failed _ => []
  | returned data => data

/-- **The contract** of a call that asks for `size` bytes: a failure sets `errno`, and no more is
stored than was asked for. -/
def Standard (size : ℕ) : ReadAnswer → Prop
  | failed e => e ≠ 0
  | returned data => data.length ≤ size

instance (size : ℕ) (answer : ReadAnswer) : Decidable (answer.Standard size) :=
  match answer with
  | failed e => inferInstanceAs (Decidable (e ≠ 0))
  | returned data => inferInstanceAs (Decidable (data.length ≤ size))

end ReadAnswer

/-! ### `read` -/

namespace FDWrapper

/-- `BUFFER_SIZE`. -/
def bufferSize : ℕ := 1024 * 1024

/-- `size_to_read`. -/
def sizeToRead (limit : ℕ) : ℕ := min bufferSize limit

/-- The rest of `read`, once the call has returned `bytesRead`. The wrapper and the string are what
it changes, also if it throws. -/
def accept (w : FDWrapper) (str : Bytes) (limit size : ℕ) (bytesRead : ℤ) :
    EStateM.Result Exn (FDWrapper × Bytes) Unit :=
  let w := if limit > 0 ∧ bytesRead = 0 then { w with eof := true } else w
  if bytesRead > toSSizeT size then
    .error (.runtimeError "read() read more than requested") (w, str)
  else
    match resize str (toSizeT bytesRead) with
    | .error e => .error e (w, str)
    | .ok str => .ok () (w.registerRead, str)

/-- The body of `read`, with the value of `size_to_read`. The `ssize_t` that `read(2)` returns goes
through the `int` of `SystemCall`. -/
def readSized (w : FDWrapper) (str : Bytes) (limit size : ℕ) (answer : ReadAnswer) :
    EStateM.Result Exn (FDWrapper × Bytes) Unit :=
  match resize str size with
  | .error e => .error e (w, str)
  | .ok str =>
    match systemCall "read" (narrowInt answer.returnValue) answer.errno with
    | .error e => .error e (w, stored answer.data str)
    | .ok bytesRead => w.accept (stored answer.data str) limit size bytesRead

/-- `read(std::string &str, const size_t limit)`. -/
def readInto (w : FDWrapper) (str : Bytes) (limit : ℕ) (answer : ReadAnswer) :
    EStateM.Result Exn (FDWrapper × Bytes) Unit :=
  w.readSized str limit (sizeToRead limit) answer

/-- `read(const size_t limit)`: read into a new string and return it. -/
def read (w : FDWrapper) (limit : ℕ) (answer : ReadAnswer) : EStateM.Result Exn FDWrapper Bytes :=
  match w.readInto [] limit answer with
  | .error e (w, _) => .error e w
  | .ok _ (w, str) => .ok str w

/-- The wrapper after a call that has returned `data`. -/
def afterRead (w : FDWrapper) (limit : ℕ) (data : Bytes) : FDWrapper :=
  { w with
    eof := w.eof || (decide (0 < limit) && data.isEmpty)
    readCount := w.readCount + 1 }

variable {w : FDWrapper} {limit : ℕ}

/-- A new wrapper is not at the end of its file. -/
theorem eof_of_ofFd {n : ℤ} (h : ofFd n = .ok w) : w.eof = false := by
  rw [ofFd] at h
  split at h
  · exact absurd h (by simp [throw, throwThe, MonadExceptOf.throw])
  · obtain rfl := Except.ok.inj h
    rfl

theorem sizeToRead_le (limit : ℕ) : sizeToRead limit ≤ 2 ^ 20 := Nat.min_le_left _ _

theorem le_maxStringSize {size : ℕ} (hsize : size ≤ 2 ^ 20) : size ≤ maxStringSize := by
  rw [maxStringSize]
  omega

theorem afterRead_eq (w : FDWrapper) (limit : ℕ) (data : Bytes) :
    (if limit > 0 ∧ (data.length : ℤ) = 0 then { w with eof := true } else w).registerRead =
      w.afterRead limit data := by
  rcases Nat.eq_zero_or_pos limit with rfl | hpos
  · rw [if_neg (by simp), afterRead]
    simp [registerRead]
  rcases data with - | ⟨b, bs⟩
  · rw [if_pos ⟨hpos, rfl⟩, afterRead]
    simp [registerRead, hpos]
  · rw [if_neg (by rintro ⟨-, h⟩; simp at h; omega), afterRead]
    simp [registerRead]

theorem accept_eq {str data : Bytes} {size : ℕ} (hsize : size ≤ 2 ^ 20) (h : data.length ≤ size)
    (hlen : str.length = size) :
    w.accept (stored data str) limit size data.length = .ok () (w.afterRead limit data, data) := by
  have hnot : ¬ (data.length : ℤ) > toSSizeT size := by
    rw [toSSizeT]
    omega
  rw [accept, if_neg hnot, toSizeT_natCast (show data.length < 2 ^ 64 by omega),
    resize_stored (hlen ▸ h) (le_maxStringSize (h.trans hsize))]
  exact congrArg (fun w' ↦ EStateM.Result.ok () (w', data)) (afterRead_eq w limit data)

theorem readSized_of_returned (str : Bytes) {size : ℕ} (hsize : size ≤ 2 ^ 20) {data : Bytes}
    (h : data.length ≤ size) :
    w.readSized str limit size (.returned data) = .ok () (w.afterRead limit data, data) := by
  obtain ⟨room, hroom, hlen⟩ := exists_room str (le_maxStringSize hsize)
  have hcall : systemCall "read" (narrowInt (ReadAnswer.returned data).returnValue)
      (ReadAnswer.returned data).errno = .ok (data.length : ℤ) := by
    rw [ReadAnswer.returnValue, narrowInt_eq ⟨by omega, by omega⟩]
    exact systemCall_of_nonneg _ _ (by omega)
  rw [readSized, hcall, hroom]
  exact accept_eq hsize h hlen

/-- **A call that returns** gives its caller exactly what the kernel stored. -/
theorem readInto_of_returned (str : Bytes) {data : Bytes} (h : data.length ≤ sizeToRead limit) :
    w.readInto str limit (.returned data) = .ok () (w.afterRead limit data, data) :=
  readSized_of_returned str (sizeToRead_le limit) h

theorem read_of_returned {data : Bytes} (h : data.length ≤ sizeToRead limit) :
    w.read limit (.returned data) = .ok data (w.afterRead limit data) := by
  rw [read, readInto_of_returned [] h]

theorem readSized_of_failed (w : FDWrapper) (str : Bytes) (limit : ℕ) {size : ℕ}
    (hsize : size ≤ 2 ^ 20) {e : ℤ} (he : e ≠ 0) :
    ∃ room, w.readSized str limit size (.failed e) = .error (.unixError "read" e) (w, room) := by
  obtain ⟨room, hroom, -⟩ := exists_room str (le_maxStringSize hsize)
  have hcall : systemCall "read" (narrowInt (ReadAnswer.failed e).returnValue)
      (ReadAnswer.failed e).errno = .error (.unixError "read" e) :=
    systemCall_of_neg _ (show narrowInt (-1) < 0 by decide) he
  refine ⟨stored [] room, ?_⟩
  rw [readSized, hcall, hroom]
  rfl

/-- **A call that fails** leaves the wrapper as it was. -/
theorem read_of_failed {e : ℤ} (he : e ≠ 0) :
    w.read limit (.failed e) = .error (.unixError "read" e) w := by
  obtain ⟨room, hroom⟩ := readSized_of_failed w [] limit (sizeToRead_le limit) he
  rw [read, readInto, hroom]

end FDWrapper
