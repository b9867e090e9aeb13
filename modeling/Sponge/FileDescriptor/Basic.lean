import Sponge.Buffer.Basic
import Sponge.Lib.Loop

/-!
# File descriptors: the shared wrapper and writing

`FDWrapper` is the object that all duplicates of a `FileDescriptor` share: the descriptor's number,
its end-of-file and closed flags, and the two counters by which the event loop notices that a
callback did something. The counters are `unsigned`, so they wrap.

`write` hands the remaining views to `writev(2)` until the kernel has taken everything, or only
once. The kernel is an adversary: an arbitrary answer to every call, from the number of the call and
the iovecs it is given. Its side of the contract is carried by the type `Writev`, so an answer that
breaks the contract cannot be written down. What the kernel has taken is recorded in the state next
to the program's own variables, as the part of the world that the call changes.

The loop has no bound of its own, and is run as `loop`, with fuel.
-/

open Cpp

/-- The handle shared by all duplicates of a descriptor. -/
structure FDWrapper where
  fd : ℤ
  eof : Bool
  closed : Bool
  readCount : UInt32
  writeCount : UInt32
  deriving DecidableEq, Repr

namespace FDWrapper

/-- `FDWrapper(fd)`. -/
def ofFd (fd : ℤ) : Except Exn FDWrapper :=
  if fd < 0 then throw (.runtimeError ("invalid fd number:" ++ toString fd))
  else pure { fd, eof := false, closed := false, readCount := 0, writeCount := 0 }

/-- `register_read()`. -/
def registerRead (w : FDWrapper) : FDWrapper := { w with readCount := w.readCount + 1 }

/-- `register_write()`. -/
def registerWrite (w : FDWrapper) : FDWrapper := { w with writeCount := w.writeCount + 1 }

end FDWrapper

/-! ### The kernel's side of `writev(2)` -/

/-- What a call of `writev` answers. -/
inductive WritevAnswer where
  /-- The call returns `-1` and sets `errno`. -/
  | failed (errno : ℤ)
  /-- The call takes the first `k` bytes and returns `k`. -/
  | accepted (k : ℕ)
  deriving DecidableEq, Repr

namespace WritevAnswer

/-- The return value. -/
def returnValue : WritevAnswer → ℤ
  | .failed _ => -1
  | .accepted k => k

/-- The `errno` after the call; a call that succeeds does not set it. -/
def errno : WritevAnswer → ℤ
  | .failed e => e
  | .accepted _ => 0

/-- The bytes taken from the iovecs. -/
def taken (iovecs : List Iovec) : WritevAnswer → Bytes
  | .failed _ => []
  | .accepted k => (iovecBytes iovecs).take k

end WritevAnswer

/-- A kernel: its answers to the calls of a run, by number and arguments, under the contract of
`writev(2)`. -/
structure Writev where
  answer : ℕ → List Iovec → WritevAnswer
  /-- A failure sets `errno`. -/
  errno_ne_zero : ∀ i v e, answer i v = .failed e → e ≠ 0
  /-- No more is taken than is handed over. -/
  accepted_le : ∀ i v k, answer i v = .accepted k → k ≤ (iovecBytes v).length
  /-- The count fits an `int`, which is what `SystemCall` receives it as. -/
  accepted_lt : ∀ i v k, answer i v = .accepted k → k < 2 ^ 31

/-! ### Writing -/

/-- The variables of `write`, and what the kernel has seen. -/
structure WriteState where
  /-- The views still to be written. -/
  buffer : BufferViewList
  totalBytesWritten : ℕ
  /-- The shared wrapper, whose counter is advanced. -/
  wrapper : FDWrapper
  /-- How many times `writev` has been called. -/
  calls : ℕ
  /-- What the kernel has taken so far. -/
  taken : Bytes

namespace WriteState

/-- The state after one more `writev`, with the kernel's answer. -/
def afterCall (s : WriteState) (answer : WritevAnswer) : WriteState :=
  { s with
    calls := s.calls + 1
    taken := s.taken ++ answer.taken s.buffer.asIovecs }

/-- The rest of the loop body, once `writev` has returned `bytesWritten`. -/
def consume (writeAll : Bool) (s : WriteState) (bytesWritten : ℤ) :
    Turn WriteState (Except Exn ℕ × WriteState) :=
  if bytesWritten = 0 ∧ s.buffer.size ≠ 0 then
    .done (.error (.runtimeError "write returned 0 given non-empty input buffer"), s)
  else if bytesWritten > toSSizeT s.buffer.size then
    .done (.error (.runtimeError "write wrote more than length of input buffer"), s)
  else
    let s := { s with wrapper := s.wrapper.registerWrite }
    match s.buffer.removePrefix (toSizeT bytesWritten) with
    | .error e buffer => .done (.error e, { s with buffer })
    | .ok _ buffer =>
      let s := { s with
        buffer
        totalBytesWritten := szAdd s.totalBytesWritten (toSizeT bytesWritten) }
      if writeAll ∧ s.buffer.size ≠ 0 then .next s else .done (.ok s.totalBytesWritten, s)

/-- One turn of the loop in `write`. The `ssize_t` that `writev` returns goes through the `int` of
`SystemCall`. -/
def turn (kernel : Writev) (writeAll : Bool) (s : WriteState) :
    Turn WriteState (Except Exn ℕ × WriteState) :=
  let answer := kernel.answer s.calls s.buffer.asIovecs
  match systemCall "writev" (narrowInt answer.returnValue) answer.errno with
  | .error e => .done (.error e, s.afterCall answer)
  | .ok bytesWritten => (s.afterCall answer).consume writeAll bytesWritten

end WriteState

/-- `write(BufferViewList buffer, const bool write_all)`, with the number of turns it may take. -/
def FDWrapper.write (w : FDWrapper) (kernel : Writev) (buffer : BufferViewList) (writeAll : Bool)
    (fuel : ℕ) : Option (Except Exn ℕ × WriteState) :=
  loop (WriteState.turn kernel writeAll) fuel
    { buffer, totalBytesWritten := 0, wrapper := w, calls := 0, taken := [] }
