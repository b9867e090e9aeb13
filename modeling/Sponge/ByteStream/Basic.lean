import Sponge.Lib.Arith
import Sponge.Lib.Machine
import Sponge.Util

/-!
# The byte stream

`ByteStream` is a circular buffer of fixed capacity with two `int` indices: `sind` is the cell of
the first byte held and `eind` the cell of the last. Emptiness is a **sentinel**, `sind = -1`;
`eind` is left as it was when the buffer drains, and both are reset by the next write. The number of
bytes held is not stored: `bufferSize` recovers it from the two indices, with an extra `+ maxlen`
because C++'s `%` keeps the sign of its left operand.

Every expression of the source is evaluated in `Cpp.Eval`, in the order and at the types the source
gives it: an `int` operation that overflows, a remainder by zero or a subscript past the end stops
the evaluation, and `size_t` operations wrap. That none of these happens is a theorem, not part of
the model.

`step` is one call made by a client. Its observation is what the call returns together with what all
the accessors answer afterwards, so two runs with equal observations are equal to every client.
-/

open Cpp

/-- The private fields of the class. -/
structure ByteStream where
  /-- The capacity, as an `int`. -/
  maxlen : ℤ
  /-- The circular buffer. -/
  buffer : Bytes
  /-- Index of the first byte in the buffer, `-1` when there is none. -/
  sind : ℤ
  /-- Index of the last byte in the buffer. -/
  eind : ℤ
  cntRead : ℕ
  cntWrite : ℕ
  /-- `_error`: the stream suffered an error. -/
  error : Bool
  /-- `_input_active`: the input has not been ended. -/
  inputActive : Bool
  deriving DecidableEq, Repr

namespace ByteStream

/-- `std::string(n, ' ')`. -/
def spaces (n : ℕ) : Eval Exn Bytes :=
  if n ≤ maxStringSize then pure (List.replicate n 32) else .error (.throws .lengthError)

/-- `ByteStream(const size_t capacity)`. The capacity is narrowed to `int` for `maxlen`, and
`maxlen` is widened back to `size_t` for the length of the buffer. -/
def construct (capacity : ℕ) : Eval Exn ByteStream := do
  let maxlen := toInt capacity
  let buffer ← spaces (toSizeT maxlen)
  pure { maxlen, buffer, sind := -1, eind := -1, cntRead := 0, cntWrite := 0, error := false,
         inputActive := true }

/-! ### Accessors -/

def bufferEmpty (s : ByteStream) : Bool := s.sind = -1

/-- `(maxlen + (eind - sind) % maxlen) % maxlen + 1` when there is something in the buffer. -/
def bufferSize (s : ByteStream) : Eval Exn ℕ :=
  if s.bufferEmpty then pure 0
  else do
    let diff ← intSub s.eind s.sind
    let rem ← intMod diff s.maxlen
    let shifted ← intAdd s.maxlen rem
    let last ← intMod shifted s.maxlen
    let size ← intAdd last 1
    pure (toSizeT size)

def remainingCapacity (s : ByteStream) : Eval Exn ℕ := do
  let size ← s.bufferSize
  pure (szSub (toSizeT s.maxlen) size)

def inputEnded (s : ByteStream) : Bool := !s.inputActive

def eof (s : ByteStream) : Bool := !s.inputActive && s.bufferEmpty

def bytesWritten (s : ByteStream) : ℕ := s.cntWrite

def bytesRead (s : ByteStream) : ℕ := s.cntRead

/-! ### Operations -/

/-- One iteration of the loop in `write`. -/
def writeBody (data : Bytes) (i : ℕ) (s : ByteStream) : Eval Exn ByteStream := do
  let next ← intAdd s.eind 1
  let eind ← intMod next s.maxlen
  let byte ← load data i
  let buffer ← store s.buffer (toSizeT eind) byte
  pure { s with eind, buffer }

/-- The state in which the loop of `write` starts: a drained stream is reset to the front of the
ring, any other is left alone. -/
def prepared (s : ByteStream) : ByteStream :=
  if s.bufferEmpty then { s with sind := 0, eind := -1 } else s

/-- Accept as many bytes of `data` as fit, and return their number. -/
def write (s : ByteStream) (data : Bytes) : Eval Exn (ℕ × ByteStream) := do
  let room ← s.remainingCapacity
  let writenum := min data.length room
  if writenum = 0 then pure (0, s)
  else
    let s' ← forLoop writenum (writeBody data) s.prepared
    pure (writenum, { s' with cntWrite := szAdd s'.cntWrite writenum })

/-- One iteration of the loop in `peekOutput`. The sum is a `size_t`, so a negative `sind` would be
a huge index. -/
def peekBody (s : ByteStream) (i : ℕ) (out : Bytes) : Eval Exn Bytes := do
  let index ← szMod (szAdd (toSizeT s.sind) i) (toSizeT s.maxlen)
  let byte ← load s.buffer index
  store out i byte

/-- Copy the next `len` bytes, or all there are. -/
def peekOutput (s : ByteStream) (len : ℕ) : Eval Exn Bytes := do
  let size ← s.bufferSize
  let readnum := min size len
  let out ← spaces readnum
  forLoop readnum s.peekBody out

/-- Remove the next `len` bytes, or all there are. -/
def popOutput (s : ByteStream) (len : ℕ) : Eval Exn ByteStream := do
  let size ← s.bufferSize
  if len ≥ size then pure { s with cntRead := szAdd s.cntRead size, sind := -1 }
  else
    let index ← szMod (szAdd (toSizeT s.sind) len) (toSizeT s.maxlen)
    pure { s with cntRead := szAdd s.cntRead len, sind := toInt index }

/-- Copy and then pop. -/
def read (s : ByteStream) (len : ℕ) : Eval Exn (Bytes × ByteStream) := do
  let out ← s.peekOutput len
  let s' ← s.popOutput len
  pure (out, s')

def endInput (s : ByteStream) : ByteStream := { s with inputActive := false }

def setError (s : ByteStream) : ByteStream := { s with error := true }

/-! ### What a client sees -/

/-- The calls that a client can make on a stream. -/
inductive Op where
  | write (data : Bytes)
  | popOutput (len : ℕ)
  | read (len : ℕ)
  | peekOutput (len : ℕ)
  | endInput
  | setError
  deriving DecidableEq, Repr

/-- What a call returns. -/
inductive Ret where
  | count (n : ℕ)
  | bytes (b : Bytes)
  | void
  deriving DecidableEq, Repr

/-- The answers of all accessors in one state. -/
structure Accessors where
  bufferSize : ℕ
  bufferEmpty : Bool
  remainingCapacity : ℕ
  bytesWritten : ℕ
  bytesRead : ℕ
  eof : Bool
  inputEnded : Bool
  error : Bool
  deriving DecidableEq, Repr

def accessors (s : ByteStream) : Eval Exn Accessors := do
  let bufferSize ← s.bufferSize
  let remainingCapacity ← s.remainingCapacity
  pure { bufferSize, bufferEmpty := s.bufferEmpty, remainingCapacity,
         bytesWritten := s.bytesWritten, bytesRead := s.bytesRead, eof := s.eof,
         inputEnded := s.inputEnded, error := s.error }

/-- The call itself: what it returns and what becomes of the stream. -/
def call (s : ByteStream) : Op → Eval Exn (Ret × ByteStream)
  | .write data => do
    let (n, s') ← s.write data
    pure (.count n, s')
  | .popOutput len => do
    let s' ← s.popOutput len
    pure (.void, s')
  | .read len => do
    let (out, s') ← s.read len
    pure (.bytes out, s')
  | .peekOutput len => do
    let out ← s.peekOutput len
    pure (.bytes out, s)
  | .endInput => pure (.void, s.endInput)
  | .setError => pure (.void, s.setError)

/-- What a client observes of one call: its return value, then all accessors. -/
structure Obs where
  ret : Ret
  after : Accessors
  deriving DecidableEq, Repr

/-- One call as a machine step. -/
def step (s : ByteStream) (op : Op) : Eval Exn (Obs × ByteStream) := do
  let (ret, s') ← s.call op
  let after ← s'.accessors
  pure (⟨ret, after⟩, s')

/-- A run of calls on a freshly constructed stream. -/
def run (capacity : ℕ) (ops : List Op) : Eval Exn (List Obs × ByteStream) := do
  let s ← construct capacity
  Machine.runFrom step s ops

end ByteStream
