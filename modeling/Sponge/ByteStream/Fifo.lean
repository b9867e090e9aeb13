import Sponge.ByteStream.Basic

/-!
# What a byte stream is for: a bounded FIFO of bytes

The specification of `ByteStream`, in its own terms: a queue that never holds more than `c` bytes,
two running totals and two flags. There is no ring and no index here, and the totals are exact
natural numbers; the only trace of the machine is that the accessors report them modulo `2 ^ 64`.

Both laws of the state are **fields**: the queue fits (`length_le`) and everything accepted has
either been popped or is still held (`balance`). A specification state that overfills its queue or
loses count of a byte cannot be written down.

`write` does not look at `ended`. It says what the class does with its bytes; that the class also
lets a writer continue after the end of the input is a separate matter.
-/

open ByteStream

/-- A bounded queue of bytes, with totals and flags. -/
@[ext]
structure Fifo (c : ℕ) where
  /-- The bytes held, oldest first. -/
  queue : Bytes
  /-- The queue fits its capacity. -/
  length_le : queue.length ≤ c
  /-- How many bytes have been accepted in all. -/
  written : ℕ
  /-- How many bytes have been popped in all. -/
  popped : ℕ
  /-- Every accepted byte has been popped or is held. -/
  balance : written = popped + queue.length
  ended : Bool
  error : Bool

namespace Fifo

variable {c : ℕ}

/-- The initial state. -/
def empty (c : ℕ) : Fifo c where
  queue := []
  length_le := Nat.zero_le c
  written := 0
  popped := 0
  balance := rfl
  ended := false
  error := false

/-- How many bytes of `data` fit: `min |data| (c - |q|)`. -/
def accepts (f : Fifo c) (data : Bytes) : ℕ := min data.length (c - f.queue.length)

theorem length_append_take (f : Fifo c) (data : Bytes) :
    (f.queue ++ data.take (f.accepts data)).length = f.queue.length + f.accepts data := by
  rw [List.length_append, List.length_take, accepts]
  omega

/-- Append the bytes of `data` that fit, and return their number. -/
def write (f : Fifo c) (data : Bytes) : ℕ × Fifo c :=
  (f.accepts data,
    { f with
      queue := f.queue ++ data.take (f.accepts data)
      written := f.written + f.accepts data
      length_le := by
        have := f.length_le
        rw [length_append_take, accepts]
        omega
      balance := by
        have := f.balance
        rw [length_append_take]
        omega })

theorem write_of_accepts_eq_zero (f : Fifo c) {data : Bytes} (h : f.accepts data = 0) :
    f.write data = (0, f) := by
  refine Prod.ext h (Fifo.ext ?_ ?_ rfl rfl rfl)
  · show f.queue ++ data.take (f.accepts data) = f.queue
    rw [h, List.take_zero, List.append_nil]
  · show f.written + f.accepts data = f.written
    rw [h, Nat.add_zero]

/-- The first `min len |q|` bytes held. -/
def peek (f : Fifo c) (len : ℕ) : Bytes := f.queue.take (min len f.queue.length)

/-- Drop the first `min len |q|` bytes held. -/
def pop (f : Fifo c) (len : ℕ) : Fifo c :=
  { f with
    queue := f.queue.drop (min len f.queue.length)
    popped := f.popped + min len f.queue.length
    length_le := by
      have := f.length_le
      rw [List.length_drop]
      omega
    balance := by
      have := f.balance
      rw [List.length_drop]
      omega }

def endInput (f : Fifo c) : Fifo c := { f with ended := true }

def setError (f : Fifo c) : Fifo c := { f with error := true }

/-- What the accessors are to answer. -/
def accessors (f : Fifo c) : Accessors where
  bufferSize := f.queue.length
  bufferEmpty := f.queue = []
  remainingCapacity := c - f.queue.length
  bytesWritten := f.written % 2 ^ 64
  bytesRead := f.popped % 2 ^ 64
  eof := f.ended && f.queue = []
  inputEnded := f.ended
  error := f.error

/-- What a call is to return, and the state after it. -/
def call (f : Fifo c) : Op → Ret × Fifo c
  | .write data => (.count (f.write data).1, (f.write data).2)
  | .popOutput len => (.void, f.pop len)
  | .read len => (.bytes (f.peek len), f.pop len)
  | .peekOutput len => (.bytes (f.peek len), f)
  | .endInput => (.void, f.endInput)
  | .setError => (.void, f.setError)

/-- One call as a machine step. -/
def step (f : Fifo c) (op : Op) : Obs × Fifo c :=
  (⟨(f.call op).1, (f.call op).2.accessors⟩, (f.call op).2)

/-- A run of calls from the empty queue. -/
def run (c : ℕ) (ops : List Op) : List Obs × Fifo c :=
  Machine.trace step (empty c) ops

end Fifo
