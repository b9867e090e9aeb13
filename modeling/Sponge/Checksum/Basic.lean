import Sponge.Lib.Loop
import Sponge.Util

/-!
# The Internet checksum

`InternetChecksum` adds the bytes it is given into a 32-bit accumulator, alternately as the high and
the low byte of a 16-bit word; which of the two comes next is carried over from one `add` to the
next. The accumulator wraps, and the carries it drops are not recorded. `value` folds the high half
of the accumulator onto the low half until nothing is left above, and complements the result.
-/

/-- The private fields of the class. -/
structure InternetChecksum where
  sum : UInt32
  /-- Whether the next byte is the low byte of a word. -/
  parity : Bool
  deriving DecidableEq, Repr

namespace InternetChecksum

/-- `InternetChecksum(initial_sum)`. -/
def ofSum (initialSum : UInt32) : InternetChecksum := ⟨initialSum, false⟩

/-- The body of the loop in `add`. -/
def addByte (c : InternetChecksum) (byte : UInt8) : InternetChecksum :=
  let val : UInt16 := byte.toUInt16
  let val := if !c.parity then val <<< 8 else val
  { sum := c.sum + val.toUInt32, parity := !c.parity }

def add (c : InternetChecksum) (data : Bytes) : InternetChecksum := data.foldl addByte c

/-- One turn of the loop in `value`, and the return after it. -/
def foldTurn (ret : UInt32) : Turn UInt32 UInt16 :=
  if ret > 0xffff then .next ((ret >>> 16) + (ret &&& 0xffff)) else .done (~~~ret).toUInt16

/-- `value()`, with the number of turns its loop may take. -/
def value (c : InternetChecksum) (fuel : ℕ) : Option UInt16 := loop foldTurn fuel c.sum

end InternetChecksum
