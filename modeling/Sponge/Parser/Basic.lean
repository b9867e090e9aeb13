import Sponge.Buffer.Basic

/-!
# Parsing and unparsing network integers

`NetParser` reads integers from the front of a `Buffer`, and remembers that it ran out of data;
`NetUnparser` writes integers to the end of a string. Both are templates over the unsigned type,
instantiated at 8, 16 and 32 bits.

The parser accumulates **in the narrow type**: `ret <<= 8` and `ret += byte` are computed after the
integer promotions and converted back. So the 8- and 16-bit instances compute in `int`, where
leaving the range is undefined behaviour, and the 32-bit instance computes in `unsigned`, which
wraps.
-/

open Cpp

/-- `ParseResult`. -/
inductive ParseResult where
  | noError
  | badChecksum
  | packetTooShort
  | wrongIPVersion
  | headerTooShort
  | truncatedPacket
  | unsupported
  deriving DecidableEq, Repr

namespace ParseResult

/-- The value of the enumerator. -/
def toNat : ParseResult → ℕ
  | noError => 0
  | badChecksum => 1
  | packetTooShort => 2
  | wrongIPVersion => 3
  | headerTooShort => 4
  | truncatedPacket => 5
  | unsupported => 6

/-- The table of `as_string`. -/
def names : List String :=
  ["NoError", "BadChecksum", "PacketTooShort", "WrongIPVersion", "HeaderTooShort",
    "TruncatedPacket"]

/-- `as_string`: an unchecked subscript. -/
def asString (r : ParseResult) : Eval Exn String := load names r.toNat

end ParseResult

/-! ### The types of the integers -/

/-- The instances of the templates, named after the methods that use them. -/
inductive Width where
  | u8
  | u16
  | u32
  deriving DecidableEq, Repr

namespace Width

/-- `sizeof(T)`. -/
def len : Width → ℕ
  | u8 => 1
  | u16 => 2
  | u32 => 4

/-- The number of bits of `T`. -/
def bits (w : Width) : ℕ := 8 * w.len

/-- The value of an expression in the promoted type, from its exact value. -/
def promoted (exact : ℕ) : Width → Eval Exn ℕ
  | u8 | u16 => do
    let z ← checkInt exact
    pure z.toNat
  | u32 => pure (exact % 2 ^ 32)

/-- Conversion to `T`, where a compound assignment ends. -/
def convert (w : Width) (n : ℕ) : BitVec w.bits := BitVec.ofNat w.bits n

theorem two_pow_bits (w : Width) : 2 ^ w.bits = 256 ^ w.len := by
  rw [bits, Nat.pow_mul]

/-- A value of the type itself is not changed by promotion. -/
theorem promoted_eq {w : Width} {n : ℕ} (h : n < 2 ^ w.bits) : w.promoted n = pure n := by
  cases w with
  | u8 | u16 =>
    have hn : n < 2 ^ 16 := Nat.lt_of_lt_of_le h (by decide)
    rw [promoted, checkInt_eq ⟨by omega, by omega⟩]
    rfl
  | u32 =>
    have hn : n < 2 ^ 32 := h
    rw [promoted, Nat.mod_eq_of_lt hn]

@[simp] theorem toNat_convert {w : Width} {n : ℕ} (h : n < 2 ^ w.bits) :
    (w.convert n).toNat = n := by
  rw [convert, BitVec.toNat_ofNat, Nat.mod_eq_of_lt h]

end Width

/-! ### `NetParser` -/

/-- The private fields of `NetParser`. -/
structure NetParser where
  buffer : Buffer
  /-- `_error`, which `get_error()` returns. -/
  error : ParseResult

namespace NetParser

/-- `NetParser(Buffer buffer)`. -/
def ofBuffer (buffer : Buffer) : NetParser := ⟨buffer, .noError⟩

def setError (p : NetParser) (res : ParseResult) : NetParser := { p with error := res }

/-- `error()`: whether there has been an error. -/
def hasError (p : NetParser) : Bool := p.error != .noError

/-- Note an error if there is not enough data for the next token. -/
def checkSize (p : NetParser) (size : ℕ) : NetParser :=
  if size > p.buffer.size then p.setError .packetTooShort else p

/-- `_buffer.remove_prefix(n)`. -/
def discard (p : NetParser) (n : ℕ) : Eval Exn NetParser :=
  match p.buffer.removePrefix n with
  | .ok _ buffer => pure { p with buffer }
  | .error e _ => .error (.throws e)

/-- One turn of the loop in `_parse_int`: `ret <<= 8`, then `ret += uint8_t(_buffer.at(i))`. -/
def accumulate (p : NetParser) (w : Width) (i : ℕ) (ret : BitVec w.bits) :
    Eval Exn (BitVec w.bits) := do
  let ret := w.convert (← w.promoted (ret.toNat * 2 ^ 8))
  let byte ← ofExcept (p.buffer.charAt i)
  pure (w.convert (← w.promoted (ret.toNat + byte.toNat)))

/-- `_parse_int<T>()`. -/
def parseInt (p : NetParser) (w : Width) : Eval Exn (BitVec w.bits × NetParser) :=
  let p := p.checkSize w.len
  if p.hasError then pure (0, p)
  else do
    let ret ← forLoop w.len (p.accumulate w) 0
    let p ← p.discard w.len
    pure (ret, p)

def u32 (p : NetParser) : Eval Exn (BitVec 32 × NetParser) := p.parseInt .u32

def u16 (p : NetParser) : Eval Exn (BitVec 16 × NetParser) := p.parseInt .u16

def u8 (p : NetParser) : Eval Exn (BitVec 8 × NetParser) := p.parseInt .u8

/-- The method that reads a field of the given width. -/
def read (p : NetParser) : (w : Width) → Eval Exn (BitVec w.bits × NetParser)
  | .u8 => p.u8
  | .u16 => p.u16
  | .u32 => p.u32

theorem read_eq (p : NetParser) (w : Width) : p.read w = p.parseInt w := by
  cases w <;> rfl

/-- `remove_prefix(n)`. -/
def removePrefix (p : NetParser) (n : ℕ) : Eval Exn NetParser :=
  let p := p.checkSize n
  if p.hasError then pure p else p.discard n

end NetParser

/-! ### `NetUnparser` -/

namespace NetUnparser

/-- `the_byte` in the `i`-th turn of the loop. -/
def theByte (w : Width) (val : BitVec w.bits) (i : ℕ) : UInt8 :=
  UInt8.ofNat ((val.toNat >>> ((w.len - i - 1) * 8)) &&& 0xff)

/-- `_unparse_int<T>(s, val)`: push the bytes, one by one. -/
def unparseInt (w : Width) (s : Bytes) (val : BitVec w.bits) : Bytes :=
  (List.range w.len).foldl (fun s i ↦ s ++ [theByte w val i]) s

def u32 (s : Bytes) (val : BitVec 32) : Bytes := unparseInt .u32 s val

def u16 (s : Bytes) (val : BitVec 16) : Bytes := unparseInt .u16 s val

def u8 (s : Bytes) (val : BitVec 8) : Bytes := unparseInt .u8 s val

/-- The method that writes a field of the given width. -/
def write (s : Bytes) : (w : Width) → BitVec w.bits → Bytes
  | .u8, val => u8 s val
  | .u16, val => u16 s val
  | .u32, val => u32 s val

theorem write_eq (s : Bytes) (w : Width) (val : BitVec w.bits) :
    write s w val = unparseInt w s val := by
  cases w <;> rfl

end NetUnparser
