import Mathlib.Algebra.Order.Ring.Int

/-!
# Strings, exceptions and the system-call wrapper

What all the modules share: strings and a few constants, the exceptions the library throws, with
the texts the source gives them, and `SystemCall`, the wrapper every system call goes through. The
wrapper's acceptance test is a disjunction: a non-negative return value is passed on, and so is a
negative one whose `errno` equals the mask. The mask defaults to `0`, so a call that fails **without
setting `errno`** is passed on as well; callers that test only for a particular value see `-1`
there.
-/

/-- Bytes of a `std::string`. -/
abbrev Bytes := List UInt8

/-- The bytes of a string literal of the source. -/
def ascii (s : String) : Bytes := s.toList.map fun c ↦ UInt8.ofNat c.toNat

/-- What a function that takes a C string is shown by `c_str()`, and a stream by `what()`: the bytes
before the first zero. -/
def cStr (s : Bytes) : Bytes := s.takeWhile (· != 0)

/-- `std::string::max_size()`. -/
def maxStringSize : ℕ := 2 ^ 63 - 1

/-- `AF_INET`. -/
def afInet : ℤ := 2

/-- The exceptions thrown by the library. -/
inductive Exn where
  /-- `std::out_of_range`. -/
  | outOfRange (what : String)
  /-- `std::runtime_error`. -/
  | runtimeError (what : String)
  /-- `std::length_error`, thrown by the constructor of `std::string`. -/
  | lengthError
  /-- `unix_error`: what was attempted, and the `errno` at that point. -/
  | unixError (attempt : String) (errno : ℤ)
  deriving DecidableEq, Repr

/-- `SystemCall`: the value of `errno` is an argument, since the source reads the global. -/
def systemCall (attempt : String) (returnValue errno : ℤ) (errnoMask : ℤ := 0) : Except Exn ℤ :=
  if returnValue ≥ 0 ∨ errno = errnoMask then pure returnValue
  else throw (.unixError attempt errno)

theorem systemCall_of_nonneg (attempt : String) {r : ℤ} (errno : ℤ) (h : 0 ≤ r) :
    systemCall attempt r errno = pure r := by
  rw [systemCall, if_pos (Or.inl h)]

theorem systemCall_of_neg (attempt : String) {r errno : ℤ} (h : r < 0) (he : errno ≠ 0) :
    systemCall attempt r errno = throw (.unixError attempt errno) := by
  rw [systemCall, if_neg (by rintro (h' | h'); exacts [absurd h' (by omega), he h'])]

/-- The return value and `errno` of a call that returns nothing but its status: `report` is the
`errno`, if it fails. -/
def statusAnswer : Option ℤ → ℤ × ℤ
  | none => (0, 0)
  | some errno => (-1, errno)
