import Mathlib.Algebra.Order.Ring.Int
import Mathlib.Data.List.Induction

/-!
# Big-endian numbers

A number of `len` bytes, most significant byte first. `toBytes` cuts a number into its digits to
base `256` and `ofBytes` accumulates them again; they are inverse to each other on numbers of the
given length, and `ofBytes` after `toBytes` reduces modulo `256 ^ len` in general.
-/

namespace BigEndian

/-- The `len` low digits of `n`, the most significant first: the `i`-th is the digit of
`256 ^ (len - 1 - i)`. -/
def toBytes (len n : ℕ) : List UInt8 :=
  (List.range len).map fun i ↦ UInt8.ofNat (n / 256 ^ (len - 1 - i))

/-- The number with the digits `bs`. -/
def ofBytes (bs : List UInt8) : ℕ := bs.foldl (fun n b ↦ n * 256 + b.toNat) 0

@[simp] theorem length_toBytes (len n : ℕ) : (toBytes len n).length = len := by
  simp [toBytes]

@[simp] theorem toBytes_zero (n : ℕ) : toBytes 0 n = [] := rfl

/-- The last digit is the number itself, modulo `256`; the others are those of the quotient. -/
theorem toBytes_succ (len n : ℕ) :
    toBytes (len + 1) n = toBytes len (n / 256) ++ [UInt8.ofNat n] := by
  rw [toBytes, toBytes, List.range_succ, List.map_append]
  congr 1
  · refine List.map_congr_left fun i hi ↦ ?_
    have hlt : i < len := List.mem_range.1 hi
    have hexp : len + 1 - 1 - i = (len - 1 - i) + 1 := by omega
    rw [hexp, Nat.pow_succ', Nat.div_div_eq_div_mul]
  · simp

@[simp] theorem ofBytes_nil : ofBytes [] = 0 := rfl

theorem ofBytes_concat (bs : List UInt8) (b : UInt8) :
    ofBytes (bs ++ [b]) = ofBytes bs * 256 + b.toNat := by
  rw [ofBytes, List.foldl_append]
  rfl

theorem ofBytes_lt (bs : List UInt8) : ofBytes bs < 256 ^ bs.length := by
  induction bs using List.reverseRecOn with
  | nil => exact Nat.one_pos
  | append_singleton bs b ih =>
    have hb := b.toNat_lt
    rw [ofBytes_concat, List.length_append, List.length_singleton, Nat.pow_succ]
    omega

/-- **Cutting and accumulating** keeps the low digits. -/
theorem ofBytes_toBytes (len n : ℕ) : ofBytes (toBytes len n) = n % 256 ^ len := by
  induction len generalizing n with
  | zero => rw [toBytes_zero, ofBytes_nil, Nat.pow_zero, Nat.mod_one]
  | succ len ih =>
    have hbyte : (UInt8.ofNat n).toNat = n % 256 := UInt8.toNat_ofNat'
    rw [toBytes_succ, ofBytes_concat, ih, hbyte, Nat.pow_succ', Nat.mod_mul]
    omega

/-- **Accumulating and cutting** gives the bytes back. -/
theorem toBytes_ofBytes (bs : List UInt8) : toBytes bs.length (ofBytes bs) = bs := by
  induction bs using List.reverseRecOn with
  | nil => rfl
  | append_singleton bs b ih =>
    have hb := b.toNat_lt
    have hdiv : (ofBytes bs * 256 + b.toNat) / 256 = ofBytes bs := by omega
    have hbyte : UInt8.ofNat (ofBytes bs * 256 + b.toNat) = b := by
      apply UInt8.toNat_inj.1
      rw [UInt8.toNat_ofNat']
      omega
    rw [ofBytes_concat, List.length_append, List.length_singleton, toBytes_succ, hdiv, hbyte, ih]

end BigEndian
