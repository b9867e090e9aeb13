import Mathlib.Algebra.Order.Ring.Int

/-!
# Numerals

Numbers written in bytes, most significant digit first and with the letters `a` to `f` for the
digits from ten on, in a base of at most sixteen. `text` writes a number without leading zeros and
`parse` reads a numeral, with or without them; `parse_zeros_text` is the round trip. The digits
themselves are `Nat.toDigits`.
-/

namespace Digits

/-- One digit. -/
def char (d : ℕ) : UInt8 := UInt8.ofNat d.digitChar.toNat

/-- The numeral of `n` in base `b`. -/
def text (b n : ℕ) : List UInt8 := (Nat.toDigits b n).map fun c ↦ UInt8.ofNat c.toNat

/-- The digit that a byte stands for. -/
def value (c : UInt8) : Option ℕ :=
  if 48 ≤ c ∧ c ≤ 57 then some (c.toNat - 48)
  else if 97 ≤ c ∧ c ≤ 102 then some (c.toNat - 87)
  else none

/-- The number that a numeral stands for. -/
def parse (b : ℕ) (s : List UInt8) : Option ℕ :=
  s.foldlM (fun n c ↦ (value c).map (b * n + ·)) 0

variable {b : ℕ}

theorem value_char {d : ℕ} (h : d < 16) : value (char d) = some d := by
  have hall : ∀ d < 16, value (char d) = some d := by decide
  exact hall d h

theorem text_of_lt {n : ℕ} (h : n < b) : text b n = [char n] := by
  rw [text, Nat.toDigits_of_lt_base h, List.map_singleton, char]

theorem text_of_le (hb : 1 < b) {n : ℕ} (h : b ≤ n) :
    text b n = text b (n / b) ++ [char (n % b)] := by
  rw [text, Nat.toDigits_of_base_le hb h, List.map_append, List.map_singleton, text, char]

/-- What the digits of a numeral are. -/
theorem exists_of_mem_text (hb : 1 < b) {n : ℕ} {c : UInt8} (hc : c ∈ text b n) :
    ∃ d < b, c = char d := by
  induction n using Nat.strong_induction_on with
  | _ n ih =>
    rcases Nat.lt_or_ge n b with h | h
    · rw [text_of_lt h] at hc
      exact ⟨n, h, List.mem_singleton.1 hc⟩
    · rw [text_of_le hb h] at hc
      rcases List.mem_append.1 hc with hc | hc
      · exact ih (n / b) (Nat.div_lt_self (by omega) hb) hc
      · exact ⟨n % b, Nat.mod_lt n (by omega), List.mem_singleton.1 hc⟩

theorem text_ne_nil (n : ℕ) : text b n ≠ [] := by
  simp [text]

theorem length_text_le (hb : 1 < b) {n k : ℕ} (hk : 0 < k) (h : n < b ^ k) :
    (text b n).length ≤ k := by
  rw [text, List.length_map]
  exact (Nat.length_toDigits_le_iff hb hk).2 h

theorem parse_concat (s : List UInt8) (c : UInt8) :
    parse b (s ++ [c]) = (parse b s).bind fun n ↦ (value c).map (b * n + ·) := by
  rw [parse, List.foldlM_append]
  simp only [List.foldlM_cons, List.foldlM_nil, bind_pure]
  rfl

/-- Leading zeros do not count. -/
theorem parse_zeros (k : ℕ) (s : List UInt8) : parse b (List.replicate k 48 ++ s) = parse b s := by
  induction k with
  | zero => rfl
  | succ k ih =>
    rw [List.replicate_succ, List.cons_append, ← ih, parse, List.foldlM_cons]
    rfl

theorem parse_text (hb : 1 < b) (hle : b ≤ 16) (n : ℕ) : parse b (text b n) = some n := by
  induction n using Nat.strong_induction_on with
  | _ n ih =>
    rcases Nat.lt_or_ge n b with h | h
    · rw [text_of_lt h, ← List.nil_append [char n], parse_concat, value_char (by omega)]
      simp [parse]
    · have hmod : n % b < b := Nat.mod_lt n (by omega)
      rw [text_of_le hb h, parse_concat, ih (n / b) (Nat.div_lt_self (by omega) hb),
        value_char (by omega)]
      exact congrArg some (Nat.div_add_mod n b)

/-- **A numeral stands for the number it was written from**, also behind leading zeros. -/
theorem parse_zeros_text (hb : 1 < b) (hle : b ≤ 16) (k n : ℕ) :
    parse b (List.replicate k 48 ++ text b n) = some n := by
  rw [parse_zeros, parse_text hb hle]

end Digits
