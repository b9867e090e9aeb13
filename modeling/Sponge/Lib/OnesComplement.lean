import Mathlib.Algebra.Order.Ring.Int

/-!
# Ones'-complement sums

Addition with end-around carry on the numbers `0, …, m`: a carry out of the top is added in again at
the bottom. For words of `k` bits `m = 2 ^ k - 1`. This is arithmetic modulo `m` with **two zeros**,
`0` and `m`, and the two are never confused: a sum is `0` only if all its terms are.

`rep m n` is the representative of an exact sum `n`. Everything below says that some way of
computing a sum does not change the representative: adding with end-around carry (`rep_add`),
folding the high part onto the low part (`rep_fold`), and dropping multiples of `m` from a sum that
stays positive (`rep_add_mul`).
-/

namespace OnesComplement

variable {m : ℕ}

/-- Addition with end-around carry. -/
def add (m a b : ℕ) : ℕ := if a + b ≤ m then a + b else a + b - m

/-- The representative of an exact sum: `0` for `0`, and otherwise in `1, …, m`. -/
def rep (m n : ℕ) : ℕ := if n = 0 then 0 else (n - 1) % m + 1

@[simp] theorem rep_zero : rep m 0 = 0 := rfl

theorem rep_of_pos {n : ℕ} (h : 0 < n) : rep m n = (n - 1) % m + 1 := by
  rw [rep, if_neg (by omega)]

theorem rep_of_le {n : ℕ} (h : n ≤ m) : rep m n = n := by
  rcases Nat.eq_zero_or_pos n with rfl | hpos
  · rfl
  · rw [rep_of_pos hpos, Nat.mod_eq_of_lt (by omega)]
    omega

theorem rep_le (hm : 0 < m) (n : ℕ) : rep m n ≤ m := by
  rcases Nat.eq_zero_or_pos n with rfl | hpos
  · exact Nat.zero_le m
  · rw [rep_of_pos hpos]
    exact Nat.mod_lt _ hm

/-- **Multiples of `m` are dropped** from a sum that stays positive. -/
theorem rep_add_mul {n : ℕ} (h : 0 < n) (k : ℕ) : rep m (n + m * k) = rep m n := by
  have hsub : n + m * k - 1 = n - 1 + m * k := by omega
  rw [rep_of_pos h, rep_of_pos (Nat.add_pos_left h _), hsub, Nat.add_mul_mod_self_left]

/-- The representative is congruent to the sum. -/
theorem rep_mod (n : ℕ) : rep m n % m = n % m := by
  rcases Nat.eq_zero_or_pos n with rfl | hpos
  · rfl
  · rw [rep_of_pos hpos, Nat.mod_add_mod, Nat.sub_add_cancel hpos]

/-- **The upper zero** represents the positive multiples of `m`. -/
theorem rep_eq_self_iff (hm : 0 < m) {n : ℕ} : rep m n = m ↔ 0 < n ∧ n % m = 0 := by
  constructor
  · intro hrep
    refine ⟨Nat.pos_of_ne_zero ?_, ?_⟩
    · rintro rfl
      exact hm.ne hrep
    · rw [← rep_mod, hrep, Nat.mod_self]
  · rintro ⟨hpos, hmod⟩
    have hdvd : m ∣ rep m n := Nat.dvd_of_mod_eq_zero ((rep_mod n).trans hmod)
    have hone : 0 < rep m n := by rw [rep_of_pos hpos]; exact Nat.succ_pos _
    exact Nat.le_antisymm (rep_le hm n) (Nat.le_of_dvd hone hdvd)

/-- **The complement cancels**: a sum and the complement of its representative add up to the upper
zero. -/
theorem rep_add_complement (hm : 0 < m) (n : ℕ) : rep m (n + (m - rep m n)) = m := by
  have hle := rep_le hm n
  rw [rep_eq_self_iff hm]
  constructor
  · rcases Nat.eq_zero_or_pos n with rfl | hpos
    · rw [rep_zero]
      omega
    · exact Nat.add_pos_left hpos _
  · rw [← Nat.mod_add_mod, ← rep_mod n, Nat.mod_add_mod, Nat.add_sub_cancel' hle, Nat.mod_self]

/-- **Folding** the part of a summand above `m` onto the part below keeps the representative. -/
theorem rep_fold (n k : ℕ) : rep m (n / (m + 1) + n % (m + 1) + k) = rep m (n + k) := by
  have hn : n + k = n / (m + 1) + n % (m + 1) + k + m * (n / (m + 1)) := by
    have hdiv := Nat.div_add_mod n (m + 1)
    have hmul := Nat.succ_mul m (n / (m + 1))
    rw [Nat.succ_eq_add_one] at hmul
    omega
  rcases Nat.eq_zero_or_pos (n / (m + 1) + n % (m + 1) + k) with hzero | hpos
  · have hquot : n / (m + 1) = 0 :=
      (Nat.add_eq_zero_iff.1 (Nat.add_eq_zero_iff.1 hzero).1).1
    rw [hzero, hquot, Nat.mul_zero, Nat.add_zero] at hn
    rw [hzero, hn]
  · rw [hn, rep_add_mul hpos]

/-- **End-around carry** adds representatives. -/
theorem rep_add (hm : 0 < m) {b : ℕ} (n : ℕ) (hb : b ≤ m) : rep m (n + b) = add m (rep m n) b := by
  rcases Nat.eq_zero_or_pos n with rfl | hpos
  · rw [Nat.zero_add, rep_zero, add, Nat.zero_add, if_pos hb, rep_of_le hb]
  have hrep : n = rep m n + m * ((n - 1) / m) := by
    have hdiv := Nat.div_add_mod (n - 1) m
    rw [rep_of_pos hpos]
    omega
  have hle := rep_le hm n
  have hone : 0 < rep m n := by rw [rep_of_pos hpos]; exact Nat.succ_pos _
  have hsum : n + b = (rep m n + b) + m * ((n - 1) / m) := by omega
  rw [hsum, rep_add_mul (by omega), add]
  split
  · rename_i hcarry
    exact rep_of_le hcarry
  · rename_i hcarry
    have hover : rep m n + b = (rep m n + b - m) + m * 1 := by omega
    rw [hover, rep_add_mul (by omega), rep_of_le (by omega)]
    omega

/-- The end-around-carry sum of a list of words is the representative of their exact sum. -/
theorem foldl_add (hm : 0 < m) {ws : List ℕ} (hws : ∀ x ∈ ws, x ≤ m) (n : ℕ) :
    ws.foldl (add m) (rep m n) = rep m (n + ws.sum) := by
  induction ws generalizing n with
  | nil => rfl
  | cons x ws ih =>
    rw [List.foldl_cons, ← rep_add hm n (hws x List.mem_cons_self),
      ih (fun y hy ↦ hws y (List.mem_cons_of_mem x hy)), List.sum_cons, Nat.add_assoc]

end OnesComplement
