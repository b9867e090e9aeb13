import Mathlib.Algebra.Order.Ring.Int
import Mathlib.Data.Int.ModEq

/-!
# Circular windows

A list read as a ring: index `i` stands for the cell `i % buf.length`. `Ring.Holds buf start q` says
that the `q.length` cells from `start` on, read around the ring, are `q`. Cells outside the window
are unrestricted, so a window says nothing about stale contents, and the same `q` is held by many
different rings.

The two moves of a ring buffer are `Holds.concat` (write one cell behind the window) and
`Holds.drop` (advance the start past a part of it).
-/

namespace Ring

variable {α : Type*} {buf : List α} {start : ℕ} {q : List α}

/-- The window of length `q.length` at `start` is `q`. -/
def Holds (buf : List α) (start : ℕ) (q : List α) : Prop :=
  ∀ i < q.length, buf[(start + i) % buf.length]? = q[i]?

theorem holds_nil (buf : List α) (start : ℕ) : Holds buf start [] := by
  intro i hi
  exact absurd hi (by simp)

/-- Different offsets below the length are different cells. -/
theorem mod_ne_mod {n i j : ℕ} (start : ℕ) (hij : i < j) (hj : j < n) :
    (start + i) % n ≠ (start + j) % n := by
  intro h
  have hdvd : n ∣ (start + j) - (start + i) := (Nat.modEq_iff_dvd' (by omega)).1 h
  rw [show start + j - (start + i) = j - i by omega] at hdvd
  exact absurd (Nat.le_of_dvd (by omega) hdvd) (by omega)

/-- **Writing the cell behind the window appends to it.** The window must leave a cell free, or the
store would overwrite its head. -/
theorem Holds.concat (h : Holds buf start q) (hq : q.length < buf.length) (x : α) :
    Holds (buf.set ((start + q.length) % buf.length) x) start (q ++ [x]) := by
  intro i hi
  rw [List.length_append, List.length_singleton] at hi
  rw [List.length_set]
  rcases Nat.lt_or_ge i q.length with hlt | hge
  · rw [List.getElem?_set_ne (mod_ne_mod start hlt hq).symm, h i hlt, List.getElem?_append_left hlt]
  · obtain rfl : i = q.length := by omega
    rw [List.getElem?_set_self (Nat.mod_lt _ (by omega))]
    simp

/-- **Advancing the start drops from the window.** -/
theorem Holds.drop (h : Holds buf start q) (n : ℕ) :
    Holds buf ((start + n) % buf.length) (q.drop n) := by
  intro i hi
  rw [List.length_drop] at hi
  rw [Nat.mod_add_mod, Nat.add_assoc, h (n + i) (by omega), List.getElem?_drop]

end Ring
