import Mathlib.Algebra.Order.Ring.Int

/-!
# C++ integer arithmetic that knows when it is undefined

The fragment of the language a class with `int` and `size_t` fields is written in, at the usual
64-bit data model: `int` is 32 bits wide and signed, `size_t` is 64 bits wide and unsigned.

An `int` is modelled as an `ℤ` and a `size_t` as an `ℕ`, and the difference between the two types is
in the operations:

* an `int` operation whose exact result leaves the range is **undefined behaviour**, never a
  wrapped value; so is `%` by zero. `%` truncates towards zero (`Int.tmod`);
* a `size_t` operation wraps modulo `2 ^ 64`;
* a conversion is reduction modulo the target's size: `toSizeT` sends `-1` to `2 ^ 64 - 1`, and
  `toInt` narrows modulo `2 ^ 32` into the signed range, as gcc and clang do;
* an unchecked subscript beyond the end of its string is undefined behaviour.

An evaluation therefore returns in `Eval`, which separates a value from the two ways of not having
one: leaving the language (`Stop.undefined`) and throwing (`Stop.throws`). The lemmas give each
operation's value under the range condition that makes it defined, in the form `op a b = pure v`, so
that a `do` block is evaluated by rewriting with them and `pure_bind`.
-/

namespace Cpp

/-- The kinds of undefined behaviour the operations below can run into. -/
inductive Undefined where
  /-- An `int` operation left the range of `int`. -/
  | intOverflow
  /-- The right operand of `%` was zero. -/
  | divByZero
  /-- An unchecked subscript was not below the length. -/
  | outOfBounds
  deriving DecidableEq, Repr

/-- How an evaluation can end without a value. -/
inductive Stop (ε : Type*) where
  /-- The program's behaviour is undefined from here on. -/
  | undefined (u : Undefined)
  /-- An exception was thrown. -/
  | throws (e : ε)
  deriving DecidableEq, Repr

/-- The result of evaluating an expression. -/
abbrev Eval (ε α : Type*) := Except (Stop ε) α

variable {ε : Type*}

/-- An evaluation that can only throw. -/
def ofExcept {α : Type*} : Except ε α → Eval ε α
  | .ok a => pure a
  | .error e => .error (.throws e)

/-! ### `int` -/

/-- The range of `int`. -/
def InInt (z : ℤ) : Prop := -2 ^ 31 ≤ z ∧ z < 2 ^ 31

instance (z : ℤ) : Decidable (InInt z) := inferInstanceAs (Decidable (_ ∧ _))

/-- The value of an `int` expression whose exact result is `z`. -/
def checkInt (z : ℤ) : Eval ε ℤ :=
  if InInt z then pure z else .error (.undefined .intOverflow)

def intAdd (a b : ℤ) : Eval ε ℤ := checkInt (a + b)

def intSub (a b : ℤ) : Eval ε ℤ := checkInt (a - b)

/-- Remainder of `int`s. The quotient must be representable too, which excludes exactly
`INT_MIN % -1`. -/
def intMod (a b : ℤ) : Eval ε ℤ :=
  if b = 0 then .error (.undefined .divByZero)
  else if InInt (a.tdiv b) then pure (a.tmod b) else .error (.undefined .intOverflow)

theorem checkInt_eq {z : ℤ} (h : InInt z) : checkInt (ε := ε) z = pure z := by
  rw [checkInt, if_pos h]

theorem intAdd_eq {a b : ℤ} (h : InInt (a + b)) : intAdd (ε := ε) a b = pure (a + b) :=
  checkInt_eq h

theorem intSub_eq {a b : ℤ} (h : InInt (a - b)) : intSub (ε := ε) a b = pure (a - b) :=
  checkInt_eq h

/-- **Truncation towards zero, positive case**: below the divisor the remainder is the dividend. -/
theorem intMod_eq_self {a b : ℤ} (ha : -b < a) (hab : a < b) : intMod (ε := ε) a b = pure a := by
  have hdiv : a.tdiv b = 0 := by
    rcases Int.le_total 0 a with h | h
    · exact Int.tdiv_eq_zero_of_lt h hab
    · have := Int.tdiv_eq_zero_of_lt (a := -a) (b := b) (by omega) (by omega)
      rwa [Int.neg_tdiv, Int.neg_eq_zero] at this
  have hmod : a.tmod b = a := by rw [Int.tmod_def, hdiv, Int.mul_zero, Int.sub_zero]
  rw [intMod, if_neg (by omega), hdiv, if_pos (by decide), hmod]

/-- On natural numbers the truncated remainder is the ordinary one. -/
theorem intMod_natCast {m n : ℕ} (hm : m < 2 ^ 31) (hn : 0 < n) :
    intMod (ε := ε) m n = pure ((m % n : ℕ) : ℤ) := by
  have hdiv : (m : ℤ).tdiv n = (m / n : ℕ) := Int.ofNat_tdiv m n
  have hmod : (m : ℤ).tmod n = (m % n : ℕ) := Int.ofNat_tmod m n
  have hrange : InInt (m / n : ℕ) := by
    have hle : m / n ≤ m := Nat.div_le_self m n
    rw [InInt]
    generalize m / n = k at hle ⊢
    omega
  rw [intMod, if_neg (by omega), hdiv, if_pos hrange, hmod]

/-! ### `size_t` and conversions -/

/-- Addition of `size_t`s. -/
def szAdd (a b : ℕ) : ℕ := (a + b) % 2 ^ 64

/-- Subtraction of `size_t`s. -/
def szSub (a b : ℕ) : ℕ := (a + (2 ^ 64 - b % 2 ^ 64)) % 2 ^ 64

/-- Remainder of `size_t`s. -/
def szMod (a b : ℕ) : Eval ε ℕ :=
  if b = 0 then .error (.undefined .divByZero) else pure (a % b)

/-- Conversion of an `int` to `size_t`. -/
def toSizeT (z : ℤ) : ℕ := (z % 2 ^ 64).toNat

/-- Narrowing of a wider value to `int`. -/
def narrowInt (z : ℤ) : ℤ := (z + 2 ^ 31) % 2 ^ 32 - 2 ^ 31

/-- Conversion of a `size_t` to `int`. -/
def toInt (n : ℕ) : ℤ := narrowInt n

/-- Conversion of a `size_t` to `ssize_t`. -/
def toSSizeT (n : ℕ) : ℤ := (n + 2 ^ 63) % 2 ^ 64 - 2 ^ 63

theorem szAdd_eq {a b : ℕ} (h : a + b < 2 ^ 64) : szAdd a b = a + b :=
  Nat.mod_eq_of_lt h

theorem szSub_eq {a b : ℕ} (hba : b ≤ a) (ha : a < 2 ^ 64) : szSub a b = a - b := by
  rw [szSub]
  omega

theorem szMod_eq {a b : ℕ} (hb : 0 < b) : szMod (ε := ε) a b = pure (a % b) := by
  rw [szMod, if_neg (by omega)]

theorem toSizeT_natCast {n : ℕ} (h : n < 2 ^ 64) : toSizeT n = n := by
  rw [toSizeT]
  omega

theorem narrowInt_eq {z : ℤ} (h : InInt z) : narrowInt z = z := by
  obtain ⟨hlo, hhi⟩ := h
  rw [narrowInt]
  omega

theorem toInt_eq {n : ℕ} (h : n < 2 ^ 31) : toInt n = n :=
  narrowInt_eq ⟨by omega, by omega⟩

/-- The conversion either keeps a size or makes it negative. -/
theorem toSSizeT_le {n : ℕ} (h : n < 2 ^ 64) : toSSizeT n ≤ n := by
  rw [toSSizeT]
  omega

/-- A sum accumulated in a `size_t` is the exact sum modulo `2 ^ 64`. -/
theorem foldl_szAdd {α : Type*} (f : α → ℕ) (xs : List α) {acc : ℕ} (h : acc < 2 ^ 64) :
    xs.foldl (fun ret x ↦ szAdd ret (f x)) acc = (acc + (xs.map f).sum) % 2 ^ 64 := by
  induction xs generalizing acc with
  | nil => exact (Nat.mod_eq_of_lt h).symm
  | cons x xs ih =>
    have hlt : szAdd acc (f x) < 2 ^ 64 := Nat.mod_lt _ (by decide)
    rw [List.foldl_cons, ih hlt, List.map_cons, List.sum_cons, szAdd, Nat.mod_add_mod,
      Nat.add_assoc]

/-! ### Unchecked subscripts -/

section Subscript

variable {α : Type*}

/-- `xs[i]` as an unchecked read. -/
def load (xs : List α) (i : ℕ) : Eval ε α :=
  match xs[i]? with
  | some x => pure x
  | none => .error (.undefined .outOfBounds)

/-- `xs[i] = x` as an unchecked store. -/
def store (xs : List α) (i : ℕ) (x : α) : Eval ε (List α) :=
  if i < xs.length then pure (xs.set i x) else .error (.undefined .outOfBounds)

theorem load_eq {xs : List α} {i : ℕ} {x : α} (h : xs[i]? = some x) :
    load (ε := ε) xs i = pure x := by
  rw [load, h]

theorem store_eq {xs : List α} {i : ℕ} (h : i < xs.length) (x : α) :
    store (ε := ε) xs i x = pure (xs.set i x) := by
  rw [store, if_pos h]

end Subscript

/-! ### Counted loops -/

section ForLoop

variable {σ : Type*}

/-- `for (size_t i = 0; i < n; i++) body(i)`, threading the state the body assigns to. -/
def forLoop (n : ℕ) (body : ℕ → σ → Eval ε σ) (s : σ) : Eval ε σ :=
  (List.range n).foldlM (fun s i ↦ body i s) s

theorem forLoop_succ (n : ℕ) (body : ℕ → σ → Eval ε σ) (s : σ) :
    forLoop (n + 1) body s = forLoop n body s >>= body n := by
  rw [forLoop, List.range_succ, List.foldlM_append]
  simp [forLoop]

/-- **The invariant rule.** If `Inv i` before the `i`-th iteration makes the body return a state
with `Inv (i + 1)`, the loop returns a state with `Inv n`. -/
theorem forLoop_rule {n : ℕ} {body : ℕ → σ → Eval ε σ} (Inv : ℕ → σ → Prop) {s : σ} (h₀ : Inv 0 s)
    (hstep : ∀ i t, i < n → Inv i t → ∃ t', body i t = pure t' ∧ Inv (i + 1) t') :
    ∃ t, forLoop n body s = pure t ∧ Inv n t := by
  induction n with
  | zero => exact ⟨s, rfl, h₀⟩
  | succ n ih =>
    obtain ⟨t, ht, hinv⟩ := ih fun i t hi ↦ hstep i t (by omega)
    obtain ⟨t', ht', hinv'⟩ := hstep n t (by omega) hinv
    exact ⟨t', by rw [forLoop_succ, ht, pure_bind, ht'], hinv'⟩

end ForLoop

/-- A loop over a range that pushes to the end of a list. -/
theorem foldl_pushBack {α β : Type*} (f : α → β) (xs : List α) (acc : List β) :
    xs.foldl (fun ys x ↦ ys ++ [f x]) acc = acc ++ xs.map f := by
  induction xs generalizing acc with
  | nil => exact (List.append_nil acc).symm
  | cons x xs ih =>
    rw [List.foldl_cons, ih, List.append_assoc, List.singleton_append, List.map_cons]

end Cpp
