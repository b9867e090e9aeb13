import Mathlib.Algebra.Order.Ring.Int

/-!
# Unbounded loops

A loop is given by its body: one turn either goes on with a new state or leaves with a result.
Nothing in that says that the loop ends, so it is run with fuel, and `none` means that the fuel did
not suffice.

* `loop_rule` is partial correctness: an invariant of the turns holds of whatever the loop leaves
  with, at any fuel.
* `loop_total` is total correctness: with a measure that every further turn decreases, one unit of
  fuel more than the measure suffices.
* `loop_of_iterate` is for a loop whose state after each number of turns can be written down.
* `loop_mono` makes the fuel immaterial once there is enough of it.
-/

/-- One turn of a loop. -/
inductive Turn (σ ρ : Type*) where
  /-- Go on with a new state. -/
  | next (s : σ)
  /-- Leave with a result. -/
  | done (r : ρ)

variable {σ ρ : Type*}

/-- Run the turns of a loop, at most `fuel` of them. -/
def loop (body : σ → Turn σ ρ) : ℕ → σ → Option ρ
  | 0, _ => none
  | fuel + 1, s =>
    match body s with
    | .next s' => loop body fuel s'
    | .done r => some r

variable {body : σ → Turn σ ρ} {fuel : ℕ} {s s' : σ} {r : ρ}

theorem loop_succ_of_next (h : body s = .next s') : loop body (fuel + 1) s = loop body fuel s' := by
  rw [loop, h]

theorem loop_succ_of_done (h : body s = .done r) : loop body (fuel + 1) s = some r := by
  rw [loop, h]

/-- More fuel does not change a result. -/
theorem loop_mono {fuel' : ℕ} (hle : fuel ≤ fuel') (h : loop body fuel s = some r) :
    loop body fuel' s = some r := by
  induction fuel generalizing fuel' s with
  | zero => exact absurd h (by simp [loop])
  | succ fuel ih =>
    obtain ⟨fuel', rfl⟩ : ∃ k, fuel' = k + 1 := ⟨fuel' - 1, by omega⟩
    rcases hb : body s with t | r'
    · rw [loop_succ_of_next hb] at h ⊢
      exact ih (by omega) h
    · rwa [loop_succ_of_done hb] at h ⊢

/-- A loop whose states are known in advance. -/
theorem loop_of_iterate (f : ℕ → σ) {n : ℕ} (hnext : ∀ i < n, body (f i) = .next (f (i + 1)))
    (hdone : body (f n) = .done r) (hfuel : n < fuel) : loop body fuel (f 0) = some r := by
  have hrun : ∀ k ≤ n, ∀ m, loop body (m + k) (f 0) = loop body m (f k) := by
    intro k hk
    induction k with
    | zero => exact fun _ ↦ rfl
    | succ k ih =>
      intro m
      rw [← loop_succ_of_next (hnext k hk), ← ih (by omega)]
      congr 1
      omega
  obtain ⟨m, rfl⟩ : ∃ m, fuel = m + 1 + n := ⟨fuel - n - 1, by omega⟩
  rw [hrun n le_rfl, loop_succ_of_done hdone]

/-- **Partial correctness.** -/
theorem loop_rule (Inv : σ → Prop) (Q : ρ → Prop)
    (hnext : ∀ s s', Inv s → body s = .next s' → Inv s')
    (hdone : ∀ s r, Inv s → body s = .done r → Q r)
    (hs : Inv s) (h : loop body fuel s = some r) : Q r := by
  induction fuel generalizing s with
  | zero => exact absurd h (by simp [loop])
  | succ fuel ih =>
    rcases hb : body s with t | r'
    · rw [loop_succ_of_next hb] at h
      exact ih (hnext s t hs hb) h
    · rw [loop_succ_of_done hb] at h
      exact Option.some.inj h ▸ hdone s r' hs hb

/-- **Total correctness.** -/
theorem loop_total (Inv : σ → Prop) (Q : ρ → Prop) (μ : σ → ℕ)
    (hnext : ∀ s s', Inv s → body s = .next s' → Inv s' ∧ μ s' < μ s)
    (hdone : ∀ s r, Inv s → body s = .done r → Q r)
    (hs : Inv s) (hfuel : μ s < fuel) : ∃ r, loop body fuel s = some r ∧ Q r := by
  induction fuel generalizing s with
  | zero => exact absurd hfuel (by omega)
  | succ fuel ih =>
    rcases hb : body s with t | r'
    · obtain ⟨ht, hlt⟩ := hnext s t hs hb
      rw [loop_succ_of_next hb]
      exact ih ht (by omega)
    · exact ⟨r', loop_succ_of_done hb, hdone s r' hs hb⟩
