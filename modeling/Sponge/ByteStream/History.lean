import Sponge.ByteStream.Refinement

/-!
# The ring layout is unobservable

Two runs of the same capacity generally end with different rings: different `sind` and `eind`,
different stale bytes, one reset to the front by a complete drain and the other not. A client cannot
tell, provided the two runs have the same **history**: the same bytes accepted, the same number
popped, and the same flags raised.

The history is read off a run from outside. `acceptedBytes` takes from each write the bytes its
return value admits, `poppedBytes` counts by how much the buffer shrank at the pops and reads. That
a specification state is a function of them is `Fifo.trace_history`; the rest is the simulation,
used twice.
-/

open Cpp

namespace ByteStream

/-! ### The history of a run -/

/-- The bytes a call added to the stream, by its return value. -/
def Op.accepted : Op → Obs → Bytes
  | .write data, ⟨.count n, _⟩ => data.take n
  | _, _ => []

/-- How many bytes a call removed from a stream that held `size`, by the size afterwards. -/
def Op.popped (size : ℕ) : Op → Obs → ℕ
  | .popOutput _, o => size - o.after.bufferSize
  | .read _, o => size - o.after.bufferSize
  | _, _ => 0

/-- All bytes accepted in a run, in order. -/
def acceptedBytes : List (Op × Obs) → Bytes
  | [] => []
  | (op, o) :: rest => op.accepted o ++ acceptedBytes rest

/-- The number of bytes popped in a run from a stream that holds `size`. -/
def poppedBytes (size : ℕ) : List (Op × Obs) → ℕ
  | [] => 0
  | (op, o) :: rest => op.popped size o + poppedBytes o.after.bufferSize rest

end ByteStream

open ByteStream

namespace Fifo

variable {c : ℕ}

@[simp] theorem step_bufferSize (f : Fifo c) (op : Op) :
    (f.step op).1.after.bufferSize = (f.step op).2.queue.length := rfl

/-- Both `pop_output` and `read` remove the bytes by which the queue gets shorter. -/
theorem pop_history (f : Fifo c) (len : ℕ) :
    f.queue.length - (f.pop len).queue.length ≤ f.queue.length ∧
    (f.pop len).queue = (f.queue ++ []).drop (f.queue.length - (f.pop len).queue.length) ∧
    (f.pop len).popped = f.popped + (f.queue.length - (f.pop len).queue.length) := by
  have hpop : f.queue.length - (f.pop len).queue.length = min len f.queue.length := by
    show f.queue.length - (f.queue.drop (min len f.queue.length)).length = _
    rw [List.length_drop]
    omega
  rw [hpop, List.append_nil]
  exact ⟨Nat.min_le_right _ _, rfl, rfl⟩

/-- What one call does to the queue and the totals, in terms of what can be seen of it. -/
theorem step_history (f : Fifo c) (op : Op) :
    op.popped f.queue.length (f.step op).1 ≤ f.queue.length ∧
    (f.step op).2.queue =
      (f.queue ++ op.accepted (f.step op).1).drop (op.popped f.queue.length (f.step op).1) ∧
    (f.step op).2.popped = f.popped + op.popped f.queue.length (f.step op).1 := by
  cases op with
  | write data => exact ⟨Nat.zero_le _, rfl, rfl⟩
  | popOutput len => exact f.pop_history len
  | read len => exact f.pop_history len
  | peekOutput len => exact ⟨Nat.zero_le _, (List.append_nil _).symm, rfl⟩
  | endInput => exact ⟨Nat.zero_le _, (List.append_nil _).symm, rfl⟩
  | setError => exact ⟨Nat.zero_le _, (List.append_nil _).symm, rfl⟩

/-- **The state is a function of the history**: the queue is what was held and accepted, less what
was popped. -/
theorem trace_history (f : Fifo c) (ops : List Op) :
    let t := Machine.trace step f ops
    let h := ops.zip t.1
    t.2.queue = (f.queue ++ acceptedBytes h).drop (poppedBytes f.queue.length h) ∧
      t.2.popped = f.popped + poppedBytes f.queue.length h := by
  induction ops generalizing f with
  | nil => exact ⟨(List.append_nil _).symm, rfl⟩
  | cons op ops ih =>
    obtain ⟨hle, hqueue, hpopped⟩ := f.step_history op
    obtain ⟨ihqueue, ihpopped⟩ := ih (f.step op).2
    have hlen : op.popped f.queue.length (f.step op).1 ≤
        (f.queue ++ op.accepted (f.step op).1).length := by
      rw [List.length_append]
      omega
    simp only [Machine.trace_cons, List.zip_cons_cons, acceptedBytes, poppedBytes,
      step_bufferSize] at ihqueue ihpopped ⊢
    rw [ihqueue, ihpopped, hpopped, Nat.add_assoc]
    generalize poppedBytes (f.step op).2.queue.length _ = rest
    rw [hqueue, ← List.append_assoc, ← List.drop_drop, List.drop_append_of_le_length hlen]
    exact ⟨rfl, rfl⟩

theorem trace_ended (f : Fifo c) (ops : List Op) :
    (Machine.trace step f ops).2.ended = (f.ended || decide (Op.endInput ∈ ops)) := by
  induction ops generalizing f with
  | nil => simp
  | cons op ops ih =>
    rw [Machine.trace_cons, ih]
    cases op <;> simp [step, call, write, pop, endInput, setError]

theorem trace_error (f : Fifo c) (ops : List Op) :
    (Machine.trace step f ops).2.error = (f.error || decide (Op.setError ∈ ops)) := by
  induction ops generalizing f with
  | nil => simp
  | cons op ops ih =>
    rw [Machine.trace_cons, ih]
    cases op <;> simp [step, call, write, pop, endInput, setError]

/-- **Same history, same state.** -/
theorem run_eq_of_history {ops₁ ops₂ : List Op}
    (hacc : acceptedBytes (ops₁.zip (run c ops₁).1) = acceptedBytes (ops₂.zip (run c ops₂).1))
    (hpop : poppedBytes 0 (ops₁.zip (run c ops₁).1) = poppedBytes 0 (ops₂.zip (run c ops₂).1))
    (hend : Op.endInput ∈ ops₁ ↔ Op.endInput ∈ ops₂)
    (herr : Op.setError ∈ ops₁ ↔ Op.setError ∈ ops₂) : (run c ops₁).2 = (run c ops₂).2 := by
  obtain ⟨hq₁, hp₁⟩ := (empty c).trace_history ops₁
  obtain ⟨hq₂, hp₂⟩ := (empty c).trace_history ops₂
  have hqueue : (run c ops₁).2.queue = (run c ops₂).2.queue :=
    hq₁.trans ((congrArg₂ (fun bs n ↦ List.drop n ([] ++ bs)) hacc hpop).trans hq₂.symm)
  have hpopped : (run c ops₁).2.popped = (run c ops₂).2.popped :=
    hp₁.trans ((congrArg (0 + ·) hpop).trans hp₂.symm)
  refine Fifo.ext hqueue ?_ hpopped ?_ ?_
  · rw [(run c ops₁).2.balance, (run c ops₂).2.balance, hqueue, hpopped]
  · rw [run, run, trace_ended, trace_ended, decide_eq_decide.2 hend]
  · rw [run, run, trace_error, trace_error, decide_eq_decide.2 herr]

end Fifo

namespace ByteStream

variable {c : ℕ}

/-- **The ring layout is unobservable.** Two runs from `ByteStream(c)` that accepted the same bytes,
popped the same number of bytes and raised the same flags end in streams whose accessors agree, and
on which every further sequence of calls returns, with the same observations. -/
theorem layout_unobservable (hc : c ≤ 2 ^ 30) {ops₁ ops₂ : List Op} {obs₁ obs₂ : List Obs}
    {s₁ s₂ : ByteStream} (h₁ : run c ops₁ = pure (obs₁, s₁)) (h₂ : run c ops₂ = pure (obs₂, s₂))
    (hacc : acceptedBytes (ops₁.zip obs₁) = acceptedBytes (ops₂.zip obs₂))
    (hpop : poppedBytes 0 (ops₁.zip obs₁) = poppedBytes 0 (ops₂.zip obs₂))
    (hend : Op.endInput ∈ ops₁ ↔ Op.endInput ∈ ops₂)
    (herr : Op.setError ∈ ops₁ ↔ Op.setError ∈ ops₂) :
    s₁.accessors = s₂.accessors ∧
      ∀ ops, ∃ obs t₁ t₂, Machine.runFrom step s₁ ops = pure (obs, t₁) ∧
        Machine.runFrom step s₂ ops = pure (obs, t₂) := by
  obtain ⟨s₁', hs₁, hrep₁⟩ := run_spec hc ops₁
  obtain ⟨s₂', hs₂, hrep₂⟩ := run_spec hc ops₂
  obtain ⟨rfl, rfl⟩ : (Fifo.run c ops₁).1 = obs₁ ∧ s₁' = s₁ :=
    Prod.mk.inj (Except.ok.inj (hs₁.symm.trans h₁))
  obtain ⟨rfl, rfl⟩ : (Fifo.run c ops₂).1 = obs₂ ∧ s₂' = s₂ :=
    Prod.mk.inj (Except.ok.inj (hs₂.symm.trans h₂))
  have hstate := Fifo.run_eq_of_history hacc hpop hend herr
  rw [hstate] at hrep₁
  have haccessors : s₁'.accessors = s₂'.accessors := by
    rw [hrep₁.accessors_eq (by omega) (hrep₁.fits hc),
      hrep₂.accessors_eq (by omega) (hrep₂.fits hc)]
  refine ⟨haccessors, fun ops ↦ ?_⟩
  obtain ⟨t₁, ht₁, -⟩ := (step_simulates hc).run hrep₁ ops
  obtain ⟨t₂, ht₂, -⟩ := (step_simulates hc).run hrep₂ ops
  exact ⟨_, t₁, t₂, ht₁, ht₂⟩

/-- Two runs with one history that end in different rings: the first wraps around, the second drains
completely and is reset to the front. -/
theorem layout_unobservable_wrapped_reset :
    ∃ obs₁ obs₂ s₁ s₂, run 2 [.write [1, 2, 3], .popOutput 1, .write [4]] = pure (obs₁, s₁) ∧
      run 2 [.write [1], .read 1, .write [2, 4]] = pure (obs₂, s₂) ∧ s₁.sind ≠ s₂.sind ∧
      s₁.accessors = s₂.accessors ∧
      ∀ ops, ∃ obs t₁ t₂, Machine.runFrom step s₁ ops = pure (obs, t₁) ∧
        Machine.runFrom step s₂ ops = pure (obs, t₂) := by
  refine ⟨_, _, _, _, rfl, rfl, by decide, ?_⟩
  exact layout_unobservable (by decide)
    (show run 2 [.write [1, 2, 3], .popOutput 1, .write [4]] = pure _ from rfl)
    (show run 2 [.write [1], .read 1, .write [2, 4]] = pure _ from rfl)
    (by decide) (by decide) (by decide) (by decide)

end ByteStream
