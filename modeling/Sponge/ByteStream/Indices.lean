import Sponge.ByteStream.Refinement

/-!
# The indices of the ring are always valid

The subscripts of `ByteStream` are unchecked, and the sentinel `sind = -1` would be `2 ^ 64 - 1` in
the index expressions of `peek_output` and `pop_output`. That nothing goes wrong rests on the
sentinel being in step with the sizes: an index expression is reached only where there is a byte to
be copied or a cell to be filled, and then neither the ring nor the window in it is empty.

`Indexed` is what holds of the fields between two calls, and `Subscripts` what holds of every
expression that the next call evaluates. Both follow from `Represents`, which every run keeps.
-/

open Cpp

namespace ByteStream

variable {c : ℕ} {s : ByteStream} {f : Fifo c}

/-- **The indices are in their ranges.** -/
structure Indexed (c : ℕ) (s : ByteStream) : Prop where
  maxlen_eq : s.maxlen = c
  length_buffer : s.buffer.length = c
  sind_mem : s.sind = -1 ∨ 0 ≤ s.sind ∧ s.sind < c
  eind_mem : -1 ≤ s.eind ∧ s.eind < c
  /-- A window that is not empty has a last cell. -/
  eind_nonneg : s.sind ≠ -1 → 0 ≤ s.eind

/-- **Every expression of the next call is in range.** -/
structure Subscripts (c : ℕ) (s : ByteStream) : Prop where
  /-- No call stops: none overflows, divides by zero or subscripts past the end. -/
  calls : ∀ op, ∃ r, s.call op = pure r
  /-- `maxlen - buffer_size()` does not underflow. -/
  room : ∃ size, s.bufferSize = pure size ∧ size ≤ toSizeT s.maxlen ∧
    s.remainingCapacity = pure (toSizeT s.maxlen - size)
  /-- `% maxlen` in `buffer_size` is reached only in a ring that is not empty. -/
  size : s.bufferEmpty = false → 0 < s.maxlen
  /-- `data[i]` and `buffer[eind]` in `write`, where `eind` is what the iteration has just
  assigned. -/
  write : ∀ (data : Bytes) (room i : ℕ), s.remainingCapacity = pure room →
    i < min data.length room → 0 < s.maxlen ∧ i < data.length ∧
      ∃ t, forLoop (i + 1) (writeBody data) s.prepared = pure t ∧ t.buffer.length = c ∧
        0 ≤ t.eind ∧ toSizeT t.eind < c
  /-- `buffer[(sind + i) % maxlen]` in `peek_output`. -/
  peek : ∀ len size i : ℕ, s.bufferSize = pure size → i < min size len →
    0 < s.maxlen ∧ 0 ≤ s.sind ∧ toSizeT s.sind < c ∧
      ∃ index, szMod (szAdd (toSizeT s.sind) i) (toSizeT s.maxlen) =
        (pure index : Eval Exn ℕ) ∧ index < c
  /-- `(sind + len) % maxlen` in `pop_output`. -/
  pop : ∀ len size : ℕ, s.bufferSize = pure size → len < size →
    0 < s.maxlen ∧ 0 ≤ s.sind ∧ toSizeT s.sind < c ∧
      ∃ index, szMod (szAdd (toSizeT s.sind) len) (toSizeT s.maxlen) =
        (pure index : Eval Exn ℕ) ∧ index < c

theorem Represents.indexed (h : Represents s f) : Indexed c s where
  maxlen_eq := h.maxlen_eq
  length_buffer := h.length_buffer
  sind_mem := by
    rcases h.layout with ⟨-, hsind⟩ | ⟨-, start, hstart, hsind, -⟩
    · exact Or.inl hsind
    · rw [h.length_buffer] at hstart
      exact Or.inr ⟨by omega, by omega⟩
  eind_mem := ⟨h.neg_one_le_eind, h.eind_lt⟩
  eind_nonneg := by
    intro hne
    rcases h.layout with ⟨-, hsind⟩ | ⟨hq, start, -, -, heind, -⟩
    · exact absurd hsind hne
    · rw [heind, lastIndex_of_pos (List.length_pos_iff.2 hq)]
      exact Int.natCast_nonneg _

/-- An offset below the number of bytes held is the index of a cell: the sentinel is not there. -/
theorem Represents.index_lt (hc : c < 2 ^ 31) (h : Represents s f) {i : ℕ}
    (hi : i < f.queue.length) :
    0 < s.maxlen ∧ 0 ≤ s.sind ∧ toSizeT s.sind < c ∧
      ∃ index, szMod (szAdd (toSizeT s.sind) i) (toSizeT s.maxlen) =
        (pure index : Eval Exn ℕ) ∧ index < c := by
  have hlen := f.length_le
  have hpos : 0 < c := by omega
  rcases h.layout with ⟨hq, -⟩ | ⟨-, start, hstart, hsind, -⟩
  · rw [hq, List.length_nil] at hi
    omega
  rw [h.length_buffer] at hstart
  refine ⟨by rw [h.maxlen_eq]; omega, by omega, ?_, (start + i) % c, ?_, Nat.mod_lt _ hpos⟩
  · rwa [hsind, toSizeT_natCast (by omega)]
  · exact index_eq h.maxlen_eq hsind hc hstart (by omega)

/-- The cell that an iteration of `write` fills. -/
theorem Represents.write_lt (hc : c < 2 ^ 31) (h : Represents s f) (data : Bytes) {i : ℕ}
    (hi : i < f.accepts data) :
    ∃ t, forLoop (i + 1) (writeBody data) s.prepared = pure t ∧ t.buffer.length = c ∧
      0 ≤ t.eind ∧ toSizeT t.eind < c := by
  have hroom : f.accepts data ≤ c - f.queue.length := Nat.min_le_right _ _
  have hpos : 0 < c := by omega
  obtain ⟨start, t, -, hprep, ht, hw⟩ := h.forLoop_writing hc data (n := i + 1) hi hpos
  have hbuf : s.prepared.buffer.length = c := by rw [hprep]; exact h.length_buffer
  have hlast : (start + (f.queue.length + i)) % c < c := Nat.mod_lt _ hpos
  have heind : t.eind = ((start + (f.queue.length + i)) % c : ℕ) := by
    rw [hw.eind_eq, hbuf, ← Nat.add_assoc, lastIndex_succ]
  refine ⟨t, ht, hw.length_buffer.trans hbuf, ?_, ?_⟩
  · rw [heind]
    exact Int.natCast_nonneg _
  · rwa [heind, toSizeT_natCast (by omega)]

theorem Represents.subscripts (hc : c < 2 ^ 31) (h : Represents s f) (hfits : s.Fits) :
    Subscripts c s where
  calls op := by
    obtain ⟨s', hs', -⟩ := h.call_spec hc hfits op
    exact ⟨_, hs'⟩
  room := by
    have hmax : toSizeT s.maxlen = c := by rw [h.maxlen_eq, toSizeT_natCast (by omega)]
    rw [hmax]
    exact ⟨_, h.bufferSize_eq hc hfits, f.length_le, h.remainingCapacity_eq hc hfits⟩
  size hempty := by
    rw [h.bufferEmpty_eq] at hempty
    have hpos := List.length_pos_iff.2 (of_decide_eq_false hempty)
    exact (h.index_lt hc hpos).1
  write := by
    intro data room i hroom hi
    obtain rfl := Except.ok.inj ((h.remainingCapacity_eq hc hfits).symm.trans hroom)
    refine ⟨?_, by omega, h.write_lt hc data hi⟩
    rw [h.maxlen_eq]
    omega
  peek := by
    intro len size i hsize hi
    obtain rfl := Except.ok.inj ((h.bufferSize_eq hc hfits).symm.trans hsize)
    exact h.index_lt hc (by omega)
  pop := by
    intro len size hsize hlen
    obtain rfl := Except.ok.inj ((h.bufferSize_eq hc hfits).symm.trans hsize)
    exact h.index_lt hc hlen

/-- **The indices are always valid.** For every capacity up to `2 ^ 30`, zero included, every run of
calls returns, and in the state it has reached the indices are in their ranges and every expression
that a further call evaluates is in range. -/
theorem run_indexed (hc : c ≤ 2 ^ 30) (ops : List Op) :
    ∃ obs s, run c ops = pure (obs, s) ∧ Indexed c s ∧ Subscripts c s := by
  obtain ⟨s, hs, hrep⟩ := run_spec hc ops
  exact ⟨_, s, hs, hrep.indexed, hrep.subscripts (by omega) (hrep.fits hc)⟩

/-- A stream without any room: nothing is ever written, and no remainder is taken. -/
theorem run_indexed_zero :
    0 ≤ 2 ^ 30 ∧ ∃ obs s, run 0 [.write [1], .read 3, .popOutput 0] = pure (obs, s) ∧
      Indexed 0 s ∧ Subscripts 0 s :=
  ⟨by decide, run_indexed (by decide) _⟩

end ByteStream
