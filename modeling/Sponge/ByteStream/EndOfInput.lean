import Mathlib.Data.List.Induction
import Sponge.ByteStream.History

/-!
# After the end of the input

The class promises that "the writer can end the input, and then no more bytes can be written".
`write` never consults the flag that `endInput` clears, so the promise is not kept: bytes written
after the end are accepted like any others, and a stream at `eof` comes back to life.

This file says exactly when it is kept. A write accepts nothing if and only if it offers nothing or
finds no room, so the end of the input is final on precisely those runs in which every later write
is of one of these two kinds (`endInput_final_iff`), and on those `eof` is final too.
-/

open Cpp ByteStream

namespace Fifo

/-- A stream at its end is left there by every call but a write that is accepted. -/
theorem eof_step {c : ℕ} {f : Fifo c} {op : Op} (hended : f.ended = true) (hqueue : f.queue = [])
    (hquiet : ∀ data, op = .write data → f.accepts data = 0) :
    (f.step op).2.ended = true ∧ (f.step op).2.queue = [] := by
  cases op with
  | write data =>
    have hstep : (f.step (.write data)).2 = f :=
      congrArg Prod.snd (f.write_of_accepts_eq_zero (hquiet data rfl))
    rw [hstep]
    exact ⟨hended, hqueue⟩
  | popOutput len | read len =>
    refine ⟨hended, ?_⟩
    show f.queue.drop _ = []
    rw [hqueue, List.drop_nil]
  | peekOutput len | setError => exact ⟨hended, hqueue⟩
  | endInput => exact ⟨rfl, hqueue⟩

end Fifo

namespace ByteStream

variable {c : ℕ}

/-- The run of `ops` from `ByteStream(c)` returns with the stream `s`. -/
def Reaches (c : ℕ) (ops : List Op) (s : ByteStream) : Prop := ∃ obs, run c ops = pure (obs, s)

/-- The buffered bytes, as a client can read them. -/
def contents (s : ByteStream) : Eval Exn Bytes := s.peekOutput (2 ^ 64 - 1)

/-- Every write after the end of the input returns `0` and leaves the bytes alone. -/
def EndIsFinal (c : ℕ) (ops : List Op) : Prop :=
  ∀ pre data post s, ops = pre ++ .write data :: post → .endInput ∈ pre → Reaches c pre s →
    ∃ s', s.write data = pure (0, s') ∧ s'.bytesWritten = s.bytesWritten ∧
      s'.contents = s.contents

/-- Once the stream is at its end it stays there. -/
def EofIsFinal (c : ℕ) (ops : List Op) : Prop :=
  ∀ pre mid post s t, ops = pre ++ mid ++ post → Reaches c pre s → s.eof = true →
    Reaches c (pre ++ mid) t → t.eof = true

/-- Every write after the end of the input offers nothing or finds no room. -/
def QuietAfterEnd (c : ℕ) (ops : List Op) : Prop :=
  ∀ pre data post s, ops = pre ++ .write data :: post → .endInput ∈ pre → Reaches c pre s →
    data = [] ∨ s.remainingCapacity = pure 0

/-! ### Reached states and the specification -/

theorem exists_reaches (hc : c ≤ 2 ^ 30) (ops : List Op) : ∃ s, Reaches c ops s := by
  obtain ⟨s, hs, -⟩ := run_spec hc ops
  exact ⟨s, _, hs⟩

theorem Reaches.represents (hc : c ≤ 2 ^ 30) {ops : List Op} {s : ByteStream}
    (h : Reaches c ops s) : Represents s (Fifo.run c ops).2 := by
  obtain ⟨obs, hobs⟩ := h
  obtain ⟨s', hs', hrep⟩ := run_spec hc ops
  obtain ⟨-, rfl⟩ := Prod.mk.inj (Except.ok.inj (hs'.symm.trans hobs))
  exact hrep

theorem Represents.eof_eq {s : ByteStream} {f : Fifo c} (h : Represents s f) :
    s.eof = (f.ended && decide (f.queue = [])) := by
  rw [eof, h.inputActive_eq, h.bufferEmpty_eq, Bool.not_not]

/-- **A write accepts nothing exactly when it offers nothing or finds no room.** -/
theorem Represents.accepts_eq_zero_iff (hc : c ≤ 2 ^ 30) {s : ByteStream} {f : Fifo c}
    (h : Represents s f) {data : Bytes} :
    f.accepts data = 0 ↔ data = [] ∨ s.remainingCapacity = pure 0 := by
  have hroom : (s.remainingCapacity = pure 0) ↔ c - f.queue.length = 0 := by
    rw [h.remainingCapacity_eq (by omega) (h.fits hc)]
    exact ⟨fun h ↦ Except.ok.inj h, fun h ↦ congrArg _ h⟩
  rw [hroom, ← List.length_eq_zero_iff, Fifo.accepts]
  omega

/-- The flag of the specification is the history of `endInput` calls. -/
theorem ended_iff (ops : List Op) : (Fifo.run c ops).2.ended = true ↔ Op.endInput ∈ ops := by
  rw [Fifo.run, Fifo.trace_ended]
  simp [Fifo.empty]

/-! ### The two directions -/

theorem EndIsFinal.quietAfterEnd (hc : c ≤ 2 ^ 30) {ops : List Op} (h : EndIsFinal c ops) :
    QuietAfterEnd c ops := by
  intro pre data post s hops hend hs
  have hrep := hs.represents hc
  obtain ⟨s', hs', -⟩ := h pre data post s hops hend hs
  obtain ⟨s'', hs'', -⟩ := hrep.write_spec (by omega) (hrep.fits hc) data
  have hzero := (Prod.mk.inj (Except.ok.inj (hs''.symm.trans hs'))).1
  exact (hrep.accepts_eq_zero_iff hc).1 hzero

theorem QuietAfterEnd.endIsFinal (hc : c ≤ 2 ^ 30) {ops : List Op} (h : QuietAfterEnd c ops) :
    EndIsFinal c ops := by
  intro pre data post s hops hend hs
  have hrep := hs.represents hc
  have hzero := (hrep.accepts_eq_zero_iff hc).2 (h pre data post s hops hend hs)
  obtain ⟨s', hs', hrep'⟩ := hrep.write_spec (by omega) (hrep.fits hc) data
  rw [Fifo.write_of_accepts_eq_zero _ hzero] at hs' hrep'
  refine ⟨s', hs', ?_, ?_⟩
  · rw [bytesWritten, bytesWritten, hrep'.cntWrite_eq, hrep.cntWrite_eq]
  · rw [contents, contents, hrep'.peekOutput_eq (by omega) (hrep'.fits hc),
      hrep.peekOutput_eq (by omega) (hrep.fits hc)]

theorem QuietAfterEnd.eofIsFinal (hc : c ≤ 2 ^ 30) {ops : List Op} (h : QuietAfterEnd c ops) :
    EofIsFinal c ops := by
  intro pre mid
  -- the calls are undone from the last one: the state before it is reached by a shorter `mid`
  induction mid using List.reverseRecOn with
  | nil =>
    intro post s t _ hs heof ht
    rw [List.append_nil] at ht
    rwa [(ht.represents hc).eof_eq, ← (hs.represents hc).eof_eq]
  | append_singleton mid op ih =>
    intro post s t hops hs heof ht
    obtain ⟨u, hu⟩ := exists_reaches hc (pre ++ mid)
    have hops' : ops = pre ++ mid ++ (op :: post) := by simpa using hops
    have hueof := ih (op :: post) s u hops' hs heof hu
    have hurep := hu.represents hc
    rw [hurep.eof_eq, Bool.and_eq_true, decide_eq_true_eq] at hueof
    have hstep : (Fifo.run c (pre ++ (mid ++ [op]))).2 =
        ((Fifo.run c (pre ++ mid)).2.step op).2 := by
      rw [← List.append_assoc, Fifo.run, Machine.trace_append]
      rfl
    have hquiet : ∀ data, op = .write data → (Fifo.run c (pre ++ mid)).2.accepts data = 0 := by
      rintro data rfl
      exact (hurep.accepts_eq_zero_iff hc).2
        (h (pre ++ mid) data post u hops' ((ended_iff _).1 hueof.1) hu)
    obtain ⟨hended, hqueue⟩ := Fifo.eof_step hueof.1 hueof.2 hquiet
    rw [(ht.represents hc).eof_eq, hstep, hended, hqueue]
    rfl

/-- **When the end of the input is final.** Over every run: all writes after `endInput` return `0`
and leave the bytes alone, and `eof` stays once it is reached, if and only if every such write
offers nothing or finds no room. -/
theorem endInput_final_iff (hc : c ≤ 2 ^ 30) (ops : List Op) :
    (EndIsFinal c ops ∧ EofIsFinal c ops) ↔ QuietAfterEnd c ops :=
  ⟨fun h ↦ h.1.quietAfterEnd hc, fun h ↦ ⟨h.endIsFinal hc, h.eofIsFinal hc⟩⟩

/-- The condition met by a run that fills the stream before ending it: the write that follows finds
no room. -/
theorem endInput_final_full :
    1 ≤ 2 ^ 30 ∧ QuietAfterEnd 1 [.write [65], .endInput, .write [66]] ∧
      EndIsFinal 1 [.write [65], .endInput, .write [66]] ∧
      EofIsFinal 1 [.write [65], .endInput, .write [66]] := by
  have hquiet : QuietAfterEnd 1 [.write [65], .endInput, .write [66]] := by
    intro pre data post s hops hend hs
    -- the only write after the end is the last call
    obtain rfl : pre = [.write [65], .endInput] := by
      rcases pre with - | ⟨op, - | ⟨op', - | ⟨op'', pre⟩⟩⟩
      · exact absurd hend List.not_mem_nil
      · simp at hops
      · simp only [List.cons_append, List.nil_append, List.cons.injEq] at hops
        rw [← hops.1, ← hops.2.1]
      · simp at hops
    obtain ⟨obs, hrun⟩ := hs
    obtain rfl := (Prod.mk.inj (Except.ok.inj hrun)).2
    exact Or.inr rfl
  exact ⟨by decide, hquiet, (endInput_final_iff (by decide) _).2 hquiet⟩

/-- **A byte is accepted after the end.** On a stream with room for one byte, the write that follows
`endInput` is accepted, and the stream that was at its end no longer is. -/
theorem write_after_endInput :
    ¬ EndIsFinal 1 [.endInput, .write [65]] ∧ ¬ EofIsFinal 1 [.endInput, .write [65]] := by
  constructor
  · intro h
    obtain ⟨s', hs', -⟩ := h [.endInput] [65] [] _ rfl (by decide) ⟨_, rfl⟩
    have hret : _ = some 0 := congrArg (fun r ↦ r.toOption.map Prod.fst) hs'
    exact absurd hret (by decide)
  · intro h
    exact absurd (h [.endInput] [.write [65]] [] _ _ rfl ⟨_, rfl⟩ rfl ⟨_, rfl⟩) (by decide)

end ByteStream
