import Sponge.ByteStream.Fifo
import Sponge.Lib.Ring

/-!
# The ring buffer refines the FIFO

The simulation between the ring of `ByteStream` and the queue of `Fifo`.

The relation `Represents s f` has two layouts, because the code does. A **drained** stream has the
sentinel `sind = -1` and an unconstrained `eind` in `[-1, c)`: it is stale after a pop and `-1` only
at the start. A stream that **holds** bytes has `sind` at the head of a circular window and `eind`
at its last cell. Nothing is said about the cells outside the window, so a relation this weak is
still preserved by every call, and two streams that represent the same queue need not agree in any
index.

The capacity bound enters in one place. `bufferSize` evaluates `maxlen + (eind - sind) % maxlen` in
`int`, which for a window that has not wrapped is `c + |q| - 1`; with `c ≤ 2 ^ 30` this is below
`2 ^ 31` whatever the queue. For larger capacities it depends on the state, so each call is
specified for the states in which the size can be computed (`Fits`), and only runs need the bound.
-/

open Cpp

namespace ByteStream

variable {c : ℕ} {s : ByteStream} {f : Fifo c}

/-- The index of the last of `n` cells from `start` on in a ring of `c`, or `-1` if there are none:
what `eind` is while a window of length `n` is being filled. -/
def lastIndex (c start n : ℕ) : ℤ :=
  if n = 0 then -1 else ((start + (n - 1)) % c : ℕ)

theorem lastIndex_of_pos {c start n : ℕ} (hn : 0 < n) :
    lastIndex c start n = ((start + (n - 1)) % c : ℕ) :=
  if_neg (by omega)

@[simp] theorem lastIndex_succ (c start n : ℕ) :
    lastIndex c start (n + 1) = ((start + n) % c : ℕ) := rfl

theorem neg_one_le_lastIndex (c start n : ℕ) : -1 ≤ lastIndex c start n := by
  rw [lastIndex]
  split
  · exact le_rfl
  · generalize (start + (n - 1)) % c = k
    omega

theorem lastIndex_lt {c : ℕ} (start n : ℕ) (hc : 0 < c) : lastIndex c start n < c := by
  rw [lastIndex]
  split
  · omega
  · exact Int.ofNat_lt.2 (Nat.mod_lt _ hc)

/-- Removing cells at the front leaves the last one where it is. -/
theorem lastIndex_drop (c start : ℕ) {n len : ℕ} (h : len < n) :
    lastIndex c ((start + len) % c) (n - len) = lastIndex c start n := by
  rw [lastIndex_of_pos (by omega), lastIndex_of_pos (by omega), Nat.mod_add_mod,
    show start + len + (n - len - 1) = start + (n - 1) by omega]

/-- Where the bytes `q` lie in the ring. -/
def Layout (s : ByteStream) (q : Bytes) : Prop :=
  (q = [] ∧ s.sind = -1) ∨
    (q ≠ [] ∧ ∃ start : ℕ, start < s.buffer.length ∧ s.sind = start ∧
      s.eind = lastIndex s.buffer.length start q.length ∧ Ring.Holds s.buffer start q)

/-- The stream `s` stores the specification state `f`. -/
structure Represents (s : ByteStream) (f : Fifo c) : Prop where
  maxlen_eq : s.maxlen = c
  length_buffer : s.buffer.length = c
  neg_one_le_eind : -1 ≤ s.eind
  eind_lt : s.eind < c
  layout : s.Layout f.queue
  cntWrite_eq : s.cntWrite = f.written % 2 ^ 64
  cntRead_eq : s.cntRead = f.popped % 2 ^ 64
  inputActive_eq : s.inputActive = !f.ended
  error_eq : s.error = f.error

/-! ### The accessors -/

theorem Represents.bufferEmpty_eq (h : Represents s f) :
    s.bufferEmpty = decide (f.queue = []) := by
  rw [bufferEmpty, decide_eq_decide]
  rcases h.layout with ⟨hq, hs⟩ | ⟨hq, start, -, hs, -⟩
  · exact iff_of_true hs hq
  · exact iff_of_false (by omega) hq

/-- Where the size can be computed in `int`: there is nothing in the buffer, or the window wraps
around the end of the ring, or its length and that of the ring add up to at most `2 ^ 31`. -/
def Fits (s : ByteStream) : Prop :=
  s.sind = -1 ∨ s.eind < s.sind ∨ s.maxlen + (s.eind - s.sind + 1) ≤ 2 ^ 31

instance (s : ByteStream) : Decidable s.Fits := inferInstanceAs (Decidable (_ ∨ _))

/-- It always can in a small ring. -/
theorem Represents.fits (hc : c ≤ 2 ^ 30) (h : Represents s f) : s.Fits := by
  have hlt := h.eind_lt
  rcases h.layout with ⟨-, hsind⟩ | ⟨-, start, -, hsind, -⟩
  · exact Or.inl hsind
  · refine Or.inr (Or.inr ?_)
    rw [h.maxlen_eq, hsind]
    omega

/-- **The size is recovered from the two indices**, wrapped or not. -/
theorem Represents.bufferSize_eq (hc : c < 2 ^ 31) (h : Represents s f) (hfits : s.Fits) :
    s.bufferSize = pure f.queue.length := by
  have hlen := f.length_le
  rw [bufferSize, h.bufferEmpty_eq]
  rcases h.layout with ⟨hq, -⟩ | ⟨hq, start, hstart, hsind, heind, -⟩
  · simp [hq]
  have hpos : 0 < f.queue.length := List.length_pos_iff.2 hq
  generalize f.queue.length = n at hlen hpos heind
  rw [h.length_buffer] at hstart heind
  rw [lastIndex_of_pos hpos] at heind
  rw [Fits, hsind, heind, h.maxlen_eq] at hfits
  rw [if_neg (by simpa using hq), hsind, heind, h.maxlen_eq]
  rcases Nat.lt_or_ge (start + (n - 1)) c with hlt | hge
  · -- the window has not wrapped: the difference is `n - 1`, and adding `c` overshoots by a turn
    rw [Nat.mod_eq_of_lt hlt] at hfits
    rw [Nat.mod_eq_of_lt hlt, intSub_eq (by rw [InInt]; omega), pure_bind,
      show ((start + (n - 1) : ℕ) : ℤ) - start = (n - 1 : ℕ) by omega,
      intMod_eq_self (by omega) (by omega), pure_bind, intAdd_eq (by rw [InInt]; omega), pure_bind,
      show (c : ℤ) + (n - 1 : ℕ) = (c + (n - 1) : ℕ) by omega,
      intMod_natCast (by omega) (by omega), pure_bind, Nat.add_mod_left,
      Nat.mod_eq_of_lt (by omega), intAdd_eq (by rw [InInt]; omega), pure_bind,
      show ((n - 1 : ℕ) : ℤ) + 1 = (n : ℕ) by omega, toSizeT_natCast (by omega)]
  · -- the window has wrapped: the difference is `n - 1 - c`, which the truncated `%` keeps negative
    have hmod : (start + (n - 1)) % c = start + (n - 1) - c := by
      rw [Nat.mod_eq_sub_mod hge, Nat.mod_eq_of_lt (by omega)]
    rw [hmod, intSub_eq (by rw [InInt]; omega), pure_bind,
      show ((start + (n - 1) - c : ℕ) : ℤ) - start = ((n - 1 : ℕ) : ℤ) - c by omega,
      intMod_eq_self (by omega) (by omega), pure_bind, intAdd_eq (by rw [InInt]; omega), pure_bind,
      show (c : ℤ) + (((n - 1 : ℕ) : ℤ) - c) = ((n - 1 : ℕ) : ℤ) by omega,
      intMod_eq_self (by omega) (by omega), pure_bind, intAdd_eq (by rw [InInt]; omega), pure_bind,
      show ((n - 1 : ℕ) : ℤ) + 1 = (n : ℕ) by omega, toSizeT_natCast (by omega)]

theorem Represents.remainingCapacity_eq (hc : c < 2 ^ 31) (h : Represents s f) (hfits : s.Fits) :
    s.remainingCapacity = pure (c - f.queue.length) := by
  rw [remainingCapacity, h.bufferSize_eq hc hfits, pure_bind, h.maxlen_eq,
    toSizeT_natCast (by omega), szSub_eq f.length_le (by omega)]

theorem Represents.accessors_eq (hc : c < 2 ^ 31) (h : Represents s f) (hfits : s.Fits) :
    s.accessors = pure f.accessors := by
  rw [accessors, h.bufferSize_eq hc hfits, pure_bind, h.remainingCapacity_eq hc hfits, pure_bind]
  simp [Fifo.accessors, bytesWritten, bytesRead, eof, inputEnded, h.bufferEmpty_eq, h.cntWrite_eq,
    h.cntRead_eq, h.inputActive_eq, h.error_eq]

/-! ### Writing -/

/-- Advancing `eind` and reducing it gives the last index of a window that is one longer. An empty
window must sit at `0`, where the reset of `write` puts it. -/
theorem advance_lastIndex {c start n : ℕ} (hc : c < 2 ^ 31) (hpos : 0 < c)
    (hstart : n = 0 → start = 0) :
    (intAdd (lastIndex c start n) 1 >>= fun next ↦ intMod next c : Eval Exn ℤ) =
      pure (lastIndex c start (n + 1)) := by
  rw [lastIndex_succ]
  rcases Nat.eq_zero_or_pos n with rfl | hn
  · rw [hstart rfl, lastIndex, if_pos rfl, intAdd_eq (by decide), pure_bind]
    exact intMod_natCast (m := 0) (by decide) hpos
  · have hlt : (start + (n - 1)) % c < c := Nat.mod_lt _ hpos
    rw [lastIndex_of_pos hn, intAdd_eq (by rw [InInt]; omega), pure_bind]
    refine (intMod_natCast (m := (start + (n - 1)) % c + 1) (by omega) hpos).trans ?_
    rw [Nat.mod_add_mod, show start + (n - 1) + 1 = start + n by omega]

/-- The state of the loop in `write` after `i` iterations: only `eind` and the cells behind the
window have changed, and the window has grown by the first `i` bytes of `data`. -/
structure Writing (s : ByteStream) (start : ℕ) (q data : Bytes) (i : ℕ) (t : ByteStream) :
    Prop where
  frame : t = { s with eind := t.eind, buffer := t.buffer }
  length_buffer : t.buffer.length = s.buffer.length
  eind_eq : t.eind = lastIndex s.buffer.length start (q.length + i)
  holds : Ring.Holds t.buffer start (q ++ data.take i)

theorem writeBody_writing {c start i : ℕ} {s t : ByteStream} {q data : Bytes} (hc : c < 2 ^ 31)
    (hmax : s.maxlen = c) (hlen : s.buffer.length = c) (hstart : q = [] → start = 0)
    (hroom : q.length + i < c) (hi : i < data.length) (h : Writing s start q data i t) :
    ∃ t', writeBody data i t = pure t' ∧ Writing s start q data (i + 1) t' := by
  have hlast : (start + (q.length + i)) % c < c := Nat.mod_lt _ (by omega)
  have hempty : q.length + i = 0 → start = 0 := fun h₀ ↦
    hstart (List.eq_nil_of_length_eq_zero (by omega))
  have hmax' : t.maxlen = c := by rw [h.frame]; exact hmax
  have hlen' : t.buffer.length = c := h.length_buffer.trans hlen
  refine ⟨{ t with
    eind := lastIndex c start (q.length + i + 1)
    buffer := t.buffer.set ((start + (q.length + i)) % c) data[i] }, ?_, ?_⟩
  · have hadv := advance_lastIndex (n := q.length + i) hc (by omega) hempty
    rw [writeBody, h.eind_eq, hlen, hmax', ← bind_assoc, hadv, pure_bind,
      load_eq (List.getElem?_eq_getElem hi), pure_bind, lastIndex_succ, toSizeT_natCast (by omega),
      store_eq (by omega), pure_bind]
  · have hq : (q ++ data.take i).length = q.length + i := by
      rw [List.length_append, List.length_take]
      omega
    refine ⟨?_, ?_, ?_, ?_⟩
    · rw [h.frame]
    · rw [List.length_set, h.length_buffer]
    · rw [hlen, Nat.add_assoc]
    · have hgrow := h.holds.concat (by omega) data[i]
      rw [hq, hlen', List.append_assoc] at hgrow
      rwa [List.take_add_one, List.getElem?_eq_getElem hi]

theorem prepared_sind_le (s : ByteStream) (h : s.sind ≤ 0) : s.prepared.sind ≤ 0 := by
  rw [prepared]
  split
  · exact le_rfl
  · exact h

theorem Represents.prepared_writing (h : Represents s f) (hpos : 0 < c) (data : Bytes) :
    ∃ start : ℕ, start < c ∧ (f.queue = [] → start = 0) ∧
      s.prepared = { s with sind := start, eind := s.prepared.eind } ∧
      Writing s.prepared start f.queue data 0 s.prepared := by
  rw [prepared, h.bufferEmpty_eq]
  rcases h.layout with ⟨hq, -⟩ | ⟨hq, start, hstart, hsind, heind, hring⟩
  · refine ⟨0, hpos, fun _ ↦ rfl, ?_, ?_⟩
    · simp [hq]
    · simp only [hq, decide_true, if_true]
      exact ⟨rfl, rfl, rfl, Ring.holds_nil _ _⟩
  · refine ⟨start, h.length_buffer ▸ hstart, fun h₀ ↦ absurd h₀ hq, ?_, ?_⟩
    · simp [hq, ← hsind]
    · simp only [hq, decide_false, Bool.false_eq_true, if_false]
      exact ⟨rfl, rfl, by simpa using heind, by simpa using hring⟩

/-- **The loop of `write`**, after any number of iterations up to the number accepted. -/
theorem Represents.forLoop_writing (hc : c < 2 ^ 31) (h : Represents s f) (data : Bytes) {n : ℕ}
    (hn : n ≤ f.accepts data) (hpos : 0 < c) :
    ∃ (start : ℕ) (t : ByteStream), start < c ∧
      s.prepared = { s with sind := start, eind := s.prepared.eind } ∧
      forLoop n (writeBody data) s.prepared = pure t ∧
      Writing s.prepared start f.queue data n t := by
  have hfit : f.queue.length + f.accepts data ≤ c := by
    have := f.length_le
    rw [Fifo.accepts]
    omega
  have hdata : f.accepts data ≤ data.length := Nat.min_le_left _ _
  obtain ⟨start, hstart, hreset, hprep, hinit⟩ := h.prepared_writing hpos data
  have hmax : s.prepared.maxlen = c := by rw [hprep]; exact h.maxlen_eq
  have hbuf : s.prepared.buffer.length = c := by rw [hprep]; exact h.length_buffer
  have hloop : ∃ t, forLoop n (writeBody data) s.prepared = pure t ∧
      Writing s.prepared start f.queue data n t :=
    forLoop_rule _ hinit fun i t hi hinv ↦
      writeBody_writing hc hmax hbuf hreset (by omega) (by omega) hinv
  obtain ⟨t, ht, hw⟩ := hloop
  exact ⟨start, t, hstart, hprep, ht, hw⟩

/-- **Writing**: the call returns the number the specification accepts, and the ring then holds the
longer queue. A window at the front of the ring, or a new one, stays there. -/
theorem Represents.write_placed (hc : c < 2 ^ 31) (h : Represents s f) (hfits : s.Fits)
    (data : Bytes) :
    ∃ s', s.write data = pure ((f.write data).1, s') ∧ (s.sind ≤ 0 → s'.sind ≤ 0) ∧
      Represents s' (f.write data).2 := by
  have hfit : f.accepts data ≤ c - f.queue.length := Nat.min_le_right _ _
  rw [write, h.remainingCapacity_eq hc hfits, pure_bind]
  show ∃ s', (if f.accepts data = 0 then _ else _) = _ ∧ _
  rcases Nat.eq_zero_or_pos (f.accepts data) with hn | hn
  · rw [f.write_of_accepts_eq_zero hn, if_pos hn]
    exact ⟨s, rfl, id, h⟩
  rw [if_neg (by omega)]
  obtain ⟨start, t, hstart, hprep, ht, hw⟩ := h.forLoop_writing hc data le_rfl (by omega)
  have hbuf : s.prepared.buffer.length = c := by rw [hprep]; exact h.length_buffer
  have hlen : t.buffer.length = c := hw.length_buffer.trans hbuf
  have heind : t.eind = lastIndex c start (f.queue.length + f.accepts data) := hbuf ▸ hw.eind_eq
  have hframe : t = { s with sind := start, eind := t.eind, buffer := t.buffer } := by
    rw [hw.frame, hprep]
  refine ⟨{ t with cntWrite := szAdd t.cntWrite (f.accepts data) }, ?_, fun hfront ↦ ?_, ?_⟩
  · show (forLoop (f.accepts data) (writeBody data) s.prepared >>= _) = _
    rw [ht, pure_bind]
    rfl
  · show t.sind ≤ 0
    have hsind : s.prepared.sind = start := by rw [hprep]
    rw [hframe, ← hsind]
    exact s.prepared_sind_le hfront
  constructor
  · rw [hframe]; exact h.maxlen_eq
  · exact hlen
  · rw [heind]; exact neg_one_le_lastIndex _ _ _
  · rw [heind]; exact lastIndex_lt _ _ (by omega)
  · refine Or.inr ⟨?_, start, hlen ▸ hstart, by rw [hframe], ?_, hw.holds⟩
    · exact List.ne_nil_of_length_pos (f.length_append_take data ▸ by omega)
    · show t.eind = lastIndex t.buffer.length start (f.queue ++ data.take (f.accepts data)).length
      rw [heind, hlen, f.length_append_take]
  · rw [hframe]
    show szAdd s.cntWrite _ = (f.written + _) % 2 ^ 64
    rw [h.cntWrite_eq, szAdd, Nat.mod_add_mod]
  · rw [hframe]; exact h.cntRead_eq
  · rw [hframe]; exact h.inputActive_eq
  · rw [hframe]; exact h.error_eq

theorem Represents.write_spec (hc : c < 2 ^ 31) (h : Represents s f) (hfits : s.Fits)
    (data : Bytes) :
    ∃ s', s.write data = pure ((f.write data).1, s') ∧ Represents s' (f.write data).2 := by
  obtain ⟨s', hs', -, hrep⟩ := h.write_placed hc hfits data
  exact ⟨s', hs', hrep⟩

/-! ### Reading -/

/-- The index expression of `peekOutput` and `popOutput`, taken at `size_t`. -/
theorem index_eq {start i : ℕ} (hmax : s.maxlen = c) (hsind : s.sind = start) (hc : c < 2 ^ 31)
    (hstart : start < c) (hi : i < c) :
    szMod (szAdd (toSizeT s.sind) i) (toSizeT s.maxlen) =
      (pure ((start + i) % c) : Eval Exn ℕ) := by
  rw [hsind, hmax, toSizeT_natCast (by omega), toSizeT_natCast (by omega), szAdd_eq (by omega),
    szMod_eq (by omega)]

/-- One iteration of `peek_output` copies one byte of the queue. -/
theorem Represents.peekBody_spec (hc : c < 2 ^ 31) (h : Represents s f) {n i : ℕ} {out : Bytes}
    (hn : n ≤ f.queue.length) (hi : i < n) (hout : out.length = n)
    (htake : out.take i = f.queue.take i) :
    ∃ out', s.peekBody i out = pure out' ∧
      (out'.length = n ∧ out'.take (i + 1) = f.queue.take (i + 1)) := by
  have hlen := f.length_le
  have hlt : i < f.queue.length := by omega
  rcases h.layout with ⟨hq, -⟩ | ⟨-, start, hstart, hsind, -, hring⟩
  · rw [hq, List.length_nil] at hlt
    omega
  have hcell := hring i hlt
  rw [h.length_buffer] at hstart hcell
  rw [List.getElem?_eq_getElem hlt] at hcell
  refine ⟨out.set i f.queue[i], ?_, ?_, ?_⟩
  · rw [peekBody, index_eq h.maxlen_eq hsind hc hstart (by omega), pure_bind, load_eq hcell,
      pure_bind, store_eq (by omega)]
  · rw [List.length_set, hout]
  · rw [List.take_add_one, List.take_set_of_le le_rfl, htake, List.getElem?_set_self (by omega),
      List.take_add_one, List.getElem?_eq_getElem hlt]

/-- **Peeking** copies the front of the queue and changes nothing. -/
theorem Represents.peekOutput_eq (hc : c < 2 ^ 31) (h : Represents s f) (hfits : s.Fits)
    (len : ℕ) :
    s.peekOutput len = pure (f.peek len) := by
  have hlen := f.length_le
  rw [peekOutput, h.bufferSize_eq hc hfits, pure_bind, Fifo.peek, min_comm f.queue.length]
  generalize hn : min len f.queue.length = n
  have hnq : n ≤ f.queue.length := by omega
  have hspaces : spaces n = pure (List.replicate n 32) := by
    rw [spaces, if_pos (by rw [maxStringSize]; omega)]
  -- after `i` iterations the first `i` cells of the copy are the first `i` bytes of the queue
  obtain ⟨out, hout, hlen', htake⟩ :=
    forLoop_rule (fun i (out : Bytes) ↦ out.length = n ∧ out.take i = f.queue.take i)
      (s := List.replicate n 32) ⟨List.length_replicate, rfl⟩
      fun i out hi hinv ↦ h.peekBody_spec hc (by omega) hi hinv.1 hinv.2
  show (spaces n >>= fun out ↦ forLoop n s.peekBody out) = _
  rw [hspaces, pure_bind, hout]
  rw [← htake, List.take_of_length_le hlen'.le]

/-- **Popping**: a complete drain falls back to the sentinel, any other pop moves `sind` around the
ring. -/
theorem Represents.popOutput_spec (hc : c < 2 ^ 31) (h : Represents s f) (hfits : s.Fits)
    (len : ℕ) :
    ∃ s', s.popOutput len = pure s' ∧ Represents s' (f.pop len) := by
  have hlen := f.length_le
  have hcount : ∀ n, szAdd s.cntRead n = (f.popped + n) % 2 ^ 64 := fun n ↦ by
    rw [h.cntRead_eq, szAdd, Nat.mod_add_mod]
  rw [popOutput, h.bufferSize_eq hc hfits, pure_bind]
  rcases Nat.lt_or_ge len f.queue.length with hlt | hge
  · -- some bytes stay, so the window is not empty and only its start moves
    rcases h.layout with ⟨hq, -⟩ | ⟨-, start, hstart, hsind, heind, hring⟩
    · rw [hq, List.length_nil] at hlt
      omega
    rw [h.length_buffer] at hstart
    have hmin : min len f.queue.length = len := by omega
    have hmod : (start + len) % c < c := Nat.mod_lt _ (by omega)
    have hsind' : toInt ((start + len) % c) = ((start + len) % c : ℕ) := toInt_eq (by omega)
    rw [if_neg (by omega), index_eq h.maxlen_eq hsind hc hstart (by omega), pure_bind]
    refine ⟨_, rfl, h.maxlen_eq, h.length_buffer, h.neg_one_le_eind, h.eind_lt, ?_, h.cntWrite_eq,
      ?_, h.inputActive_eq, h.error_eq⟩
    · rw [hsind']
      show Layout _ (f.queue.drop (min len f.queue.length))
      rw [hmin]
      refine Or.inr ⟨?_, (start + len) % c, ?_, rfl, ?_, ?_⟩
      · exact List.ne_nil_of_length_pos (by rw [List.length_drop]; omega)
      · exact h.length_buffer.symm ▸ hmod
      · show s.eind = lastIndex s.buffer.length _ _
        rw [heind, h.length_buffer, List.length_drop, lastIndex_drop c start hlt]
      · exact h.length_buffer ▸ hring.drop len
    · show szAdd s.cntRead len = (f.popped + min len f.queue.length) % 2 ^ 64
      rw [hcount, hmin]
  · -- nothing stays, and `sind` says so; `eind` is left where it is
    have hmin : min len f.queue.length = f.queue.length := by omega
    rw [if_pos hge]
    refine ⟨_, rfl, h.maxlen_eq, h.length_buffer, h.neg_one_le_eind, h.eind_lt, ?_, h.cntWrite_eq,
      ?_, h.inputActive_eq, h.error_eq⟩
    · refine Or.inl ⟨?_, rfl⟩
      show f.queue.drop (min len f.queue.length) = []
      rw [hmin, List.drop_length]
    · show szAdd s.cntRead _ = (f.popped + min len f.queue.length) % 2 ^ 64
      rw [hcount, hmin]

theorem Represents.read_spec (hc : c < 2 ^ 31) (h : Represents s f) (hfits : s.Fits) (len : ℕ) :
    ∃ s', s.read len = pure (f.peek len, s') ∧ Represents s' (f.pop len) := by
  obtain ⟨s', hs', hrep⟩ := h.popOutput_spec hc hfits len
  exact ⟨s', by rw [read, h.peekOutput_eq hc hfits, pure_bind, hs', pure_bind], hrep⟩

/-! ### The simulation -/

theorem Represents.endInput_spec (h : Represents s f) : Represents s.endInput f.endInput :=
  ⟨h.maxlen_eq, h.length_buffer, h.neg_one_le_eind, h.eind_lt, h.layout, h.cntWrite_eq,
    h.cntRead_eq, rfl, h.error_eq⟩

theorem Represents.setError_spec (h : Represents s f) : Represents s.setError f.setError :=
  ⟨h.maxlen_eq, h.length_buffer, h.neg_one_le_eind, h.eind_lt, h.layout, h.cntWrite_eq,
    h.cntRead_eq, h.inputActive_eq, rfl⟩

theorem Represents.call_spec (hc : c < 2 ^ 31) (h : Represents s f) (hfits : s.Fits) (op : Op) :
    ∃ s', s.call op = pure ((f.call op).1, s') ∧ Represents s' (f.call op).2 := by
  cases op with
  | write data =>
    obtain ⟨s', hs', hrep⟩ := h.write_spec hc hfits data
    exact ⟨s', by rw [call, hs', pure_bind]; rfl, hrep⟩
  | popOutput len =>
    obtain ⟨s', hs', hrep⟩ := h.popOutput_spec hc hfits len
    exact ⟨s', by rw [call, hs', pure_bind]; rfl, hrep⟩
  | read len =>
    obtain ⟨s', hs', hrep⟩ := h.read_spec hc hfits len
    exact ⟨s', by rw [call, hs', pure_bind]; rfl, hrep⟩
  | peekOutput len => exact ⟨s, by rw [call, h.peekOutput_eq hc hfits, pure_bind]; rfl, h⟩
  | endInput => exact ⟨s.endInput, rfl, h.endInput_spec⟩
  | setError => exact ⟨s.setError, rfl, h.setError_spec⟩

/-- **One call.** From related states every call returns, with the specified observation. -/
theorem step_simulates (hc : c ≤ 2 ^ 30) :
    Machine.Simulates (fun s (f : Fifo c) ↦ Represents s f) step Fifo.step := by
  intro s f op h
  have hlt : c < 2 ^ 31 := by omega
  obtain ⟨s', hs', hrep⟩ := h.call_spec hlt (h.fits hc) op
  refine ⟨s', ?_, hrep⟩
  rw [step, hs', pure_bind]
  show (s'.accessors >>= fun after ↦ pure (Obs.mk (f.call op).1 after, s')) = _
  rw [hrep.accessors_eq hlt (hrep.fits hc), pure_bind]
  rfl

theorem construct_spec (hc : c < 2 ^ 31) :
    ∃ s, construct c = pure s ∧ Represents s (Fifo.empty c) := by
  have hspaces : spaces c = pure (List.replicate c 32) := by
    rw [spaces, if_pos (by rw [maxStringSize]; omega)]
  rw [construct, toInt_eq (by omega), toSizeT_natCast (by omega), hspaces, pure_bind]
  exact ⟨_, rfl, rfl, List.length_replicate, le_rfl, by show (-1 : ℤ) < c; omega,
    Or.inl ⟨rfl, rfl⟩, rfl, rfl, rfl, rfl⟩

/-- A run from the constructor returns the specified observations and represents the specified
state. -/
theorem run_spec (hc : c ≤ 2 ^ 30) (ops : List Op) :
    ∃ s, run c ops = pure ((Fifo.run c ops).1, s) ∧ Represents s (Fifo.run c ops).2 := by
  obtain ⟨s₀, hs₀, hrep₀⟩ := construct_spec (c := c) (by omega)
  rw [run, hs₀, pure_bind]
  exact (step_simulates hc).run hrep₀ ops

/-- The two counters differ by the number of bytes held, whatever they have wrapped around. -/
theorem Represents.bufferSize_eq_szSub (hc : c < 2 ^ 31) (h : Represents s f) (hfits : s.Fits) :
    s.bufferSize = pure (szSub s.bytesWritten s.bytesRead) := by
  have hlen := f.length_le
  have hbal := f.balance
  rw [h.bufferSize_eq hc hfits, bytesWritten, bytesRead, h.cntWrite_eq, h.cntRead_eq, szSub]
  congr 1
  omega

/-- **The ring buffer refines the bounded FIFO**, over every run: each call returns what the
specification returns, every accessor answers as specified after each call and at the end, the final
ring stores the specified queue, and the two counters differ by the buffer's size modulo
`2 ^ 64`. -/
theorem run_refines_fifo (hc : c ≤ 2 ^ 30) (ops : List Op) :
    ∃ s, run c ops = pure ((Fifo.run c ops).1, s) ∧
      Represents s (Fifo.run c ops).2 ∧
      s.accessors = pure (Fifo.run c ops).2.accessors ∧
      s.bufferSize = pure (szSub s.bytesWritten s.bytesRead) := by
  obtain ⟨s, hs, hrep⟩ := run_spec hc ops
  have hlt : c < 2 ^ 31 := by omega
  exact ⟨s, hs, hrep, hrep.accessors_eq hlt (hrep.fits hc),
    hrep.bufferSize_eq_szSub hlt (hrep.fits hc)⟩

/-- The refinement at a run that fills a ring of two, pops one and wraps around. -/
theorem run_refines_fifo_wrapped :
    2 ≤ 2 ^ 30 ∧ ∃ s, run 2 [.write [99, 97, 116], .popOutput 1, .write [116, 97], .read 2] =
        pure ((Fifo.run 2 [.write [99, 97, 116], .popOutput 1, .write [116, 97], .read 2]).1, s) ∧
      s.Represents (Fifo.run 2 [.write [99, 97, 116], .popOutput 1, .write [116, 97], .read 2]).2 ∧
      s.accessors = pure
        (Fifo.run 2 [.write [99, 97, 116], .popOutput 1, .write [116, 97], .read 2]).2.accessors ∧
      s.bufferSize = pure (szSub s.bytesWritten s.bytesRead) :=
  ⟨by decide, run_refines_fifo (by decide) _⟩

end ByteStream
