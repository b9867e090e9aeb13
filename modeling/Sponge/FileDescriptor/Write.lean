import Sponge.Buffer.Views
import Sponge.FileDescriptor.Basic

/-!
# Writing loses, repeats and reorders nothing

Correctness of `FileDescriptor::write` against an adversarial kernel. Short writes may stop anywhere
in any segment, at every call; the loop invariant `Writing` joins the three levels: what the kernel
has taken, followed by what the views still denote, is the string of the buffer list, and the
program's total is the length of what was taken.

All arithmetic is exact here although sizes are `size_t`: a turn that goes on has checked that no
more was written than `buffer.size()`, so the size goes down by exactly what was taken, also if it
had wrapped around to begin with. It goes down by at least one, which bounds the number of calls.
-/

open Cpp

namespace WriteState

/-- The loop invariant of `write`, for a buffer list `b` and the wrapper `w` at the start. -/
structure Writing (b : BufferList) (w : FDWrapper) (s : WriteState) : Prop where
  /-- Nothing is lost, repeated or reordered. -/
  taken_append : s.taken ++ s.buffer.contents = b.concatenate
  length_add_size : s.taken.length + s.buffer.size = b.size
  total_eq : s.totalBytesWritten = s.taken.length
  wrapper_eq : s.wrapper = { w with writeCount := w.writeCount + UInt32.ofNat s.calls }

/-- What is promised of the result. -/
structure Written (b : BufferList) (w : FDWrapper) (writeAll : Bool)
    (res : Except Exn ℕ × WriteState) : Prop where
  calls_le : res.2.calls ≤ b.size + 1
  /-- On return the kernel has taken the first `r` bytes of the string. -/
  returned : ∀ r, res.1 = .ok r → r ≤ b.concatenate.length ∧
    res.2.taken = b.concatenate.take r ∧ (writeAll = true → r = b.size)
  /-- On an exception it has taken some prefix. -/
  threw : ∀ e, res.1 = .error e → res.2.taken <+: b.concatenate
  /-- The views are never asked to give up more than they have. -/
  not_outOfRange : res.1 ≠ .error (.outOfRange "BufferListView::remove_prefix")
  /-- The counter advances once for each turn that the answer did not end with an exception. -/
  count_returned : ∀ r, res.1 = .ok r →
    res.2.wrapper.writeCount = w.writeCount + UInt32.ofNat res.2.calls
  count_threw : ∀ e, res.1 = .error e → 0 < res.2.calls ∧
    res.2.wrapper.writeCount = w.writeCount + UInt32.ofNat (res.2.calls - 1)

variable {b : BufferList} {w : FDWrapper} {kernel : Writev} {writeAll : Bool} {s : WriteState}

/-! ### One turn -/

/-- The state after a turn that has taken `k` bytes and left the views `buffer`. -/
def advance (s : WriteState) (k : ℕ) (buffer : BufferViewList) : WriteState where
  buffer := buffer
  totalBytesWritten := szAdd s.totalBytesWritten k
  wrapper := s.wrapper.registerWrite
  calls := s.calls + 1
  taken := s.taken ++ s.buffer.contents.take k

theorem length_taken_advance {k : ℕ} (hle : k ≤ s.buffer.contents.length) (v : BufferViewList) :
    (s.advance k v).taken.length = s.taken.length + k := by
  show (s.taken ++ s.buffer.contents.take k).length = _
  rw [List.length_append, List.length_take, Nat.min_eq_left hle]

/-- A kernel that takes `k` bytes takes them from the string of the views. -/
theorem taken_afterCall_accepted (s : WriteState) (k : ℕ) :
    (s.afterCall (.accepted k)).taken = s.taken ++ s.buffer.contents.take k :=
  congrArg (fun bs : Bytes ↦ s.taken ++ bs.take k) s.buffer.iovecBytes_asIovecs

/-- What is made of an answer `k`: it is refused, or the views give it up. -/
theorem consume_cases (writeAll : Bool) (s : WriteState) {k : ℕ}
    (hle : k ≤ s.buffer.contents.length) (hlt : k < 2 ^ 31) :
    (∃ what, (s.afterCall (.accepted k)).consume writeAll (k : ℤ) =
      .done (.error (.runtimeError what), s.afterCall (.accepted k))) ∨
    ∃ v, k ≤ s.buffer.size ∧ (k = 0 → s.buffer.size = 0) ∧
      v.contents = s.buffer.contents.drop k ∧
      (s.afterCall (.accepted k)).consume writeAll (k : ℤ) =
        if writeAll ∧ v.size ≠ 0 then .next (s.advance k v)
        else .done (.ok (s.advance k v).totalBytesWritten, s.advance k v) := by
  rw [consume]
  by_cases hzero : (k : ℤ) = 0 ∧ (s.afterCall (.accepted k)).buffer.size ≠ 0
  · exact Or.inl ⟨_, by rw [if_pos hzero]⟩
  rw [if_neg hzero]
  by_cases hmore : (k : ℤ) > toSSizeT (s.afterCall (.accepted k)).buffer.size
  · exact Or.inl ⟨_, by rw [if_pos hmore]⟩
  rw [if_neg hmore]
  -- a size that is negative as an `ssize_t` is below every answer and has just been refused
  have hsize := s.buffer.size_lt
  have hssize : toSSizeT s.buffer.size ≤ s.buffer.size := toSSizeT_le hsize
  have hmore' : ¬ (k : ℤ) > toSSizeT s.buffer.size := hmore
  have hzero' : ¬ ((k : ℤ) = 0 ∧ s.buffer.size ≠ 0) := hzero
  obtain ⟨v, hok, hv⟩ := BufferViewList.removePrefix_of_le hle
  refine Or.inr ⟨v, by omega, by omega, hv, ?_⟩
  have hok' : (s.afterCall (.accepted k)).buffer.removePrefix k = .ok () v := hok
  simp only [toSizeT_natCast (show k < 2 ^ 64 by omega), hok', advance,
    ← taken_afterCall_accepted]
  rfl

/-- **Everything a turn can do**: the call fails; the answer is refused, for taking nothing from a
non-empty buffer or more than there is; or the views give up exactly what was taken, and the loop
goes on or returns. -/
theorem turn_cases (kernel : Writev) (writeAll : Bool) (s : WriteState) :
    (∃ e, turn kernel writeAll s =
      .done (.error (.unixError "writev" e), s.afterCall (.failed e))) ∨
    (∃ k what, turn kernel writeAll s =
      .done (.error (.runtimeError what), s.afterCall (.accepted k))) ∨
    ∃ k v, k ≤ s.buffer.size ∧ (k = 0 → s.buffer.size = 0) ∧ k ≤ s.buffer.contents.length ∧
      v.contents = s.buffer.contents.drop k ∧
      turn kernel writeAll s =
        if writeAll ∧ v.size ≠ 0 then .next (s.advance k v)
        else .done (.ok (s.advance k v).totalBytesWritten, s.advance k v) := by
  rcases ha : kernel.answer s.calls s.buffer.asIovecs with e | k
  · have he := kernel.errno_ne_zero _ _ _ ha
    have hcall : systemCall "writev" (narrowInt (-1)) e = throw (.unixError "writev" e) :=
      systemCall_of_neg _ (by decide) he
    refine Or.inl ⟨e, ?_⟩
    simp only [turn, ha, WritevAnswer.returnValue, WritevAnswer.errno, hcall]
    rfl
  · have hle : k ≤ s.buffer.contents.length :=
      s.buffer.iovecBytes_asIovecs ▸ kernel.accepted_le _ _ _ ha
    have hlt := kernel.accepted_lt _ _ _ ha
    -- the count is small enough for the `int` that it is passed on in
    have hcall : systemCall "writev" (narrowInt k) 0 = pure (k : ℤ) := by
      rw [narrowInt_eq ⟨by omega, by omega⟩]
      exact systemCall_of_nonneg _ _ (by omega)
    have hturn : turn kernel writeAll s =
        (s.afterCall (.accepted k)).consume writeAll (k : ℤ) := by
      simp only [turn, ha, WritevAnswer.returnValue, WritevAnswer.errno, hcall]
      rfl
    rw [hturn]
    rcases consume_cases writeAll s hle hlt with ⟨what, hwhat⟩ | ⟨v, hk, hzero, hv, hgo⟩
    · exact Or.inr (Or.inl ⟨k, what, hwhat⟩)
    · exact Or.inr (Or.inr ⟨k, v, hk, hzero, hle, hv, hgo⟩)

/-- The counter of the wrapper after one more turn. -/
theorem registerWrite_writeCount (w : FDWrapper) (n : ℕ) :
    FDWrapper.registerWrite { w with writeCount := w.writeCount + UInt32.ofNat n } =
      { w with writeCount := w.writeCount + UInt32.ofNat (n + 1) } := by
  have h : w.writeCount + UInt32.ofNat n + 1 = w.writeCount + UInt32.ofNat (n + 1) := by
    rw [UInt32.ofNat_add, ← UInt32.add_assoc]
    rfl
  rw [FDWrapper.registerWrite, ← h]

/-- **The invariant survives a turn** in which the views give up what was taken. -/
theorem Writing.advance (h : Writing b w s) {k : ℕ} {v : BufferViewList} (hk : k ≤ s.buffer.size)
    (hle : k ≤ s.buffer.contents.length) (hv : v.contents = s.buffer.contents.drop k) :
    Writing b w (s.advance k v) := by
  have hlen := h.length_add_size
  have hbound := BufferViewList.size_ofBufferList b ▸ (BufferViewList.ofBufferList b).size_lt
  have hsize : v.size + k = s.buffer.size := by
    rw [s.buffer.size_eq_mod] at hk ⊢
    rw [v.size_eq_mod, hv, List.length_drop]
    omega
  have htaken : (s.taken ++ s.buffer.contents.take k).length = s.taken.length + k :=
    length_taken_advance hle v
  constructor
  · show (s.taken ++ s.buffer.contents.take k) ++ v.contents = b.concatenate
    rw [hv, List.append_assoc, List.take_append_drop, h.taken_append]
  · show (s.taken ++ s.buffer.contents.take k).length + v.size = b.size
    omega
  · show szAdd s.totalBytesWritten k = (s.taken ++ s.buffer.contents.take k).length
    rw [htaken, h.total_eq, szAdd_eq (by omega)]
  · show s.wrapper.registerWrite =
      { w with writeCount := w.writeCount + UInt32.ofNat (s.calls + 1) }
    rw [h.wrapper_eq, registerWrite_writeCount]

/-- The kernel has taken a prefix, also by an answer that `write` then refuses. -/
theorem Writing.taken_prefix (h : Writing b w s) (answer : WritevAnswer) :
    (s.afterCall answer).taken <+: b.concatenate := by
  rw [← h.taken_append]
  cases answer with
  | failed e =>
    show s.taken ++ [] <+: _
    rw [List.append_nil]
    exact List.prefix_append _ _
  | accepted k =>
    rw [taken_afterCall_accepted]
    exact (List.prefix_append_right_inj _).2 (List.take_prefix _ _)

/-- An exception leaves the promise kept: the turn that throws has not been counted. -/
theorem Writing.written_of_error (h : Writing b w s) (hcalls : s.calls ≤ s.taken.length)
    (answer : WritevAnswer) {e : Exn} (he : e ≠ .outOfRange "BufferListView::remove_prefix") :
    Written b w writeAll (.error e, s.afterCall answer) where
  calls_le := by
    have := h.length_add_size
    show s.calls + 1 ≤ _
    omega
  returned _ hr := nomatch hr
  threw _ _ := h.taken_prefix answer
  not_outOfRange heq := he (Except.error.inj heq)
  count_returned _ hr := nomatch hr
  count_threw _ _ := ⟨Nat.succ_pos _, congrArg FDWrapper.writeCount h.wrapper_eq⟩

/-- A return keeps the promise. -/
theorem Writing.written_of_ok (h : Writing b w s) (hcalls : s.calls ≤ s.taken.length + 1)
    (hall : writeAll = true → s.buffer.size = 0) :
    Written b w writeAll (.ok s.totalBytesWritten, s) where
  calls_le := by
    have := h.length_add_size
    show s.calls ≤ _
    omega
  returned := by
    rintro r hr
    obtain rfl := Except.ok.inj hr
    have hlen := h.length_add_size
    refine ⟨?_, ?_, fun hw ↦ ?_⟩
    · rw [← h.taken_append, h.total_eq, List.length_append]
      exact Nat.le_add_right _ _
    · rw [← h.taken_append, h.total_eq, List.take_left]
    · rw [h.total_eq, ← hlen, hall hw, Nat.add_zero]
  threw _ he := nomatch he
  not_outOfRange heq := nomatch heq
  count_returned _ _ := congrArg FDWrapper.writeCount h.wrapper_eq
  count_threw _ he := nomatch he

/-- The invariant at the start. -/
theorem writing_start (w : FDWrapper) (b : BufferList) :
    Writing b w ⟨.ofBufferList b, 0, w, 0, []⟩ where
  taken_append := BufferViewList.contents_ofBufferList b
  length_add_size := by
    show 0 + (BufferViewList.ofBufferList b).size = b.size
    rw [Nat.zero_add, BufferViewList.size_ofBufferList]
  total_eq := rfl
  wrapper_eq := by
    show w = { w with writeCount := w.writeCount + 0 }
    rw [UInt32.add_zero]

/-- **A turn that goes on** has taken at least one byte, and so there is less to write. -/
theorem Writing.of_next {t : WriteState} (h : Writing b w s) (hcalls : s.calls ≤ s.taken.length)
    (hbody : turn kernel writeAll s = .next t) :
    (Writing b w t ∧ t.calls ≤ t.taken.length) ∧ t.buffer.size < s.buffer.size := by
  rcases turn_cases kernel writeAll s with ⟨e, hturn⟩ | ⟨k, what, hturn⟩ |
    ⟨k, v, hk, hzero, hle, hv, hturn⟩
  · exact absurd (hturn.symm.trans hbody) (by simp)
  · exact absurd (hturn.symm.trans hbody) (by simp)
  rw [hturn] at hbody
  split at hbody
  · rename_i hgo
    obtain rfl := Turn.next.inj hbody
    have hadv := h.advance hk hle hv
    have hlen := h.length_add_size
    have hlen' := hadv.length_add_size
    have htaken : (s.advance k v).taken.length = s.taken.length + k := length_taken_advance hle v
    have hsize : (s.advance k v).buffer.size ≠ 0 := hgo.2
    -- the views are not empty after the turn, nor were they before, and so `k` is not zero
    refine ⟨⟨hadv, ?_⟩, ?_⟩
    · show s.calls + 1 ≤ _
      omega
    · omega
  · exact absurd hbody (by simp)

/-- **A turn that ends the loop**, by an exception or a return, keeps the promise. -/
theorem Writing.of_done {res : Except Exn ℕ × WriteState} (h : Writing b w s)
    (hcalls : s.calls ≤ s.taken.length) (hbody : turn kernel writeAll s = .done res) :
    Written b w writeAll res := by
  rcases turn_cases kernel writeAll s with ⟨e, hturn⟩ | ⟨k, what, hturn⟩ |
    ⟨k, v, hk, -, hle, hv, hturn⟩
  · obtain rfl := Turn.done.inj (hturn.symm.trans hbody)
    exact h.written_of_error hcalls _ (by simp)
  · obtain rfl := Turn.done.inj (hturn.symm.trans hbody)
    exact h.written_of_error hcalls _ (by simp)
  rw [hturn] at hbody
  split at hbody
  · exact absurd hbody (by simp)
  · rename_i hstop
    obtain rfl := Turn.done.inj hbody
    have htaken : (s.advance k v).taken.length = s.taken.length + k := length_taken_advance hle v
    refine (h.advance hk hle hv).written_of_ok ?_ fun hw ↦ ?_
    · show s.calls + 1 ≤ _
      omega
    · by_contra hne
      exact hstop ⟨hw, hne⟩

/-! ### The loop -/

/-- **Writing is faithful and ends.** Against every kernel that keeps the contract of `writev(2)`,
for every buffer list and both modes, `b.size() + 1` turns are enough, and the result keeps the
promise `Written`. -/
theorem write_written (kernel : Writev) (w : FDWrapper) (b : BufferList) (writeAll : Bool)
    (fuel : ℕ) (hfuel : b.size < fuel) :
    ∃ res, w.write kernel (.ofBufferList b) writeAll fuel = some res ∧
      Written b w writeAll res := by
  refine loop_total (fun s ↦ Writing b w s ∧ s.calls ≤ s.taken.length) _
    (fun s ↦ s.buffer.size) ?_ ?_ ⟨writing_start w b, le_rfl⟩ ?_
  · rintro s t ⟨hinv, hcalls⟩ hbody
    exact hinv.of_next hcalls hbody
  · rintro s res ⟨hinv, hcalls⟩ hbody
    exact hinv.of_done hcalls hbody
  · show (BufferViewList.ofBufferList b).size < fuel
    rwa [BufferViewList.size_ofBufferList]

/-- A kernel that takes one byte a call. -/
def bytewise : Writev where
  answer _ v := .accepted (min 1 (iovecBytes v).length)
  errno_ne_zero _ _ _ h := nomatch h
  accepted_le := by
    rintro i v k h
    obtain rfl := WritevAnswer.accepted.inj h
    exact Nat.min_le_right _ _
  accepted_lt := by
    rintro i v k h
    obtain rfl := WritevAnswer.accepted.inj h
    omega

/-- Two bytes, a call, an empty segment and a third byte: four turns are enough. -/
theorem write_written_bytewise :
    let b : BufferList := ⟨[.ofString [1, 2], .default, .ofString [3]]⟩
    let w : FDWrapper := ⟨5, false, false, 0, 0⟩
    b.size < 4 ∧ ∃ res, w.write bytewise (.ofBufferList b) true 4 = some res ∧
      Written b w true res :=
  ⟨by decide, write_written bytewise _ _ true 4 (by decide)⟩

/-! ### What a call of `write` leaves alone -/

/-- The state at the end of a turn, whether or not the loop goes on. -/
def last {ρ : Type} : Turn WriteState (ρ × WriteState) → WriteState
  | .next s => s
  | .done r => r.2

/-- What is made of an answer changes neither what was taken nor, but for the counter, the
wrapper. -/
theorem last_consume (writeAll : Bool) (s : WriteState) (bytesWritten : ℤ) :
    (last (s.consume writeAll bytesWritten)).taken = s.taken ∧
      ∃ n, (last (s.consume writeAll bytesWritten)).wrapper =
        { s.wrapper with writeCount := n } := by
  rw [consume]
  split
  · exact ⟨rfl, _, rfl⟩
  split
  · exact ⟨rfl, _, rfl⟩
  dsimp only
  split
  · exact ⟨rfl, _, rfl⟩
  · split <;> exact ⟨rfl, _, rfl⟩

theorem last_turn (kernel : Writev) (writeAll : Bool) (s : WriteState) :
    (last (s.turn kernel writeAll)).taken =
        s.taken ++ (kernel.answer s.calls s.buffer.asIovecs).taken s.buffer.asIovecs ∧
      ∃ n, (last (s.turn kernel writeAll)).wrapper = { s.wrapper with writeCount := n } := by
  rw [turn]
  split
  · exact ⟨rfl, _, rfl⟩
  · exact last_consume _ _ _

/-- The result of `write` does not depend on the fuel, and of the wrapper only the counter has
changed. -/
theorem exists_written (kernel : Writev) (w : FDWrapper) (b : BufferList) (writeAll : Bool) :
    ∃ res, (∀ fuel, b.size < fuel → w.write kernel (.ofBufferList b) writeAll fuel = some res) ∧
      Written b w writeAll res ∧ ∃ n, res.2.wrapper = { w with writeCount := n } := by
  obtain ⟨res, hloop, hres⟩ : ∃ res, w.write kernel (.ofBufferList b) writeAll (b.size + 1) =
      some res ∧ Written b w writeAll res ∧ ∃ n, res.2.wrapper = { w with writeCount := n } := by
    refine loop_total (fun s ↦ Writing b w s ∧ s.calls ≤ s.taken.length)
      (fun res ↦ Written b w writeAll res ∧ ∃ n, res.2.wrapper = { w with writeCount := n })
      (fun s ↦ s.buffer.size) ?_ ?_ ⟨writing_start w b, le_rfl⟩ ?_
    · rintro s t ⟨hinv, hcalls⟩ hbody
      exact hinv.of_next hcalls hbody
    · rintro s res ⟨hinv, hcalls⟩ hbody
      obtain ⟨n, hn⟩ := (last_turn kernel writeAll s).2
      rw [hbody, hinv.wrapper_eq] at hn
      exact ⟨hinv.of_done hcalls hbody, n, hn⟩
    · show (BufferViewList.ofBufferList b).size < b.size + 1
      rw [BufferViewList.size_ofBufferList]
      exact Nat.lt_succ_self _
  exact ⟨res, fun fuel hfuel ↦ loop_mono hfuel hloop, hres⟩

end WriteState
