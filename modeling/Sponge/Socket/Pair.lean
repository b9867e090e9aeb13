import Mathlib.Data.List.Basic
import Sponge.FileDescriptor.Read
import Sponge.FileDescriptor.Write
import Sponge.Lib.Machine

/-!
# A pair of connected stream sockets

Two ends of a stream, each used by a program of its own: the calls of `write`, `read`, `shutdown`
and `close` at the two ends interleave in any order. A blocking `write` is not one step but a loop
of calls of `writev(2)`, so the other end can run between any two of its turns; within an end a call
starts only when the one before it has returned.

The kernel is that of a local stream pair, and is as adversarial as the calls allow. It takes any
part of what a `writev` hands over, returns any non-empty part of what has arrived, and may let any
call fail. What it must not do is stated as the guard of each step: it does not accept bytes at an
end that has finished, it returns bytes in the order in which they were accepted, and **it reports
the end of the stream only when nothing is left** and the other end has finished, or the reader
itself has turned reading off.

The theorem says what the two programs can rely on. At every moment, what one end has read is a
prefix of what the other end has written, call by call in the order of the calls; and an end of file
that the reader did not bring about itself means that everything has been read.
-/

open Cpp Machine

/-! ### The calls of a socket -/

namespace FDWrapper

/-- `FileDescriptor::close()`, with what `::close` returns. -/
def close (w : FDWrapper) (returnValue errno : ℤ) : EStateM.Result Exn FDWrapper Unit :=
  match systemCall "close" returnValue errno with
  | .error e => .error e w
  | .ok _ => .ok () { w with eof := true, closed := true }

def shutRd : ℤ := 0

def shutWr : ℤ := 1

def shutRdwr : ℤ := 2

/-- `Socket::shutdown(const int how)`, with what `::shutdown` returns. -/
def shutdown (w : FDWrapper) (how returnValue errno : ℤ) : EStateM.Result Exn FDWrapper Unit :=
  match systemCall "shutdown" returnValue errno with
  | .error e => .error e w
  | .ok _ =>
    if how = shutRd then .ok () w.registerRead
    else if how = shutWr then .ok () w.registerWrite
    else if how = shutRdwr then .ok () w.registerRead.registerWrite
    else .error (.runtimeError "Socket::shutdown() called with invalid `how`") w

/-- The wrapper that a call leaves, also if it throws. -/
def left {α : Type} : EStateM.Result Exn FDWrapper α → FDWrapper
  | .ok _ w => w
  | .error _ w => w

/-- Shutting down is registered as reading or writing, but it is not an end of file. -/
theorem eof_left_shutdown (w : FDWrapper) (how returnValue errno : ℤ) :
    (left (w.shutdown how returnValue errno)).eof = w.eof := by
  rw [shutdown]
  split
  · rfl
  split
  · rfl
  split
  · rfl
  split <;> rfl

end FDWrapper

/-! ### The two ends -/

inductive Side where
  | left
  | right
  deriving DecidableEq, Repr

def Side.other : Side → Side
  | left => right
  | right => left

@[simp] theorem Side.other_other (d : Side) : d.other.other = d := by cases d <;> rfl

theorem Side.other_ne (d : Side) : d.other ≠ d := by cases d <;> simp [Side.other]

/-- The arguments of a call of `write`, and the wrapper as the call found it. -/
structure WriteCall where
  payload : BufferList
  writeAll : Bool
  before : FDWrapper

/-- One end: the program's part and the kernel's. -/
structure Endpoint where
  wrapper : FDWrapper
  /-- The call of `write` that has not returned yet. -/
  pending : Option (WriteCall × WriteState)
  /-- The calls of `write` that have ended, with how they did. -/
  written : List (WriteCall × Except Exn ℕ × WriteState)
  /-- The strings that `read` has returned. -/
  reads : List Bytes
  /-- What has been accepted at the other end and not been read. -/
  inbox : Bytes
  /-- Writing has been shut down. -/
  finished : Bool
  /-- Reading has been shut down. -/
  deaf : Bool
  /-- The descriptor has been closed. -/
  gone : Bool

namespace Endpoint

/-- An end that has just been opened. -/
def fresh (w : FDWrapper) : Endpoint := ⟨w, none, [], [], [], false, false, false⟩

/-- What the kernel has accepted from the call that has not returned. -/
def unreturned (e : Endpoint) : Bytes := (e.pending.map fun p ↦ p.2.taken).getD []

/-- Everything the kernel has accepted from this end. -/
def sent (e : Endpoint) : Bytes := (e.written.flatMap fun r ↦ r.2.2.taken) ++ e.unreturned

/-- What `read` has returned so far. -/
def received (e : Endpoint) : Bytes := e.reads.flatten

/-! ### The steps -/

/-- A step at one end, with the answers of the kernel. -/
inductive SocketCall where
  /-- Enter `write`. -/
  | write (payload : BufferList) (writeAll : Bool)
  /-- The next turn of the loop in `write`. -/
  | writev (kernel : Writev)
  | read (limit : ℕ) (answer : ReadAnswer)
  /-- `report` is the `errno`, if the kernel refuses. -/
  | shutdown (how : ℤ) (report : Option ℤ)
  /-- `report` is the `errno`, if the kernel reports one; it closes the descriptor anyway. -/
  | close (report : Option ℤ)

/-- The guard of an answer to `writev`: nothing is accepted at an end that has finished. -/
def Accepts (e : Endpoint) : WritevAnswer → Prop
  | .failed _ => True
  | .accepted _ => e.finished = false

instance (e : Endpoint) (answer : WritevAnswer) : Decidable (e.Accepts answer) :=
  match answer with
  | .failed _ => isTrue trivial
  | .accepted _ => inferInstanceAs (Decidable (e.finished = false))

/-- The guard of an answer to a `read` of at most `size` bytes. -/
def Returns (e peer : Endpoint) (size : ℕ) : ReadAnswer → Prop
  | .failed errno => errno ≠ 0
  | .returned data =>
    data <+: e.inbox ∧ data.length ≤ size ∧
      (data = [] → 0 < size → e.inbox = [] ∧ (peer.finished ∨ e.deaf))

instance (e peer : Endpoint) (size : ℕ) (answer : ReadAnswer) :
    Decidable (e.Returns peer size answer) :=
  match answer with
  | .failed errno => inferInstanceAs (Decidable (errno ≠ 0))
  | .returned data => inferInstanceAs (Decidable (data <+: e.inbox ∧ data.length ≤ size ∧
      (data = [] → 0 < size → e.inbox = [] ∧ (peer.finished ∨ e.deaf))))

/-- What `::shutdown` returns: it refuses a `how` that it does not know. -/
def shutdownAnswer (how : ℤ) (report : Option ℤ) : ℤ × ℤ :=
  if how < FDWrapper.shutRd ∨ FDWrapper.shutRdwr < how then (-1, 22) else statusAnswer report

/-- The end after entering `write`. -/
def enterWrite (e : Endpoint) (payload : BufferList) (writeAll : Bool) : Endpoint :=
  let start : WriteState := ⟨.ofBufferList payload, 0, e.wrapper, 0, []⟩
  { e with pending := some (⟨payload, writeAll, e.wrapper⟩, start) }

/-- The end after a turn of `write`. -/
def afterTurn (e : Endpoint) (call : WriteCall) :
    Turn WriteState (Except Exn ℕ × WriteState) → Endpoint
  | .next t => { e with wrapper := t.wrapper, pending := some (call, t) }
  | .done res =>
    { e with wrapper := res.2.wrapper, pending := none, written := e.written ++ [(call, res)] }

/-- The kernel delivers to an end that is still there. -/
def deliver (e : Endpoint) (data : Bytes) : Endpoint :=
  if e.gone then e else { e with inbox := e.inbox ++ data }

/-- The end after a `read` that has returned `data`. -/
def afterRead (e : Endpoint) (w : FDWrapper) (data : Bytes) : Endpoint :=
  { e with wrapper := w, reads := e.reads ++ [data], inbox := e.inbox.drop data.length }

/-- One step at the end `e`, whose other end is `peer`; `none` if it cannot be taken. A call that
throws leaves what it had done by then. -/
def act (e peer : Endpoint) : SocketCall → Option (Endpoint × Endpoint)
  | .write payload writeAll =>
    if e.gone ∨ e.pending.isSome then none
    else some (e.enterWrite payload writeAll, peer)
  | .writev kernel =>
    match e.pending with
    | none => none
    | some (call, s) =>
      let answer := kernel.answer s.calls s.buffer.asIovecs
      if e.Accepts answer then
        some (e.afterTurn call (s.turn kernel call.writeAll),
          peer.deliver (answer.taken s.buffer.asIovecs))
      else none
  | .read limit answer =>
    if e.gone ∨ e.pending.isSome ∨ ¬ e.Returns peer (FDWrapper.sizeToRead limit) answer then none
    else
      match e.wrapper.read limit answer with
      | .error _ w => some ({ e with wrapper := w }, peer)
      | .ok data w => some (e.afterRead w data, peer)
  | .shutdown how report =>
    if e.gone ∨ e.pending.isSome ∨ report = some 0 then none
    else
      let (returnValue, errno) := shutdownAnswer how report
      match e.wrapper.shutdown how returnValue errno with
      | .error _ w => some ({ e with wrapper := w }, peer)
      | .ok _ w => some
        ({ e with
          wrapper := w
          finished := e.finished || how != FDWrapper.shutRd
          deaf := e.deaf || how != FDWrapper.shutWr }, peer)
  | .close report =>
    if e.gone ∨ e.pending.isSome ∨ report = some 0 then none
    else
      let (returnValue, errno) := statusAnswer report
      let e := { e with inbox := [], finished := true, deaf := true, gone := true }
      match e.wrapper.close returnValue errno with
      | .error _ w => some ({ e with wrapper := w }, peer)
      | .ok _ w => some ({ e with wrapper := w }, peer)

/-! ### One turn of `write` -/

open WriteState (last last_turn)

theorem afterTurn_eq (e : Endpoint) (call : WriteCall)
    (t : Turn WriteState (Except Exn ℕ × WriteState)) :
    ∃ pending written, e.afterTurn call t =
      { e with wrapper := (last t).wrapper, pending, written } := by
  cases t <;> exact ⟨_, _, rfl⟩

/-- What is sent grows by what the kernel takes. -/
theorem sent_afterTurn {e : Endpoint} {call : WriteCall} {s : WriteState}
    (hpending : e.pending = some (call, s)) (t : Turn WriteState (Except Exn ℕ × WriteState))
    {data : Bytes} (htaken : (last t).taken = s.taken ++ data) :
    (e.afterTurn call t).sent = e.sent ++ data := by
  have hsent : e.sent = (e.written.flatMap fun r ↦ r.2.2.taken) ++ s.taken := by
    rw [sent, unreturned, hpending]
    rfl
  rw [hsent, List.append_assoc, ← htaken]
  cases t with
  | next t => rfl
  | done res =>
    show ((e.written ++ [(call, res)]).flatMap fun r ↦ r.2.2.taken) ++ [] = _
    rw [List.append_nil, List.flatMap_append, List.flatMap_singleton]
    rfl

/-! ### What a step does -/

variable {e peer e' peer' : Endpoint} {call : SocketCall}

/-- **Everything a step can do.** A call that fails, or that turns off a direction, changes only the
wrapper and the two flags. -/
theorem act_cases (h : act e peer call = some (e', peer')) :
    (∃ payload writeAll, e.gone = false ∧ e.pending = none ∧
      e' = e.enterWrite payload writeAll ∧ peer' = peer) ∨
    (∃ kernel c s, e.pending = some (c, s) ∧
      e.Accepts (kernel.answer s.calls s.buffer.asIovecs) ∧
      e' = e.afterTurn c (s.turn kernel c.writeAll) ∧
      peer' = peer.deliver ((kernel.answer s.calls s.buffer.asIovecs).taken s.buffer.asIovecs)) ∨
    (∃ limit data, e.gone = false ∧ e.pending = none ∧
      e.Returns peer (FDWrapper.sizeToRead limit) (.returned data) ∧
      e' = e.afterRead (e.wrapper.afterRead limit data) data ∧ peer' = peer) ∨
    (∃ w finished deaf, e.gone = false ∧ e.pending = none ∧ w.eof = e.wrapper.eof ∧
      (e.finished = true → finished = true) ∧ (e.deaf = true → deaf = true) ∧
      e' = { e with wrapper := w, finished, deaf } ∧ peer' = peer) ∨
    ∃ w, e.gone = false ∧ e.pending = none ∧ peer' = peer ∧
      e' = { e with wrapper := w, inbox := [], finished := true, deaf := true, gone := true } := by
  cases call with
  | write payload writeAll =>
    rw [act] at h
    split at h
    · exact absurd h (by simp)
    · rename_i hfree
      obtain ⟨rfl, rfl⟩ := Prod.mk.inj (Option.some.inj h)
      exact Or.inl ⟨payload, writeAll, by simp_all, by simp_all, rfl, rfl⟩
  | writev kernel =>
    rw [act] at h
    split at h
    · exact absurd h (by simp)
    rename_i c s hpending
    dsimp only at h
    split at h
    · rename_i haccepts
      obtain ⟨rfl, rfl⟩ := Prod.mk.inj (Option.some.inj h)
      exact Or.inr (Or.inl ⟨kernel, c, s, hpending, haccepts, rfl, rfl⟩)
    · exact absurd h (by simp)
  | read limit answer =>
    rw [act] at h
    split at h
    · exact absurd h (by simp)
    rename_i hfree
    have hgone : e.gone = false := by simp_all
    have hpending : e.pending = none := by simp_all
    have hreturns : e.Returns peer (FDWrapper.sizeToRead limit) answer := by simp_all
    cases answer with
    | failed errno =>
      rw [FDWrapper.read_of_failed hreturns] at h
      obtain ⟨rfl, rfl⟩ := Prod.mk.inj (Option.some.inj h)
      exact Or.inr (Or.inr (Or.inr (Or.inl
        ⟨e.wrapper, e.finished, e.deaf, hgone, hpending, rfl, id, id, rfl, rfl⟩)))
    | returned data =>
      rw [FDWrapper.read_of_returned hreturns.2.1] at h
      obtain ⟨rfl, rfl⟩ := Prod.mk.inj (Option.some.inj h)
      exact Or.inr (Or.inr (Or.inl ⟨limit, data, hgone, hpending, hreturns, rfl, rfl⟩))
  | shutdown how report =>
    rw [act] at h
    split at h
    · exact absurd h (by simp)
    rename_i hfree
    have hgone : e.gone = false := by simp_all
    have hpending : e.pending = none := by simp_all
    refine Or.inr (Or.inr (Or.inr (Or.inl ?_)))
    dsimp only at h
    generalize (shutdownAnswer how report).1 = returnValue, (shutdownAnswer how report).2 = errno
      at h
    have heof := e.wrapper.eof_left_shutdown how returnValue errno
    rcases hw : e.wrapper.shutdown how returnValue errno with ⟨_, w⟩ | ⟨_, w⟩
    · rw [hw] at h heof
      obtain ⟨rfl, rfl⟩ := Prod.mk.inj (Option.some.inj h)
      exact ⟨w, _, _, hgone, hpending, heof, by simp_all, by simp_all, rfl, rfl⟩
    · rw [hw] at h heof
      obtain ⟨rfl, rfl⟩ := Prod.mk.inj (Option.some.inj h)
      exact ⟨w, e.finished, e.deaf, hgone, hpending, heof, id, id, rfl, rfl⟩
  | close report =>
    rw [act] at h
    split at h
    · exact absurd h (by simp)
    rename_i hfree
    have hgone : e.gone = false := by simp_all
    have hpending : e.pending = none := by simp_all
    refine Or.inr (Or.inr (Or.inr (Or.inr ?_)))
    dsimp only at h
    split at h
    · obtain ⟨rfl, rfl⟩ := Prod.mk.inj (Option.some.inj h)
      exact ⟨_, hgone, hpending, rfl, rfl⟩
    · obtain ⟨rfl, rfl⟩ := Prod.mk.inj (Option.some.inj h)
      exact ⟨_, hgone, hpending, rfl, rfl⟩

/-! ### The invariant -/

/-- What holds of an end by itself. -/
structure Sound (e : Endpoint) : Prop where
  /-- A call of `write` that has ended has kept its promise. -/
  written : ∀ r ∈ e.written, WriteState.Written r.1.payload r.1.before r.1.writeAll r.2
  pending : ∀ c s, e.pending = some (c, s) →
    WriteState.Writing c.payload c.before s ∧ s.calls ≤ s.taken.length ∧ s.wrapper = e.wrapper
  deaf_of_gone : e.gone = true → e.deaf = true

/-- What holds of the bytes on their way from `src` to `dst`. -/
structure Carries (src dst : Endpoint) : Prop where
  /-- Nothing is lost, repeated or reordered. -/
  kept : dst.gone = false → dst.received ++ dst.inbox = src.sent
  received_prefix : dst.received <+: src.sent
  /-- The end of the stream is not seen early. -/
  at_end : dst.wrapper.eof = true → dst.deaf = false → src.finished = true ∧ dst.inbox = []

theorem sound_fresh (w : FDWrapper) : (fresh w).Sound where
  written _ hr := absurd hr List.not_mem_nil
  pending _ _ h := absurd h (by simp [fresh])
  deaf_of_gone h := absurd h (by simp [fresh])

theorem carries_fresh (w : FDWrapper) {v : FDWrapper} (hv : v.eof = false) :
    (fresh w).Carries (fresh v) where
  kept _ := rfl
  received_prefix := List.nil_prefix
  at_end h := absurd (hv.symm.trans h) (by simp)

theorem sent_deliver (e : Endpoint) (data : Bytes) : (e.deliver data).sent = e.sent := by
  rw [deliver]
  split <;> rfl

theorem finished_deliver (e : Endpoint) (data : Bytes) :
    (e.deliver data).finished = e.finished := by
  rw [deliver]
  split <;> rfl

theorem sound_deliver (h : peer.Sound) (data : Bytes) : (peer.deliver data).Sound := by
  rw [deliver]
  split
  · exact h
  · exact ⟨h.written, h.pending, h.deaf_of_gone⟩

/-- The part of an end that its own calls do not touch. -/
theorem Carries.congr_src {src src' dst : Endpoint} (h : src.Carries dst)
    (hsent : src'.sent = src.sent) (hfin : src.finished = true → src'.finished = true) :
    src'.Carries dst where
  kept := by rw [hsent]; exact h.kept
  received_prefix := by rw [hsent]; exact h.received_prefix
  at_end heof hdeaf := ⟨hfin (h.at_end heof hdeaf).1, (h.at_end heof hdeaf).2⟩

/-- The bytes that the kernel takes from `src` are delivered to `dst`. -/
theorem Carries.accept {src src' dst : Endpoint} (h : src.Carries dst) {data : Bytes}
    (hsent : src'.sent = src.sent ++ data) (hfin : src'.finished = src.finished)
    (hdata : src.finished = true → data = []) : src'.Carries (dst.deliver data) := by
  rcases hgone : dst.gone with - | -
  · have hkept := h.kept hgone
    rw [deliver, hgone, if_neg Bool.false_ne_true]
    constructor
    · intro _
      show dst.received ++ (dst.inbox ++ data) = _
      rw [hsent, ← hkept, List.append_assoc]
    · exact hsent ▸ h.received_prefix.trans (List.prefix_append _ _)
    · intro heof hdeaf
      obtain ⟨hfinished, hinbox⟩ := h.at_end heof hdeaf
      refine ⟨hfin.trans hfinished, ?_⟩
      show dst.inbox ++ data = []
      rw [hinbox, hdata hfinished, List.append_nil]
  · rw [deliver, hgone, if_pos rfl]
    refine ⟨fun hg ↦ absurd (hgone.symm.trans hg) (by simp),
      hsent ▸ h.received_prefix.trans (List.prefix_append _ _), fun heof hdeaf ↦ ?_⟩
    obtain ⟨hfinished, hinbox⟩ := h.at_end heof hdeaf
    exact ⟨hfin.trans hfinished, hinbox⟩

/-- The bytes that `dst` reads are the first that have been accepted and not been read. -/
theorem Carries.read {src dst : Endpoint} (h : src.Carries dst) (hgone : dst.gone = false)
    {limit : ℕ} {data : Bytes}
    (hreturns : dst.Returns src (FDWrapper.sizeToRead limit) (.returned data)) :
    src.Carries (dst.afterRead (dst.wrapper.afterRead limit data) data) := by
  obtain ⟨⟨rest, hrest⟩, -, hempty⟩ := hreturns
  have hreceived : (dst.afterRead (dst.wrapper.afterRead limit data) data).received =
      dst.received ++ data := by
    show (dst.reads ++ [data]).flatten = _
    rw [List.flatten_append, List.flatten_singleton]
    rfl
  have hinbox : dst.inbox.drop data.length = rest := by rw [← hrest, List.drop_left]
  have hkept : dst.received ++ (data ++ rest) = src.sent := by rw [hrest, h.kept hgone]
  refine ⟨fun _ ↦ ?_, ?_, fun heof hdeaf ↦ ?_⟩
  · rw [hreceived, List.append_assoc, ← hkept]
    exact congrArg (fun bs ↦ dst.received ++ (data ++ bs)) hinbox
  · rw [hreceived, ← hkept, ← List.append_assoc]
    exact List.prefix_append _ _
  · have heof' : (dst.wrapper.eof || (decide (0 < limit) && data.isEmpty)) = true := heof
    have hdeaf' : dst.deaf = false := hdeaf
    show src.finished = true ∧ dst.inbox.drop data.length = []
    rcases Bool.or_eq_true_iff.1 heof' with hold | hnew
    · obtain ⟨hfin, hnil⟩ := h.at_end hold hdeaf'
      exact ⟨hfin, by rw [hnil, List.drop_nil]⟩
    · -- this call has found the end of the stream
      obtain ⟨hlimit, hdata⟩ := Bool.and_eq_true_iff.1 hnew
      have hsize : 0 < FDWrapper.sizeToRead limit := by
        rw [FDWrapper.sizeToRead, FDWrapper.bufferSize]
        have := of_decide_eq_true hlimit
        omega
      obtain ⟨hnil, hfin⟩ := hempty (List.isEmpty_iff.1 hdata) hsize
      refine ⟨hfin.resolve_right ?_, by rw [hnil, List.drop_nil]⟩
      rw [hdeaf']
      exact Bool.false_ne_true

theorem Sound.step (he : e.Sound) (h : act e peer call = some (e', peer')) (hp : peer.Sound) :
    e'.Sound ∧ peer'.Sound := by
  rcases act_cases h with ⟨payload, writeAll, hgone, -, rfl, rfl⟩ |
    ⟨kernel, c, s, hpending, -, rfl, rfl⟩ | ⟨limit, data, -, hpending, -, rfl, rfl⟩ |
    ⟨w, f, g, -, hpending, -, -, hdeaf, rfl, rfl⟩ | ⟨w, -, hpending, rfl, rfl⟩
  · refine ⟨⟨he.written, ?_, he.deaf_of_gone⟩, hp⟩
    intro c s hs
    obtain ⟨rfl, rfl⟩ := Prod.mk.inj (Option.some.inj hs)
    exact ⟨WriteState.writing_start _ _, le_rfl, rfl⟩
  · refine ⟨?_, sound_deliver hp _⟩
    obtain ⟨hwriting, hcalls, -⟩ := he.pending c s hpending
    rcases ht : s.turn kernel c.writeAll with t | res
    · refine ⟨he.written, ?_, he.deaf_of_gone⟩
      intro c' t' ht'
      obtain ⟨rfl, rfl⟩ := Prod.mk.inj (Option.some.inj ht')
      obtain ⟨⟨hnext, hcalls'⟩, -⟩ := hwriting.of_next hcalls ht
      exact ⟨hnext, hcalls', rfl⟩
    · refine ⟨?_, fun _ _ hnone ↦ absurd hnone (by simp [afterTurn]), he.deaf_of_gone⟩
      intro r hr
      rcases List.mem_append.1 hr with hr | hr
      · exact he.written r hr
      · obtain rfl := List.mem_singleton.1 hr
        exact hwriting.of_done hcalls ht
  · exact ⟨⟨he.written, fun _ _ hs ↦ absurd (hpending.symm.trans hs) (by simp),
      he.deaf_of_gone⟩, hp⟩
  · exact ⟨⟨he.written, fun _ _ hs ↦ absurd (hpending.symm.trans hs) (by simp),
      fun hg ↦ hdeaf (he.deaf_of_gone hg)⟩, hp⟩
  · exact ⟨⟨he.written, fun _ _ hs ↦ absurd (hpending.symm.trans hs) (by simp),
      fun _ ↦ rfl⟩, hp⟩

/-- **The bytes from an end that takes a step** to the other end. -/
theorem Carries.step_src (hc : e.Carries peer) (h : act e peer call = some (e', peer')) :
    e'.Carries peer' := by
  rcases act_cases h with ⟨payload, writeAll, -, hnone, rfl, rfl⟩ |
    ⟨kernel, c, s, hpending, haccepts, rfl, rfl⟩ | ⟨limit, data, -, hnone, -, rfl, rfl⟩ |
    ⟨w, f, g, -, hnone, -, hfin, -, rfl, rfl⟩ | ⟨w, -, hnone, rfl, rfl⟩
  · refine hc.congr_src ?_ id
    show (e.written.flatMap fun r ↦ r.2.2.taken) ++ [] = _
    rw [sent, unreturned, hnone]
    rfl
  · have hsent := sent_afterTurn hpending _ (last_turn kernel c.writeAll s).1
    obtain ⟨pending, written, heq⟩ := e.afterTurn_eq c (s.turn kernel c.writeAll)
    have hfin : (e.afterTurn c (s.turn kernel c.writeAll)).finished = e.finished := by rw [heq]
    refine hc.accept hsent hfin fun hfinished ↦ ?_
    -- an end that has finished gets its calls refused, and then nothing was taken
    rcases hanswer : kernel.answer s.calls s.buffer.asIovecs with errno | k
    · rfl
    · rw [hanswer] at haccepts
      exact absurd (hfinished.symm.trans haccepts) (by simp)
  · exact hc.congr_src rfl id
  · exact hc.congr_src rfl hfin
  · exact hc.congr_src rfl fun _ ↦ rfl

/-- **The bytes to an end that takes a step.** -/
theorem Carries.step_dst (hc : peer.Carries e) (h : act e peer call = some (e', peer'))
    (he : e.Sound) : peer'.Carries e' := by
  rcases act_cases h with ⟨payload, writeAll, -, hnone, rfl, rfl⟩ |
    ⟨kernel, c, s, hpending, haccepts, rfl, rfl⟩ | ⟨limit, data, hgone, hnone, hreturns, rfl, rfl⟩ |
    ⟨w, f, g, -, hnone, heof, -, hdeaf, rfl, rfl⟩ | ⟨w, -, hnone, rfl, rfl⟩
  · exact ⟨hc.kept, hc.received_prefix, hc.at_end⟩
  · obtain ⟨pending, written, heq⟩ := e.afterTurn_eq c (s.turn kernel c.writeAll)
    have heof : (last (s.turn kernel c.writeAll)).wrapper.eof = e.wrapper.eof := by
      obtain ⟨n, hn⟩ := (last_turn kernel c.writeAll s).2
      rw [hn, (he.pending c s hpending).2.2]
    have hsrc := hc.congr_src (sent_deliver peer
      ((kernel.answer s.calls s.buffer.asIovecs).taken s.buffer.asIovecs))
      (finished_deliver peer _).trans
    rw [heq]
    exact ⟨hsrc.kept, hsrc.received_prefix, fun h ↦ hsrc.at_end (heof.symm.trans h)⟩
  · exact hc.read hgone hreturns
  · refine ⟨hc.kept, hc.received_prefix, fun h hd ↦ hc.at_end (heof.symm.trans h) ?_⟩
    exact Bool.eq_false_iff.2 fun htrue ↦ absurd ((hdeaf htrue).symm.trans hd) (by simp)
  · exact ⟨fun hg ↦ absurd hg (by simp), hc.received_prefix, fun _ hd ↦ absurd hd (by simp)⟩

end Endpoint

/-! ### Runs of the pair -/

/-- The two ends. -/
abbrev Pair := Side → Endpoint

namespace Pair

open Endpoint

/-- The pair after an end has acted, with the other end as the call left it. -/
def put (s : Pair) (d : Side) (ends : Endpoint × Endpoint) : Pair :=
  Function.update (Function.update s d ends.1) d.other ends.2

/-- One step of the pair. -/
def step (s : Pair) (op : Side × SocketCall) : Option Pair :=
  (act (s op.1) (s op.1.other) op.2).map (s.put op.1)

/-- A pair that has just been opened. -/
def start (w : Side → FDWrapper) : Pair := fun d ↦ fresh (w d)

/-- The invariant. -/
structure Inv (s : Pair) : Prop where
  sound : ∀ d, (s d).Sound
  carries : ∀ d, (s d).Carries (s d.other)

theorem put_self (s : Pair) (d : Side) (ends : Endpoint × Endpoint) : s.put d ends d = ends.1 := by
  rw [put, Function.update_of_ne d.other_ne.symm, Function.update_self]

theorem put_other (s : Pair) (d : Side) (ends : Endpoint × Endpoint) :
    s.put d ends d.other = ends.2 :=
  Function.update_self _ _ _

theorem Inv.step {s s' : Pair} {op : Side × SocketCall} (h : s.Inv) (hstep : s.step op = some s') :
    s'.Inv := by
  obtain ⟨d, call⟩ := op
  obtain ⟨⟨e, p⟩, hact, rfl⟩ := Option.map_eq_some_iff.1 hstep
  have hback : (s d.other).Carries (s d) := by
    have := h.carries d.other
    rwa [Side.other_other] at this
  obtain ⟨he, hp⟩ := (h.sound d).step hact (h.sound d.other)
  have hsrc := (h.carries d).step_src hact
  have hdst := hback.step_dst hact (h.sound d)
  -- a side is the one that has acted or the other one
  have hside : ∀ d', d' = d ∨ d' = d.other := by
    intro d'
    cases d <;> cases d' <;> simp [Side.other]
  constructor
  · intro d'
    rcases hside d' with rfl | rfl
    · rwa [put_self]
    · rwa [put_other]
  · intro d'
    rcases hside d' with rfl | rfl
    · rwa [put_self, put_other]
    · rwa [Side.other_other, put_self, put_other]

/-- A call of `write` that was asked for everything, returned, and had a payload whose length is a
`size_t`. -/
def Complete (r : WriteCall × Except Exn ℕ × WriteState) : Prop :=
  r.1.writeAll = true ∧ (∃ n, r.2.1 = .ok n) ∧ r.1.payload.concatenate.length < 2 ^ 64

/-- **What the programs can rely on**, for the bytes from `src` to `dst`. -/
structure Delivered (src dst : Endpoint) : Prop where
  /-- Of each call of `write` that has ended, the kernel has taken what the call says. -/
  written : ∀ r ∈ src.written, WriteState.Written r.1.payload r.1.before r.1.writeAll r.2
  received_prefix : dst.received <+: src.sent
  /-- As long as the reader is there, nothing is lost. -/
  kept : dst.gone = false → dst.received ++ dst.inbox = src.sent
  /-- An end of file that the reader has not brought about itself means that everything has been
  read, and that nothing will follow. -/
  at_end : dst.wrapper.eof = true → dst.deaf = false →
    src.finished = true ∧ dst.received = src.sent
  payloads : dst.wrapper.eof = true → dst.deaf = false → src.pending = none →
    (∀ r ∈ src.written, Complete r) →
    dst.received = src.written.flatMap fun r ↦ r.1.payload.concatenate

/-- From a call that is complete, the kernel has taken the payload. -/
theorem taken_of_complete {r : WriteCall × Except Exn ℕ × WriteState}
    (hw : WriteState.Written r.1.payload r.1.before r.1.writeAll r.2) (h : Complete r) :
    r.2.2.taken = r.1.payload.concatenate := by
  obtain ⟨hall, ⟨n, hn⟩, hlen⟩ := h
  obtain ⟨-, htaken, hsize⟩ := hw.returned n hn
  rw [htaken, hsize hall, BufferList.size_eq hlen, List.take_length]

theorem Inv.delivered {s : Pair} (h : s.Inv) (d : Side) : Delivered (s d) (s d.other) := by
  have hc := h.carries d
  have hend : (s d.other).wrapper.eof = true → (s d.other).deaf = false →
      (s d).finished = true ∧ (s d.other).received = (s d).sent := by
    intro heof hdeaf
    obtain ⟨hfin, hinbox⟩ := hc.at_end heof hdeaf
    have hgone : (s d.other).gone = false := Bool.eq_false_iff.2 fun hg ↦
      absurd (((h.sound d.other).deaf_of_gone hg).symm.trans hdeaf) (by simp)
    have hkept := hc.kept hgone
    rw [hinbox, List.append_nil] at hkept
    exact ⟨hfin, hkept⟩
  refine ⟨(h.sound d).written, hc.received_prefix, hc.kept, hend, ?_⟩
  intro heof hdeaf hnone hcomplete
  rw [(hend heof hdeaf).2, sent, unreturned, hnone]
  refine (List.append_nil _).trans (List.flatMap_congr fun r hr ↦ ?_)
  exact taken_of_complete ((h.sound d).written r hr) (hcomplete r hr)

/-- **A stream arrives as it was written**, in both directions, whatever the two programs do and
whatever the kernel answers. -/
theorem run_delivered (n : Side → ℤ) (w : Side → FDWrapper)
    (hw : ∀ d, FDWrapper.ofFd (n d) = .ok (w d)) (ops : List (Side × SocketCall)) (s : Pair)
    (h : exec step ops (start w) = some s) (d : Side) : Delivered (s d) (s d.other) := by
  have heof : ∀ d, (w d).eof = false := fun d ↦ FDWrapper.eof_of_ofFd (hw d)
  have hstart : (start w).Inv := ⟨fun d ↦ sound_fresh _, fun d ↦ carries_fresh _ (heof _)⟩
  exact (exec_inv (fun _ _ _ hinv hstep ↦ hinv.step hstep) hstart h).delivered d

/-- Three bytes, taken one at a time, read between the turns of the `write` and after it, with the
end of the stream at last. -/
theorem run_delivered_bytewise :
    let ops : List (Side × SocketCall) :=
      [(.left, .write ⟨[.ofString [1, 2], .ofString [3]]⟩ true),
        (.left, .writev WriteState.bytewise), (.right, .read 10 (.returned [1])),
        (.left, .writev WriteState.bytewise), (.left, .writev WriteState.bytewise),
        (.left, .shutdown FDWrapper.shutWr none),
        (.right, .read 1 (.returned [2])), (.right, .read 9 (.returned [3])),
        (.right, .read 9 (.returned []))]
    let w : Side → FDWrapper := fun _ ↦ ⟨5, false, false, 0, 0⟩
    ∃ s, exec step ops (start w) = some s ∧ (s .right).wrapper.eof = true ∧
      Delivered (s .left) (s .right) := by
  intro ops w
  obtain ⟨s, hs, heof⟩ : ∃ s, exec step ops (start w) = some s ∧
      (s .right).wrapper.eof = true := by
    have hrun : (exec step ops (start w)).map (fun s ↦ (s .right).wrapper.eof) = some true := by
      decide +kernel
    exact Option.map_eq_some_iff.1 hrun
  exact ⟨s, hs, heof, run_delivered (fun _ ↦ 5) w (fun _ ↦ rfl) ops s hs .left⟩

end Pair
