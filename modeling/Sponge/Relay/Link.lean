import Sponge.ByteStream.Refinement
import Sponge.EventLoop.Drain
import Sponge.FileDescriptor.Write

/-!
# A link from descriptor to descriptor

The three classes that are made for each other, `ByteStream`, `FileDescriptor` and `EventLoop`, put
together: links that copy from one descriptor to another through a stream of bounded capacity. A
link has two rules. The one for its source is interested while the stream has room, reads no more
than fits, and ends the input of the stream when it is cancelled; the one for its sink is interested
while the stream has something in it, writes what the kernel will take of it, and pops that. Two
links between two sockets copy in both directions, and a link from a socket to itself is an echo.

The closures are those of a user of the library, as the arguments of `add_rule` always are; they do
nothing but call its functions.

The kernel is that of `Drain` for the sources. For the sinks it takes any part of what it is given,
but not nothing, and the other side does not go away.
-/

open Cpp Machine ByteStream

namespace Relay

/-! ### The closures -/

/-- A link from one descriptor to another. -/
structure Link where
  source : ℕ
  sink : ℕ
  capacity : ℕ

/-- The state of the program and of the kernel. -/
structure Net where
  /-- The descriptors that are read. -/
  feed : Drain.Feed
  /-- The streams, by the number of the link. -/
  streams : ℕ → ByteStream
  /-- What the kernel has taken, by the number of the link. -/
  sent : ℕ → Bytes
  /-- How many times `writev(2)` has been called. -/
  writes : ℕ

/-- A closure that evaluates something undefined is counted as one that throws. -/
def defined {α : Type} : Eval Exn α → Except Exn α
  | .ok a => .ok a
  | .error (.throws e) => .error e
  | .error (.undefined _) => .error (.runtimeError "undefined behaviour")

/-- The kernel in the `i`-th call of `writev(2)` takes at most `amount i + 1` bytes, and no more
than fit an `int`. -/
def writev (amount : ℕ → ℕ) (i : ℕ) : Writev where
  answer _ v := .accepted (min (iovecBytes v).length (min (amount i) 2147483646 + 1))
  errno_ne_zero _ _ _ h := nomatch h
  accepted_le := by
    rintro _ v k h
    obtain rfl := WritevAnswer.accepted.inj h
    exact Nat.min_le_left _ _
  accepted_lt := by
    rintro _ v k h
    obtain rfl := WritevAnswer.accepted.inj h
    omega

/-- The world after the link `k` has read `data` from `fd` into its stream. -/
def filled (w : World Net) (k fd : ℕ) (wrapper : FDWrapper) (data : Bytes) (stream : ByteStream) :
    World Net where
  fds := Function.update w.fds fd wrapper
  user := { w.user with
    feed := { w.user.feed with
      got := Function.update w.user.feed.got fd (w.user.feed.got fd ++ data)
      reads := w.user.feed.reads + 1 }
    streams := Function.update w.user.streams k stream }

/-- `stream.write(fd.read(stream.remaining_capacity()))`. -/
def fill (reads : ℕ → ℕ) (k fd : ℕ) (w : World Net) : Except Exn (World Net) := do
  let room ← defined (w.user.streams k).remainingCapacity
  match (w.fds fd).read room (Drain.readAnswer reads w.user.feed fd room) with
  | .error e _ => throw e
  | .ok data wrapper =>
    let (_, stream) ← defined ((w.user.streams k).write data)
    pure (filled w k fd wrapper data stream)

/-- The world after the link `k` has written `data` to `fd`. -/
def flushed (w : World Net) (k fd : ℕ) (wrapper : FDWrapper) (data : Bytes) (stream : ByteStream) :
    World Net where
  fds := Function.update w.fds fd wrapper
  user := { w.user with
    streams := Function.update w.user.streams k stream
    sent := Function.update w.user.sent k (w.user.sent k ++ data)
    writes := w.user.writes + 1 }

/-- `stream.pop_output(..)`, of what `write` has returned. -/
def popWritten (k fd : ℕ) (w : World Net) :
    Option (Except Exn ℕ × WriteState) → Except Exn (World Net)
  | none => throw (.runtimeError "write has not returned")
  | some (result, s) => do
    let n ← result
    let stream ← defined ((w.user.streams k).popOutput n)
    pure (flushed w k fd s.wrapper s.taken stream)

/-- `stream.pop_output(fd.write(stream.peek_output(stream.buffer_size()), false))`. Without
`write_all`, `write` takes one turn. -/
def flush (writes : ℕ → ℕ) (k fd : ℕ) (w : World Net) : Except Exn (World Net) := do
  let size ← defined (w.user.streams k).bufferSize
  let data ← defined ((w.user.streams k).peekOutput size)
  popWritten k fd w
    ((w.fds fd).write (writev writes w.user.writes) (.ofString data) false 1)

/-- The closures of the rules of the link `k`. -/
inductive Code where
  | fill (k fd : ℕ)
  | flush (k fd : ℕ)
  /-- `stream.remaining_capacity() > 0`. -/
  | hasRoom (k : ℕ)
  /-- `not stream.buffer_empty()`. -/
  | hasOutput (k : ℕ)
  /-- `stream.end_input()`. -/
  | endInput (k : ℕ)
  | nothing
  deriving DecidableEq, Repr

/-- The world after the input of the stream `k` has been ended. -/
def ended (w : World Net) (k : ℕ) : World Net :=
  { w with user := { w.user with
      streams := Function.update w.user.streams k (w.user.streams k).endInput } }

/-- The effect of a closure; one that throws would leave the world as it was. -/
def effect (w : World Net) : Except Exn (World Net) → Effect Code Net Unit
  | .ok w' => ⟨.ok (), w', []⟩
  | .error e => ⟨.error e, w, []⟩

/-- The meaning of the closures. -/
def actions (reads writes : ℕ → ℕ) : Actions Code Net where
  call
    | .fill k fd, w => effect w (fill reads k fd w)
    | .flush k fd, w => effect w (flush writes k fd w)
    | .endInput k, w => effect w (.ok (ended w k))
    | _, w => effect w (.ok w)
  ask
    | .hasRoom k, w =>
      ⟨(defined (w.user.streams k).remainingCapacity).map fun room ↦ decide (0 < room), w, []⟩
    | .hasOutput k, w => ⟨.ok (!(w.user.streams k).bufferEmpty), w, []⟩
    | _, w => ⟨.ok true, w, []⟩

/-- The rule for the source of the link `k`. -/
def sourceRule (k : ℕ) (l : Link) : Rule Code :=
  ⟨l.source, .In, .fill k l.source, .hasRoom k, .endInput k⟩

/-- The rule for the sink of the link `k`. -/
def sinkRule (k : ℕ) (l : Link) : Rule Code :=
  ⟨l.sink, .Out, .flush k l.sink, .hasOutput k, .nothing⟩

/-! ### One link -/

/-- What the link `k` has read and not written. -/
def Net.held (u : Net) (k : ℕ) (l : Link) : Bytes :=
  (u.feed.got l.source).drop (u.sent k).length

/-- The stream of the link holds what has been read and not written. -/
structure Holds (u : Net) (k : ℕ) (l : Link) (q : Fifo l.capacity) : Prop where
  represents : Represents (u.streams k) q
  got_eq : u.feed.got l.source = u.sent k ++ q.queue
  got_prefix : u.feed.got l.source <+: u.feed.arrived l.source

variable {reads writes : ℕ → ℕ} {w : World Net} {k : ℕ} {l : Link} {q : Fifo l.capacity}

theorem defined_bind {α β : Type} {x : Eval Exn α} {a : α} (h : x = pure a)
    (f : α → Except Exn β) : (defined x >>= f) = f a := by
  rw [h]
  rfl

theorem Holds.held_eq (h : Holds w.user k l q) : w.user.held k l = q.queue := by
  rw [Net.held, h.got_eq, List.drop_left]

theorem Holds.remainingCapacity_eq (hc : l.capacity ≤ 2 ^ 30) (h : Holds w.user k l q) :
    (w.user.streams k).remainingCapacity = pure (l.capacity - (w.user.held k l).length) := by
  rw [h.represents.remainingCapacity_eq (by omega) (h.represents.fits hc), h.held_eq]

theorem Holds.hasOutput_eq (h : Holds w.user k l q) :
    (!(w.user.streams k).bufferEmpty) = !(w.user.held k l).isEmpty := by
  rw [h.represents.bufferEmpty_eq, h.held_eq]
  cases q.queue <;> simp

/-- **Filling**: what is read fits, and goes into the stream. -/
theorem Holds.fill (reads : ℕ → ℕ) (hc : l.capacity ≤ 2 ^ 30) (h : Holds w.user k l q)
    (hroom : (w.user.held k l).length < l.capacity)
    (hready : w.user.feed.available l.source ≠ [] ∨ w.user.feed.finished l.source = true) :
    ∃ data limit stream, data <+: w.user.feed.available l.source ∧ 0 < limit ∧
      (data = [] → w.user.feed.available l.source = [] ∧
        w.user.feed.finished l.source = true) ∧
      Relay.fill reads k l.source w = .ok (filled w k l.source
        ((w.fds l.source).afterRead limit data) data stream) ∧
      ∃ q' : Fifo l.capacity, Holds (filled w k l.source
        ((w.fds l.source).afterRead limit data) data stream).user k l q' ∧
        q'.ended = q.ended := by
  have hfits := h.represents.fits hc
  obtain ⟨data, hdata, hlimit, hempty, hread⟩ :=
    Drain.exists_read reads (Nat.sub_pos_of_lt hroom) hready
  obtain ⟨stream, hwrite, hrep⟩ := h.represents.write_spec (by omega) hfits data
  -- no more was asked for than fits, so the stream takes all of it
  have haccepts : q.accepts data = data.length := by
    rw [h.held_eq] at hlimit
    exact Nat.min_eq_left hlimit
  refine ⟨data, _, stream, hdata, Nat.sub_pos_of_lt hroom, hempty, ?_, (q.write data).2,
    ⟨?_, ?_, ?_⟩, rfl⟩
  · rw [Relay.fill, defined_bind (h.remainingCapacity_eq hc), hread]
    exact defined_bind hwrite _
  · show Represents (Function.update w.user.streams k stream k) _
    rw [Function.update_self]
    exact hrep
  · show Function.update w.user.feed.got l.source _ l.source = w.user.sent k ++
      (q.queue ++ data.take (q.accepts data))
    rw [Function.update_self, h.got_eq, haccepts, List.take_length, List.append_assoc]
  · show Function.update w.user.feed.got l.source _ l.source <+: _
    rw [Function.update_self]
    obtain ⟨rest, hrest⟩ := h.got_prefix
    obtain ⟨more, hmore⟩ := hdata
    rw [Drain.Feed.available, ← hrest, List.drop_left] at hmore
    exact ⟨more, by rw [List.append_assoc, hmore]; exact hrest⟩

/-- An answer of `writev` that is neither nothing nor too much is taken. -/
theorem consume_eq {s : WriteState} {n : ℕ} (hpos : 0 < n) (hle : n ≤ s.buffer.contents.length)
    (hlength : s.buffer.contents.length < 2 ^ 31) :
    ∃ v, (s.afterCall (.accepted n)).consume false (n : ℤ) =
      .done (.ok (s.advance n v).totalBytesWritten, s.advance n v) := by
  have hsize : s.buffer.size = s.buffer.contents.length := by
    rw [BufferViewList.size_eq_mod, Nat.mod_eq_of_lt (by omega)]
  have hzero : ¬ ((n : ℤ) = 0 ∧ (s.afterCall (.accepted n)).buffer.size ≠ 0) := by omega
  have hmore : ¬ (n : ℤ) > toSSizeT (s.afterCall (.accepted n)).buffer.size := by
    show ¬ (n : ℤ) > toSSizeT s.buffer.size
    rw [hsize, toSSizeT]
    omega
  obtain ⟨v, hok, -⟩ := BufferViewList.removePrefix_of_le hle
  have hok' : (s.afterCall (.accepted n)).buffer.removePrefix n = .ok () v := hok
  refine ⟨v, ?_⟩
  rw [WriteState.consume, if_neg hzero, if_neg hmore]
  simp only [toSizeT_natCast (show n < 2 ^ 64 by omega), hok', WriteState.advance,
    ← WriteState.taken_afterCall_accepted]
  rfl

/-- One turn of `write` without `write_all`. -/
theorem turn_eq {kernel : Writev} {s : WriteState} {n : ℕ}
    (hanswer : kernel.answer s.calls s.buffer.asIovecs = .accepted n) (hpos : 0 < n)
    (hlength : s.buffer.contents.length < 2 ^ 31) :
    n ≤ s.buffer.contents.length ∧ ∃ v, s.turn kernel false =
      .done (.ok (s.advance n v).totalBytesWritten, s.advance n v) := by
  have hle : n ≤ s.buffer.contents.length :=
    s.buffer.iovecBytes_asIovecs ▸ kernel.accepted_le _ _ _ hanswer
  have hcall : systemCall "writev" (narrowInt n) 0 = pure (n : ℤ) := by
    rw [narrowInt_eq ⟨by omega, by omega⟩]
    exact systemCall_of_nonneg _ _ (by omega)
  have hturn : s.turn kernel false = (s.afterCall (.accepted n)).consume false (n : ℤ) := by
    simp only [WriteState.turn, hanswer, WritevAnswer.returnValue, WritevAnswer.errno, hcall]
    rfl
  rw [hturn]
  exact ⟨hle, consume_eq hpos hle hlength⟩

theorem writev_answer (writes : ℕ → ℕ) (i j : ℕ) (v : List Iovec) (hne : iovecBytes v ≠ []) :
    ∃ n, 0 < n ∧ (writev writes i).answer j v = .accepted n := by
  refine ⟨_, ?_, rfl⟩
  have := List.length_pos_iff.2 hne
  omega

/-- A call of `write` without `write_all`: the kernel takes something. -/
theorem exists_write (writes : ℕ → ℕ) (i : ℕ) (wrapper : FDWrapper) {data : Bytes}
    (hne : data ≠ []) (hlength : data.length ≤ 2 ^ 30) :
    ∃ n s, 0 < n ∧ n ≤ data.length ∧
      wrapper.write (writev writes i) (.ofString data) false 1 = some (.ok n, s) ∧
      s.wrapper = wrapper.registerWrite ∧ s.taken = data.take n := by
  have hcontents : (BufferViewList.ofString data).contents = data := List.append_nil data
  have hiovecs : iovecBytes (BufferViewList.ofString data).asIovecs = data :=
    (BufferViewList.iovecBytes_asIovecs _).trans hcontents
  -- the state is kept as a variable: nothing should compute with it
  obtain ⟨s, hs⟩ : ∃ s : WriteState, s = ⟨.ofString data, 0, wrapper, 0, []⟩ := ⟨_, rfl⟩
  have hbuffer : s.buffer = .ofString data := by rw [hs]
  obtain ⟨n, hpos, hanswer⟩ := writev_answer writes i s.calls s.buffer.asIovecs
    (by rw [hbuffer, hiovecs]; exact hne)
  obtain ⟨hle, v, hturn⟩ := turn_eq hanswer hpos (by rw [hbuffer, hcontents]; omega)
  rw [hbuffer, hcontents] at hle
  have hzero : s.totalBytesWritten = 0 := by rw [hs]
  have htotal : (s.advance n v).totalBytesWritten = n := by
    show szAdd s.totalBytesWritten n = n
    rw [hzero, szAdd_eq (by omega), Nat.zero_add]
  refine ⟨n, s.advance n v, hpos, hle, ?_, by rw [WriteState.advance, hs], ?_⟩
  · rw [FDWrapper.write, ← hs, loop_succ_of_done hturn, htotal]
  · rw [WriteState.advance, hs]
    show [] ++ (BufferViewList.ofString data).contents.take n = _
    rw [List.nil_append, hcontents]

/-- **Flushing**: what the kernel takes goes from the stream. -/
theorem Holds.flush (writes : ℕ → ℕ) (hc : l.capacity ≤ 2 ^ 30) (h : Holds w.user k l q)
    (houtput : w.user.held k l ≠ []) :
    ∃ data stream, data ≠ [] ∧
      Relay.flush writes k l.sink w = .ok (flushed w k l.sink
        (w.fds l.sink).registerWrite data stream) ∧
      ∃ q' : Fifo l.capacity, Holds (flushed w k l.sink
        (w.fds l.sink).registerWrite data stream).user k l q' ∧ q'.ended = q.ended := by
  have hfits := h.represents.fits hc
  rw [h.held_eq] at houtput
  have hpeek : q.peek q.queue.length = q.queue := by
    rw [Fifo.peek, Nat.min_self, List.take_length]
  obtain ⟨n, s, hpos, hle, hwrite, hwrapper, htaken⟩ := exists_write writes w.user.writes
    (w.fds l.sink) houtput (q.length_le.trans hc)
  obtain ⟨stream, hpop, hrep⟩ := h.represents.popOutput_spec (by omega) hfits n
  refine ⟨q.queue.take n, stream, ?_, ?_, q.pop n, ⟨?_, ?_, h.got_prefix⟩, rfl⟩
  · rw [ne_eq, List.take_eq_nil_iff, not_or]
    exact ⟨hpos.ne', houtput⟩
  · rw [Relay.flush, defined_bind (h.represents.bufferSize_eq (by omega) hfits),
      defined_bind (h.represents.peekOutput_eq (by omega) hfits _), hpeek, hwrite, ← hwrapper,
      ← htaken]
    exact defined_bind hpop _
  · show Represents (Function.update w.user.streams k stream k) _
    rw [Function.update_self]
    exact hrep
  · show w.user.feed.got l.source = Function.update w.user.sent k _ k ++
      q.queue.drop (min n q.queue.length)
    rw [Function.update_self, Nat.min_eq_left hle, List.append_assoc, List.take_append_drop]
    exact h.got_eq

end Relay
