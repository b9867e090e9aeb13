import Mathlib.Algebra.Order.BigOperators.Group.Finset
import Sponge.EventLoop.Clients
import Sponge.Relay.Link

/-!
# The rules of the links

The rules of several links meet the obligations of a client of the event loop. Whatever the turn of
a rule does, it does to its own link: the sources of different links are different descriptors, and
though links may share a sink, all that a write changes about a descriptor is its count. The rule
for the source and the rule for the sink of one link do not get in each other's way either. What one
reads the other can still write, and what one writes only makes room.

What counts as done is every byte that is read, every byte that is written, and the end.
-/

open Cpp Machine ByteStream

namespace Relay

variable {reads writes : ℕ → ℕ} {w : World Net} {k : ℕ} {l : Link} {q : Fifo l.capacity}

/-! ### What the turns of the rules do to the links -/

/-- The rule for the source of the link `k` has been cancelled. -/
def Gone (links : ℕ → Link) (nodes : List (Node Code)) (k : ℕ) : Prop :=
  ∀ m ∈ nodes, m.rule.callback ≠ .fill k (links k).source

instance (links : ℕ → Link) (nodes : List (Node Code)) (k : ℕ) : Decidable (Gone links nodes k) :=
  inferInstanceAs (Decidable (∀ m ∈ nodes, _))

/-- The state of the link `k`. -/
structure Linked (links : ℕ → Link) (nodes : List (Node Code)) (w : World Net) (k : ℕ) : Prop where
  holds : ∃ q : Fifo (links k).capacity, Holds w.user k (links k) q ∧
    (Gone links nodes k → q.ended = true)
  /-- The rule for the sink stays. -/
  sink : ∃ m ∈ nodes, m.rule = sinkRule k (links k)
  drained : (w.fds (links k).source).eof = true ∨ Gone links nodes k →
    w.user.feed.Drained (links k).source
  not_closed : (w.fds (links k).source).closed = false ∧ (w.fds (links k).sink).closed = false

/-- **The invariant**, while `A` has arrived and the writers `F` have finished. -/
structure Relaying (links : ℕ → Link) (num : ℕ) (A : ℕ → Bytes) (F : ℕ → Bool)
    (nodes : List (Node Code)) (w : World Net) : Prop where
  rule : ∀ m ∈ nodes, ∃ k < num,
    m.rule = sourceRule k (links k) ∨ m.rule = sinkRule k (links k)
  nodup : (nodes.map fun m ↦ m.rule.callback).Nodup
  link : ∀ k < num, Linked links nodes w k
  arrived_eq : w.user.feed.arrived = A
  finished_eq : w.user.feed.finished = F

/-- What has been done by the link `k`: the bytes read, the bytes written, and the end. -/
def tally (links : ℕ → Link) (nodes : List (Node Code)) (w : World Net) (k : ℕ) : ℕ :=
  (w.user.feed.got (links k).source).length + (w.user.sent k).length +
    if Gone links nodes k then 2 else if (w.fds (links k).source).eof then 1 else 0

/-- What `poll` says about the descriptor of the callback is true. -/
def Told (w : World Net) (revents : Short) : Code → Prop
  | .fill _ fd => Drain.Truthful w.user.feed fd revents
  | _ => revents &&& (POLLERR ||| POLLNVAL) = 0 ∧ revents &&& POLLHUP = 0

instance (w : World Net) (revents : Short) : ∀ c, Decidable (Told w revents c)
  | .fill _ fd => inferInstanceAs (Decidable (Drain.Truthful w.user.feed fd revents))
  | .flush _ _ | .hasRoom _ | .hasOutput _ | .endInput _ | .nothing =>
    inferInstanceAs (Decidable (_ ∧ _))

/-- The links, as a client of the event loop. -/
def client (links : ℕ → Link) (num : ℕ) (A : ℕ → Bytes) (F : ℕ → Bool) : Client Code Net where
  Inv := Relaying links num A F
  Asked w n events :=
    match n.rule.callback with
    | .fill k fd =>
      (events = POLLIN ∧ (w.user.held k (links k)).length < (links k).capacity ∧
        (w.fds fd).eof = false) ∨
      (events = 0 ∧ (links k).capacity ≤ (w.user.held k (links k)).length)
    | .flush k _ =>
      (events = POLLOUT ∧ w.user.held k (links k) ≠ []) ∨
      (events = 0 ∧ w.user.held k (links k) = [])
    | _ => False
  Told w n revents := Told w revents n.rule.callback
  done nodes w := ∑ k ∈ Finset.range num, tally links nodes w k

variable {links : ℕ → Link} {num : ℕ} {A : ℕ → Bytes} {F : ℕ → Bool} {w' : World Net}
  {nodes kept rest : List (Node Code)} {n : Node Code}

/-- Nothing has happened to the link `j`. -/
structure Agree (l : Link) (w w' : World Net) (j : ℕ) : Prop where
  streams_eq : w'.user.streams j = w.user.streams j
  sent_eq : w'.user.sent j = w.user.sent j
  got_eq : w'.user.feed.got l.source = w.user.feed.got l.source
  eof_eq : (w'.fds l.source).eof = (w.fds l.source).eof

/-- What the closures never do: close a descriptor, or act for the other side. -/
structure Steady (w w' : World Net) : Prop where
  arrived_eq : w'.user.feed.arrived = w.user.feed.arrived
  finished_eq : w'.user.feed.finished = w.user.feed.finished
  closed_eq : ∀ fd, (w'.fds fd).closed = (w.fds fd).closed

theorem Agree.held_eq {j : ℕ} (h : Agree l w w' j) : w'.user.held j l = w.user.held j l := by
  rw [Net.held, Net.held, h.got_eq, h.sent_eq]

theorem Agree.linked {j : ℕ} (h : Agree (links j) w w' j) (hw : Steady w w')
    (hj : Linked links nodes w j) : Linked links nodes w' j where
  holds := by
    obtain ⟨q, hq, hended⟩ := hj.holds
    refine ⟨q, ⟨h.streams_eq ▸ hq.represents, ?_, ?_⟩, hended⟩
    · rw [h.got_eq, h.sent_eq]
      exact hq.got_eq
    · rw [h.got_eq, hw.arrived_eq]
      exact hq.got_prefix
  sink := hj.sink
  drained hend := by
    rw [h.eof_eq] at hend
    obtain ⟨hfin, hgot⟩ := hj.drained hend
    exact ⟨hw.finished_eq ▸ hfin, by rw [h.got_eq, hw.arrived_eq]; exact hgot⟩
  not_closed := ⟨(hw.closed_eq _).trans hj.not_closed.1, (hw.closed_eq _).trans hj.not_closed.2⟩

theorem Agree.tally_eq {j : ℕ} (h : Agree (links j) w w' j) :
    tally links nodes w' j = tally links nodes w j := by
  rw [tally, tally, h.got_eq, h.sent_eq, h.eof_eq]

/-- **A callback keeps the invariant** if it does so for its link and leaves the others alone. -/
theorem Relaying.of_agree (h : Relaying links num A F nodes w) (hw : Steady w w')
    (hother : ∀ j < num, j ≠ k → Agree (links j) w w' j) (hk : Linked links nodes w' k) :
    Relaying links num A F nodes w' where
  rule := h.rule
  nodup := h.nodup
  link j hj := by
    rcases eq_or_ne j k with rfl | hne
    · exact hk
    · exact (hother j hj hne).linked hw (h.link j hj)
  arrived_eq := hw.arrived_eq.trans h.arrived_eq
  finished_eq := hw.finished_eq.trans h.finished_eq

theorem done_lt (hk : k < num)
    (hother : ∀ j < num, j ≠ k → tally links nodes w j ≤ tally links rest w' j)
    (hlt : tally links nodes w k < tally links rest w' k) :
    (client links num A F).done nodes w < (client links num A F).done rest w' := by
  refine Finset.sum_lt_sum (fun j hj ↦ ?_) ⟨k, Finset.mem_range.2 hk, hlt⟩
  rcases eq_or_ne j k with rfl | hne
  · exact hlt.le
  · exact hother j (Finset.mem_range.1 hj) hne

/-! ### Reading, writing, and the end of the input -/

theorem eof_filled_of_ne {fd fd' : ℕ} (h : fd' ≠ fd) (wrapper : FDWrapper) (data : Bytes)
    (stream : ByteStream) : (filled w k fd wrapper data stream).fds fd' = w.fds fd' :=
  Function.update_of_ne h _ _

theorem steady_filled {fd : ℕ} {wrapper : FDWrapper} (h : wrapper.closed = (w.fds fd).closed)
    (data : Bytes) (stream : ByteStream) : Steady w (filled w k fd wrapper data stream) where
  arrived_eq := rfl
  finished_eq := rfl
  closed_eq fd' := by
    rcases eq_or_ne fd' fd with rfl | hne
    · exact (congrArg FDWrapper.closed (Function.update_self _ _ _)).trans h
    · rw [eof_filled_of_ne hne]

theorem agree_filled {fd j : ℕ} (hj : j ≠ k) (hfd : l.source ≠ fd) (wrapper : FDWrapper)
    (data : Bytes) (stream : ByteStream) :
    Agree l w (filled w k fd wrapper data stream) j where
  streams_eq := Function.update_of_ne hj _ _
  sent_eq := rfl
  got_eq := Function.update_of_ne hfd _ _
  eof_eq := by rw [eof_filled_of_ne hfd]

theorem fds_flushed_eq {fd : ℕ} (fd' : ℕ) (data : Bytes) (stream : ByteStream) :
    ((flushed w k fd (w.fds fd).registerWrite data stream).fds fd').eof = (w.fds fd').eof ∧
      ((flushed w k fd (w.fds fd).registerWrite data stream).fds fd').closed =
        (w.fds fd').closed := by
  rcases eq_or_ne fd' fd with rfl | hne
  · have hself : (flushed w k fd' (w.fds fd').registerWrite data stream).fds fd' =
        (w.fds fd').registerWrite := Function.update_self _ _ _
    rw [hself]
    exact ⟨rfl, rfl⟩
  · have hother : (flushed w k fd (w.fds fd).registerWrite data stream).fds fd' = w.fds fd' :=
      Function.update_of_ne hne _ _
    rw [hother]
    exact ⟨rfl, rfl⟩

theorem agree_flushed {fd j : ℕ} (hj : j ≠ k) (data : Bytes) (stream : ByteStream) :
    Agree l w (flushed w k fd (w.fds fd).registerWrite data stream) j where
  streams_eq := Function.update_of_ne hj _ _
  sent_eq := Function.update_of_ne hj _ _
  got_eq := rfl
  eof_eq := (fds_flushed_eq _ data stream).1

theorem steady_flushed {fd : ℕ} (data : Bytes) (stream : ByteStream) :
    Steady w (flushed w k fd (w.fds fd).registerWrite data stream) :=
  ⟨rfl, rfl, fun fd' ↦ (fds_flushed_eq fd' data stream).2⟩

/-- What the link holds grows by what is read, -/
theorem held_filled (h : Holds w.user k l q) (wrapper : FDWrapper) (data : Bytes)
    (stream : ByteStream) :
    (filled w k l.source wrapper data stream).user.held k l = w.user.held k l ++ data := by
  show (Function.update w.user.feed.got l.source _ l.source).drop (w.user.sent k).length = _
  rw [Function.update_self, Net.held, h.got_eq, List.append_assoc, List.drop_left, List.drop_left]

/-- and loses what is written. -/
theorem held_flushed {fd : ℕ} (wrapper : FDWrapper) (data : Bytes) (stream : ByteStream) :
    (flushed w k fd wrapper data stream).user.held k l =
      (w.user.held k l).drop data.length := by
  show (w.user.feed.got l.source).drop (Function.update w.user.sent k _ k).length = _
  rw [Function.update_self, List.length_append, Net.held, List.drop_drop]

/-- The sources of different links are different descriptors. -/
def Apart (links : ℕ → Link) (num : ℕ) : Prop :=
  ∀ j < num, ∀ k < num, (links j).source = (links k).source → j = k

instance (links : ℕ → Link) (num : ℕ) : Decidable (Apart links num) :=
  inferInstanceAs (Decidable (∀ j < num, ∀ k < num, _ → j = k))

/-- The callback of a rule of the link `k` has got something done, for this link only. -/
structure Acted (links : ℕ → Link) (num : ℕ) (A : ℕ → Bytes) (F : ℕ → Bool)
    (nodes : List (Node Code)) (k : ℕ) (w w' : World Net) : Prop where
  inv : Relaying links num A F nodes w'
  lt : (client links num A F).done nodes w < (client links num A F).done nodes w'
  steady : Steady w w'
  others : ∀ j < num, j ≠ k → Agree (links j) w w' j

theorem Relaying.acted (h : Relaying links num A F nodes w) (hk : k < num) (hw : Steady w w')
    (hother : ∀ j < num, j ≠ k → Agree (links j) w w' j) (hlink : Linked links nodes w' k)
    (hlt : tally links nodes w k < tally links nodes w' k) :
    Acted links num A F nodes k w w' where
  inv := h.of_agree hw hother hlink
  lt := done_lt hk (fun j hj hne ↦ (hother j hj hne).tally_eq.ge) hlt
  steady := hw
  others := hother

/-- **Reading into the stream.** -/
theorem Relaying.fill (reads : ℕ → ℕ) (h : Relaying links num A F nodes w)
    (hapart : Apart links num) (hc : (links k).capacity ≤ 2 ^ 30) (hk : k < num)
    (hgone : ¬ Gone links nodes k) (heof : (w.fds (links k).source).eof = false)
    (hroom : (w.user.held k (links k)).length < (links k).capacity)
    (hready : w.user.feed.available (links k).source ≠ [] ∨
      w.user.feed.finished (links k).source = true) :
    ∃ w' data, Relay.fill reads k (links k).source w = .ok w' ∧
      Acted links num A F nodes k w w' ∧
      w'.user.held k (links k) = w.user.held k (links k) ++ data ∧
      (w'.fds (links k).source).readCount = (w.fds (links k).source).readCount + 1 := by
  obtain ⟨q, hq, -⟩ := (h.link k hk).holds
  obtain ⟨data, limit, stream, hdata, hlimit, hempty, hfill, q', hq', -⟩ :=
    hq.fill reads hc hroom hready
  have hheld := held_filled hq ((w.fds (links k).source).afterRead limit data) data stream
  have hsteady : Steady w (filled w k (links k).source
      ((w.fds (links k).source).afterRead limit data) data stream) :=
    steady_filled (by rfl) data stream
  have hagree : ∀ j < num, j ≠ k → Agree (links j) w (filled w k (links k).source
      ((w.fds (links k).source).afterRead limit data) data stream) j := fun j hj hne ↦
    agree_filled hne (fun heq ↦ hne (hapart j hj k hk heq)) _ data stream
  have hself : (filled w k (links k).source ((w.fds (links k).source).afterRead limit data) data
      stream).fds (links k).source = (w.fds (links k).source).afterRead limit data :=
    Function.update_self _ _ _
  have hgot : (filled w k (links k).source ((w.fds (links k).source).afterRead limit data) data
      stream).user.feed.got (links k).source = w.user.feed.got (links k).source ++ data :=
    Function.update_self _ _ _
  have hsent : (filled w k (links k).source ((w.fds (links k).source).afterRead limit data) data
      stream).user.sent k = w.user.sent k := rfl
  -- what has been said about this world is all that matters
  generalize filled w k (links k).source ((w.fds (links k).source).afterRead limit data) data
    stream = w' at *
  have heof' : (w'.fds (links k).source).eof = data.isEmpty := by
    rw [hself]
    show ((w.fds (links k).source).eof || (decide (0 < limit) && data.isEmpty)) = _
    rw [heof, Bool.false_or, decide_eq_true hlimit, Bool.true_and]
  refine ⟨w', data, hfill, h.acted hk hsteady hagree ⟨⟨q', hq', fun hg ↦ absurd hg hgone⟩,
    (h.link k hk).sink, ?_, (hsteady.closed_eq _).trans (h.link k hk).not_closed.1,
    (hsteady.closed_eq _).trans (h.link k hk).not_closed.2⟩ ?_, hheld, by rw [hself]; rfl⟩
  · -- the end of the file is seen by the read that returns nothing
    intro hend
    have hnil : data = [] := by
      rcases hend with hend | hend
      · exact List.isEmpty_iff.1 (heof'.symm.trans hend)
      · exact absurd hend hgone
    obtain ⟨hnone, hfinished⟩ := hempty hnil
    obtain ⟨-, hall⟩ := Drain.drained_of_available (w := ⟨w.fds, w.user.feed⟩) hq.got_prefix hnone
      hfinished
    refine ⟨hsteady.finished_eq ▸ hfinished, ?_⟩
    rw [hgot, hnil, List.append_nil, hsteady.arrived_eq]
    exact hall
  · rw [tally, tally, if_neg hgone, if_neg hgone, hgot, hsent, heof, heof', List.length_append]
    rcases data with - | ⟨b, bs⟩
    · rw [if_neg (by simp), if_pos (by rfl)]
      simp
    · rw [if_neg (by simp), if_neg (by simp), List.length_cons]
      omega

/-- **Writing out of the stream.** -/
theorem Relaying.flush (writes : ℕ → ℕ) (h : Relaying links num A F nodes w)
    (hc : (links k).capacity ≤ 2 ^ 30) (hk : k < num) (houtput : w.user.held k (links k) ≠ []) :
    ∃ w' n, Relay.flush writes k (links k).sink w = .ok w' ∧
      Acted links num A F nodes k w w' ∧
      w'.user.held k (links k) = (w.user.held k (links k)).drop n ∧
      w'.user.feed.got = w.user.feed.got ∧ (∀ fd, (w'.fds fd).eof = (w.fds fd).eof) ∧
      (w'.fds (links k).sink).writeCount = (w.fds (links k).sink).writeCount + 1 := by
  obtain ⟨q, hq, hended⟩ := (h.link k hk).holds
  obtain ⟨data, stream, hdata, hflush, q', hq', hsame⟩ := hq.flush writes hc houtput
  have hheld : (flushed w k (links k).sink (w.fds (links k).sink).registerWrite data
      stream).user.held k (links k) = (w.user.held k (links k)).drop data.length :=
    held_flushed _ data stream
  have hsteady : Steady w (flushed w k (links k).sink (w.fds (links k).sink).registerWrite data
      stream) := steady_flushed data stream
  have hagree : ∀ j < num, j ≠ k → Agree (links j) w (flushed w k (links k).sink
      (w.fds (links k).sink).registerWrite data stream) j := fun j _ hne ↦
    agree_flushed hne data stream
  have heof : ∀ fd, ((flushed w k (links k).sink (w.fds (links k).sink).registerWrite data
      stream).fds fd).eof = (w.fds fd).eof := fun fd ↦ (fds_flushed_eq fd data stream).1
  have hself : (flushed w k (links k).sink (w.fds (links k).sink).registerWrite data stream).fds
      (links k).sink = (w.fds (links k).sink).registerWrite := Function.update_self _ _ _
  have hgot : (flushed w k (links k).sink (w.fds (links k).sink).registerWrite data
      stream).user.feed.got = w.user.feed.got := rfl
  have hsent : (flushed w k (links k).sink (w.fds (links k).sink).registerWrite data
      stream).user.sent k = w.user.sent k ++ data := Function.update_self _ _ _
  generalize flushed w k (links k).sink (w.fds (links k).sink).registerWrite data stream = w' at *
  refine ⟨w', data.length, hflush, h.acted hk hsteady hagree ⟨⟨q', hq', fun hg ↦
    hsame.trans (hended hg)⟩, (h.link k hk).sink, ?_,
    (hsteady.closed_eq _).trans (h.link k hk).not_closed.1,
    (hsteady.closed_eq _).trans (h.link k hk).not_closed.2⟩ ?_, hheld, hgot, heof,
    by rw [hself]; rfl⟩
  · intro hend
    rw [heof] at hend
    obtain ⟨hfinished, hall⟩ := (h.link k hk).drained hend
    exact ⟨hsteady.finished_eq ▸ hfinished, by rw [hgot, hsteady.arrived_eq]; exact hall⟩
  · have hpos := List.length_pos_iff.2 hdata
    rw [tally, tally, hgot, hsent, heof, List.length_append]
    omega

/-- **The rule for the source is cancelled**, when everything has been read. -/
theorem Relaying.ended (h : Relaying links num A F (kept ++ n :: rest) w)
    (hrule : n.rule = sourceRule k (links k)) (hk : k < num)
    (hdrained : w.user.feed.Drained (links k).source) :
    Relaying links num A F (kept ++ rest) (ended w k) ∧
      (client links num A F).done (kept ++ n :: rest) w <
        (client links num A F).done (kept ++ rest) (Relay.ended w k) := by
  have hsub : (kept ++ rest).Sublist (kept ++ n :: rest) :=
    List.Sublist.append_left (List.sublist_cons_self n rest) kept
  have hcallback : n.rule.callback = .fill k (links k).source := by rw [hrule]; rfl
  have hnodup := h.nodup
  rw [List.map_append, List.map_cons, List.nodup_middle, List.nodup_cons, ← List.map_append]
    at hnodup
  -- the rule is the only one for this source, and no rule for another
  have hgone : Gone links (kept ++ rest) k := by
    intro m hm heq
    refine hnodup.1 (List.mem_map.2 ⟨m, hm, ?_⟩)
    exact heq.trans hcallback.symm
  have hnot : ¬ Gone links (kept ++ n :: rest) k := fun hall ↦
    hall n (List.mem_append_right _ List.mem_cons_self) hcallback
  have hother : ∀ j, j ≠ k →
      (Gone links (kept ++ rest) j ↔ Gone links (kept ++ n :: rest) j) := by
    intro j hne
    refine ⟨fun hall m hm ↦ ?_, fun hall m hm ↦ hall m (hsub.subset hm)⟩
    rcases List.mem_append.1 hm with hm | hm
    · exact hall m (List.mem_append_left _ hm)
    rcases List.mem_cons.1 hm with rfl | hm
    · rw [hcallback]
      exact fun heq ↦ hne (Code.fill.inj heq).1.symm
    · exact hall m (List.mem_append_right _ hm)
  have hsink : ∀ j, (∃ m ∈ kept ++ n :: rest, m.rule = sinkRule j (links j)) →
      ∃ m ∈ kept ++ rest, m.rule = sinkRule j (links j) := by
    rintro j ⟨m, hm, hmrule⟩
    rcases List.mem_append.1 hm with hm | hm
    · exact ⟨m, List.mem_append_left _ hm, hmrule⟩
    rcases List.mem_cons.1 hm with rfl | hm
    · exact absurd (congrArg Rule.direction (hrule.symm.trans hmrule))
        (by simp [sourceRule, sinkRule])
    · exact ⟨m, List.mem_append_right _ hm, hmrule⟩
  refine ⟨⟨fun m hm ↦ h.rule m (hsub.subset hm), h.nodup.sublist (hsub.map _), fun j hj ↦ ?_,
    h.arrived_eq, h.finished_eq⟩, done_lt hk (fun j _ hne ↦ ?_) ?_⟩
  · obtain ⟨q, hq, hended⟩ := (h.link j hj).holds
    rcases eq_or_ne j k with rfl | hne
    · refine ⟨⟨q.endInput, ⟨?_, hq.got_eq, hq.got_prefix⟩, fun _ ↦ rfl⟩, hsink j (h.link j hj).sink,
        fun _ ↦ hdrained, (h.link j hj).not_closed⟩
      show Represents (Function.update w.user.streams j (w.user.streams j).endInput j) _
      rw [Function.update_self]
      exact hq.represents.endInput_spec
    · refine ⟨⟨q, ⟨?_, hq.got_eq, hq.got_prefix⟩, fun hg ↦ hended ((hother j hne).1 hg)⟩,
        hsink j (h.link j hj).sink, fun hend ↦ ?_, (h.link j hj).not_closed⟩
      · show Represents (Function.update w.user.streams k _ j) _
        rw [Function.update_of_ne hne]
        exact hq.represents
      · exact (h.link j hj).drained (hend.imp_right (hother j hne).1)
  · show tally links _ w j ≤ (w.user.feed.got (links j).source).length + (w.user.sent j).length +
      if Gone links (kept ++ rest) j then 2 else if (w.fds (links j).source).eof then 1 else 0
    rw [tally]
    simp only [hother j hne, le_refl]
  · show tally links _ w k < (w.user.feed.got (links k).source).length + (w.user.sent k).length +
      if Gone links (kept ++ rest) k then 2 else if (w.fds (links k).source).eof then 1 else 0
    rw [tally, if_neg hnot, if_pos hgone]
    split <;> omega

/-! ### The rules are a sound client -/

/-- The rule `n` is one of the link `k`. -/
theorem Relaying.cases (h : Relaying links num A F (kept ++ n :: rest) w) :
    ∃ k < num, n.rule = sourceRule k (links k) ∨ n.rule = sinkRule k (links k) :=
  h.rule n (List.mem_append_right _ List.mem_cons_self)

/-- No other rule has the same callback. -/
theorem Relaying.callback_ne (h : Relaying links num A F (kept ++ n :: rest) w) {m : Node Code}
    (hm : m ∈ kept ++ rest) : m.rule.callback ≠ n.rule.callback := by
  have hnodup := h.nodup
  rw [List.map_append, List.map_cons, List.nodup_middle, List.nodup_cons, ← List.map_append]
    at hnodup
  exact fun heq ↦ hnodup.1 (List.mem_map.2 ⟨m, hm, heq⟩)

/-- **The set-up loop at the rule for a source**: everything has been read and it is cancelled, or
it is interested if there is room. -/
theorem Relaying.takeUp_source (reads writes : ℕ → ℕ)
    (h : Relaying links num A F (kept ++ n :: rest) w) (hk : k < num)
    (hc : (links k).capacity ≤ 2 ^ 30) (hrule : n.rule = sourceRule k (links k)) :
    (client links num A F).Asks kept rest n w (n.takeUp (actions reads writes) w) := by
  have hcallback : n.rule.callback = .fill k (links k).source := by rw [hrule]; rfl
  obtain ⟨q, hq, -⟩ := (h.link k hk).holds
  have hdead : n.Dead w ↔ (w.fds (links k).source).eof = true := by
    have hdir : n.rule.direction = .In := by rw [hrule]; rfl
    have hfd : n.rule.fd = (links k).source := by rw [hrule]; rfl
    rw [Node.Dead, hdir, hfd, (h.link k hk).not_closed.1]
    simp
  by_cases heof : (w.fds (links k).source).eof = true
  · have htake : n.takeUp (actions reads writes) w =
        ⟨⟨n, w, Relay.ended w k, none, [.cancel]⟩, [], false⟩ := by
      rw [Node.takeUp_of_dead (hdead.2 heof), Node.drop, hrule]
      rfl
    obtain ⟨hinv, hlt⟩ := h.ended hrule hk ((h.link k hk).drained (Or.inl heof))
    rw [htake]
    exact ⟨⟨rfl, rfl, hinv, hlt.le⟩, fun p hp ↦ absurd hp (by simp), fun m _ events hm ↦ hm⟩
  · have hresult : ((actions reads writes).ask n.rule.interest w).result =
        .ok (decide (0 < (links k).capacity - (w.user.held k (links k)).length)) := by
      rw [hrule]
      show (defined (w.user.streams k).remainingCapacity).map _ = _
      rw [hq.remainingCapacity_eq hc]
      rfl
    have hworld : ((actions reads writes).ask n.rule.interest w).world = w := by rw [hrule]; rfl
    have hadded : ((actions reads writes).ask n.rule.interest w).added = [] := by rw [hrule]; rfl
    have htake := Node.takeUp_of_ok (fun hd ↦ heof (hdead.1 hd)) hresult
    rw [hworld, hadded] at htake
    rw [htake]
    refine ⟨.of_stay rfl rfl rfl rfl h le_rfl, fun p hp ↦ ?_, fun m _ events hm ↦ hm⟩
    obtain rfl := Option.some.inj hp
    show match n.rule.callback with
      | .fill k fd => _
      | .flush k _ => _
      | _ => False
    rw [hcallback]
    -- the answer of the closure for the interest is `remaining_capacity() > 0`
    rcases Nat.lt_or_ge (w.user.held k (links k)).length (links k).capacity with hlt | hge
    · refine Or.inl ⟨?_, hlt, Bool.eq_false_iff.2 heof⟩
      rw [decide_eq_true (Nat.sub_pos_of_lt hlt), hrule]
      rfl
    · refine Or.inr ⟨?_, hge⟩
      rw [decide_eq_false (by omega)]
      rfl

/-- **The set-up loop at the rule for a sink**: it is interested if there is something to write. -/
theorem Relaying.takeUp_sink (reads writes : ℕ → ℕ)
    (h : Relaying links num A F (kept ++ n :: rest) w) (hk : k < num)
    (hrule : n.rule = sinkRule k (links k)) :
    (client links num A F).Asks kept rest n w (n.takeUp (actions reads writes) w) := by
  have hcallback : n.rule.callback = .flush k (links k).sink := by rw [hrule]; rfl
  obtain ⟨q, hq, -⟩ := (h.link k hk).holds
  have hdead : ¬ n.Dead w := by
    have hdir : n.rule.direction = .Out := by rw [hrule]; rfl
    have hfd : n.rule.fd = (links k).sink := by rw [hrule]; rfl
    rw [Node.Dead, hdir, hfd, (h.link k hk).not_closed.2]
    simp
  have hresult : ((actions reads writes).ask n.rule.interest w).result =
      .ok (!(w.user.held k (links k)).isEmpty) := by
    rw [hrule, ← hq.hasOutput_eq]
    rfl
  have hworld : ((actions reads writes).ask n.rule.interest w).world = w := by rw [hrule]; rfl
  have hadded : ((actions reads writes).ask n.rule.interest w).added = [] := by rw [hrule]; rfl
  have htake := Node.takeUp_of_ok hdead hresult
  rw [hworld, hadded] at htake
  rw [htake]
  refine ⟨.of_stay rfl rfl rfl rfl h le_rfl, fun p hp ↦ ?_, fun m _ events hm ↦ hm⟩
  obtain rfl := Option.some.inj hp
  show match n.rule.callback with
    | .fill k fd => _
    | .flush k _ => _
    | _ => False
  rw [hcallback]
  by_cases hnil : w.user.held k (links k) = []
  · refine Or.inr ⟨?_, hnil⟩
    rw [hnil]
    rfl
  · refine Or.inl ⟨?_, hnil⟩
    rw [List.isEmpty_eq_false_iff.2 hnil, hrule]
    rfl

/-- The turn of another rule: what is pending for it stays so if nothing has happened to its link,
or if what has happened is to its advantage. -/
theorem Relaying.pending {m : Node Code} (h : Relaying links num A F nodes w) (hm : m ∈ nodes)
    (hsource : ∀ j < num, m.rule = sourceRule j (links j) →
      (w'.user.held j (links j)).length ≤ (w.user.held j (links j)).length ∧
      (w'.fds (links j).source).eof = (w.fds (links j).source).eof ∧
      w'.user.feed.got (links j).source = w.user.feed.got (links j).source)
    (hsteady : Steady w w')
    (hsink : ∀ j < num, m.rule = sinkRule j (links j) → w.user.held j (links j) ≠ [] →
      w'.user.held j (links j) ≠ []) {q : PollFd} (hq : (client links num A F).Pending w m q) :
    (client links num A F).Pending w' m q := by
  obtain ⟨hasked, htold⟩ := hq
  obtain ⟨j, hj, hrule | hrule⟩ := h.rule m hm
  · obtain ⟨hheld, heof, hgot⟩ := hsource j hj hrule
    have hcallback : m.rule.callback = .fill j (links j).source := by rw [hrule]; rfl
    dsimp only [client] at hasked htold ⊢
    constructor
    · intro hne
      have ha := hasked hne
      dsimp only [client] at ha ⊢
      rw [hcallback] at ha ⊢
      rcases ha with ⟨hevents, hroom, hnot⟩ | ⟨hevents, -⟩
      · exact Or.inl ⟨hevents, hheld.trans_lt hroom, heof.trans hnot⟩
      · exact absurd hevents hne
    · dsimp only [client]
      rw [hcallback] at htold ⊢
      refine Drain.Truthful.congr htold ?_ (congrFun hsteady.finished_eq _)
      rw [Drain.Feed.available, Drain.Feed.available, hgot, hsteady.arrived_eq]
  · have hcallback : m.rule.callback = .flush j (links j).sink := by rw [hrule]; rfl
    dsimp only [client] at hasked htold ⊢
    constructor
    · intro hne
      have ha := hasked hne
      dsimp only [client] at ha ⊢
      rw [hcallback] at ha ⊢
      rcases ha with ⟨hevents, houtput⟩ | ⟨hevents, -⟩
      · exact Or.inl ⟨hevents, hsink j hj hrule houtput⟩
      · exact absurd hevents hne
    · dsimp only [client]
      rw [hcallback] at htold ⊢
      exact htold

/-- **The result loop at the rule for a source**: it reads, or is cancelled for a hangup when
nothing is left, or has asked for nothing. -/
theorem Relaying.react_source (reads writes : ℕ → ℕ) (hapart : Apart links num)
    (h : Relaying links num A F (kept ++ n :: rest) w) (hk : k < num)
    (hc : (links k).capacity ≤ 2 ^ 30) (hrule : n.rule = sourceRule k (links k)) {p : PollFd}
    (hp : (client links num A F).Pending w n p) :
    (client links num A F).Reacts kept rest n w p (n.react (actions reads writes) p w) := by
  have hcallback : n.rule.callback = .fill k (links k).source := by rw [hrule]; rfl
  have htold := hp.told
  dsimp only [client] at htold
  rw [hcallback] at htold
  by_cases hevents : p.events = 0
  · obtain ⟨hready, hdefunct⟩ := Client.not_ready_of_events hevents
    rw [Client.react_of_quiet _ htold.no_error hready hdefunct]
    exact .of_quiet h hready hdefunct
  have hasked := hp.asked hevents
  dsimp only [client] at hasked
  rw [hcallback] at hasked
  obtain ⟨hpollin, hroom, heof⟩ := hasked.resolve_right fun hzero ↦ hevents hzero.1
  obtain ⟨q, hq, -⟩ := (h.link k hk).holds
  have hready : p.Ready ↔ p.revents &&& POLLIN ≠ 0 := by rw [PollFd.Ready, hpollin]
  by_cases hin : p.Ready
  · have hgone : ¬ Gone links (kept ++ n :: rest) k := fun hall ↦
      hall n (List.mem_append_right _ List.mem_cons_self) hcallback
    obtain ⟨w', data, hfill, hacted, hheld, hread⟩ := h.fill reads hapart hc hk hgone heof hroom
      (htold.readable (hready.1 hin))
    have hcall : (actions reads writes).call n.rule.callback w = ⟨.ok (), w', []⟩ := by
      rw [hcallback]
      show effect w (Relay.fill reads k (links k).source w) = _
      rw [hfill]
      rfl
    have hcount : n.rule.serviceCount w ≠ n.rule.serviceCount w' := by
      rw [hrule]
      show (w.fds (links k).source).readCount ≠ (w'.fds (links k).source).readCount
      rw [hread]
      exact Drain.readCount_ne_add_one _
    rw [Client.react_of_ready htold.no_error hin hcall hcount]
    refine .of_callback hacted.inv hacted.lt fun m hm r hr ↦ ?_
    refine h.pending (List.mem_append_right _ (List.mem_cons_of_mem _ hm)) (fun j hj hmrule ↦ ?_)
      hacted.steady (fun j hj _ houtput ↦ ?_) hr
    · have hne : j ≠ k := by
        rintro rfl
        refine h.callback_ne (List.mem_append_right _ hm) ?_
        rw [hmrule, hrule]
      have hagree := hacted.others j hj hne
      exact ⟨(congrArg List.length hagree.held_eq).le, hagree.eof_eq, hagree.got_eq⟩
    · -- what was to be written is still there, with more behind it
      rcases eq_or_ne j k with rfl | hne
      · rw [hheld]
        exact fun hnil ↦ houtput (List.append_eq_nil_iff.1 hnil).1
      · rw [(hacted.others j hj hne).held_eq]
        exact houtput
  by_cases hdefunct : p.Defunct
  · have hnot : p.revents &&& POLLIN = 0 := not_not.1 fun hne ↦ hin (hready.2 hne)
    obtain ⟨hnil, hfinished⟩ := htold.hangup hdefunct.2.1 hnot
    obtain ⟨hinv, hlt⟩ := h.ended hrule hk (Drain.drained_of_available
      (w := ⟨w.fds, w.user.feed⟩) hq.got_prefix hnil hfinished)
    have hcall : (actions reads writes).call n.rule.cancel w = ⟨.ok (), Relay.ended w k, []⟩ := by
      rw [hrule]
      rfl
    rw [Client.react_of_defunct htold.no_error hdefunct hcall]
    exact ⟨⟨rfl, rfl, hinv, hlt.le⟩, fun _ ↦ hlt, fun m _ r hr ↦ ⟨fun hne ↦ hr.asked hne, hr.told⟩⟩
  · rw [Client.react_of_quiet _ htold.no_error hin hdefunct]
    exact .of_quiet h hin hdefunct

/-- One more turn of the counter shows, although the counter wraps. -/
theorem writeCount_ne_add_one (f : FDWrapper) : f.writeCount ≠ f.writeCount + 1 :=
  Drain.readCount_ne_add_one { f with readCount := f.writeCount }

/-- **The result loop at the rule for a sink**: it writes, or has asked for nothing. -/
theorem Relaying.react_sink (reads writes : ℕ → ℕ)
    (h : Relaying links num A F (kept ++ n :: rest) w) (hk : k < num)
    (hc : (links k).capacity ≤ 2 ^ 30) (hrule : n.rule = sinkRule k (links k)) {p : PollFd}
    (hp : (client links num A F).Pending w n p) :
    (client links num A F).Reacts kept rest n w p (n.react (actions reads writes) p w) := by
  have hcallback : n.rule.callback = .flush k (links k).sink := by rw [hrule]; rfl
  have htold := hp.told
  dsimp only [client] at htold
  rw [hcallback] at htold
  obtain ⟨herror, hhup⟩ := htold
  -- the other side of a sink does not go away
  have hdefunct : ¬ p.Defunct := fun hd ↦ hd.2.1 hhup
  by_cases hready : p.Ready
  · have hasked := hp.asked hready.ne_zero.1
    dsimp only [client] at hasked
    rw [hcallback] at hasked
    obtain ⟨-, houtput⟩ := hasked.resolve_right fun hzero ↦ hready.ne_zero.1 hzero.1
    obtain ⟨w', size, hflush, hacted, hheld, hgot, heof, hwritten⟩ := h.flush writes hc hk houtput
    have hcall : (actions reads writes).call n.rule.callback w = ⟨.ok (), w', []⟩ := by
      rw [hcallback]
      show effect w (Relay.flush writes k (links k).sink w) = _
      rw [hflush]
      rfl
    have hcount : n.rule.serviceCount w ≠ n.rule.serviceCount w' := by
      rw [hrule]
      show (w.fds (links k).sink).writeCount ≠ (w'.fds (links k).sink).writeCount
      rw [hwritten]
      exact writeCount_ne_add_one _
    rw [Client.react_of_ready herror hready hcall hcount]
    refine .of_callback hacted.inv hacted.lt fun m hm r hr ↦ ?_
    refine h.pending (List.mem_append_right _ (List.mem_cons_of_mem _ hm)) (fun j hj _ ↦ ?_)
      hacted.steady (fun j hj hmrule houtput' ↦ ?_) hr
    · -- there is as much room as before, or more
      refine ⟨?_, heof _, congrFun hgot _⟩
      rcases eq_or_ne j k with rfl | hne
      · rw [hheld, List.length_drop]
        exact Nat.sub_le _ _
      · rw [(hacted.others j hj hne).held_eq]
    · have hne : j ≠ k := by
        rintro rfl
        refine h.callback_ne (List.mem_append_right _ hm) ?_
        rw [hmrule, hrule]
      rw [(hacted.others j hj hne).held_eq]
      exact houtput'
  · rw [Client.react_of_quiet _ herror hready hdefunct]
    exact .of_quiet h hready hdefunct

/-- **The links are a sound client** of the event loop. -/
theorem sound_client (reads writes : ℕ → ℕ) (hapart : Apart links num)
    (hc : ∀ k < num, (links k).capacity ≤ 2 ^ 30) :
    (client links num A F).Sound (actions reads writes) where
  takeUp := by
    intro kept rest n w h
    obtain ⟨k, hk, hrule | hrule⟩ := Relaying.cases h
    · exact Relaying.takeUp_source reads writes h hk (hc k hk) hrule
    · exact Relaying.takeUp_sink reads writes h hk hrule
  react := by
    intro kept rest n w p h hp
    obtain ⟨k, hk, hrule | hrule⟩ := Relaying.cases h
    · exact Relaying.react_source reads writes hapart h hk (hc k hk) hrule hp
    · exact Relaying.react_sink reads writes h hk (hc k hk) hrule hp

end Relay
