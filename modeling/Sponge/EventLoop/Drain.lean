import Mathlib.Algebra.Order.BigOperators.Group.List
import Mathlib.Algebra.Order.Ring.Nat
import Mathlib.Data.List.Nodup
import Sponge.EventLoop.Clients
import Sponge.FileDescriptor.Read
import Sponge.Lib.Machine

/-!
# An event loop that reads its descriptors to the end

`EventLoop` and `FileDescriptor` put together as they are meant to be: rules for reading, one for
each of several descriptors, with the default interest and cancellation, and callbacks that call
`read`. Bytes arrive at the descriptors between the calls of `wait_next_event`, in any order and in
any portions, until the writers finish; a call of `read` returns any part of what has arrived.

What `poll(2)` says has to be true: an event of reading means that there is something to read or the
writer has finished, and a mere hangup that the writer has finished and nothing is left.

Then the parts fit. No call throws, and in particular none is mistaken for a busy wait, since every
callback is counted; every call that returns `Success` has got something done, so there are only so
many of them; and `Exit` means that every descriptor has been read to its end. It does not matter
whether the end is noticed by `read`, which sets `_eof` and has the rule cancelled by the next call,
or by `poll`, as a hangup.
-/

open Cpp Machine

namespace Drain

/-! ### The descriptors -/

/-- What arrives at the descriptors, and what has been read from them. -/
structure Feed where
  arrived : ℕ → Bytes
  got : ℕ → Bytes
  /-- The writer has finished. -/
  finished : ℕ → Bool
  /-- How many times `read(2)` has been called. -/
  reads : ℕ

/-- What has arrived and not been read. -/
def Feed.available (f : Feed) (fd : ℕ) : Bytes := (f.arrived fd).drop (f.got fd).length

/-- Everything has been read that will ever arrive. -/
def Feed.Drained (f : Feed) (fd : ℕ) : Prop := f.finished fd = true ∧ f.got fd = f.arrived fd

/-- `EAGAIN`. -/
def eagain : ℤ := 11

/-- The answer of `read(2)`: a part of what is there, and nothing only at the end. The `i`-th call
returns at most `amount i + 1` bytes. -/
def readAnswer (amount : ℕ → ℕ) (f : Feed) (fd limit : ℕ) : ReadAnswer :=
  if f.available fd = [] ∧ f.finished fd = false then .failed eagain
  else .returned ((f.available fd).take (min (FDWrapper.sizeToRead limit) (amount f.reads + 1)))

/-- The closures: a callback that reads, and the defaults of `add_rule`. -/
inductive Code where
  | read (fd limit : ℕ)
  | always
  | nothing
  deriving DecidableEq, Repr

/-- The world after `data` has been read from `fd`. -/
def received (w : World Feed) (fd limit : ℕ) (data : Bytes) : World Feed where
  fds := Function.update w.fds fd ((w.fds fd).afterRead limit data)
  user := { w.user with
    got := Function.update w.user.got fd (w.user.got fd ++ data)
    reads := w.user.reads + 1 }

/-- A callback that reads. -/
def callRead (amount : ℕ → ℕ) (fd limit : ℕ) (w : World Feed) : Effect Code Feed Unit :=
  match (w.fds fd).read limit (readAnswer amount w.user fd limit) with
  | .error e f => ⟨.error e, { w with fds := Function.update w.fds fd f }, []⟩
  | .ok data f => ⟨.ok (), { received w fd limit data with fds := Function.update w.fds fd f }, []⟩

/-- The meaning of the closures. -/
def actions (amount : ℕ → ℕ) : Actions Code Feed where
  call
    | .read fd limit, w => callRead amount fd limit w
    | _, w => ⟨.ok (), w, []⟩
  ask _ w := ⟨.ok true, w, []⟩

/-- The rule that reads from `fd`. -/
def readRule (fd limit : ℕ) : Rule Code := ⟨fd, .In, .read fd limit, .always, .nothing⟩

/-- What `poll` says about a descriptor is true. -/
structure Truthful (f : Feed) (fd : ℕ) (revents : Short) : Prop where
  no_error : revents &&& (POLLERR ||| POLLNVAL) = 0
  readable : revents &&& POLLIN ≠ 0 → f.available fd ≠ [] ∨ f.finished fd = true
  hangup : revents &&& POLLHUP ≠ 0 → revents &&& POLLIN = 0 →
    f.available fd = [] ∧ f.finished fd = true
  /-- There is no other event. -/
  event : revents ≠ 0 → revents &&& POLLIN ≠ 0 ∨ revents &&& POLLHUP ≠ 0

instance (f : Feed) (fd : ℕ) (revents : Short) : Decidable (Truthful f fd revents) :=
  decidable_of_iff (revents &&& (POLLERR ||| POLLNVAL) = 0 ∧
      (revents &&& POLLIN ≠ 0 → f.available fd ≠ [] ∨ f.finished fd = true) ∧
      (revents &&& POLLHUP ≠ 0 → revents &&& POLLIN = 0 →
        f.available fd = [] ∧ f.finished fd = true) ∧
      (revents ≠ 0 → revents &&& POLLIN ≠ 0 ∨ revents &&& POLLHUP ≠ 0))
    ⟨fun h ↦ ⟨h.1, h.2.1, h.2.2.1, h.2.2.2⟩, fun h ↦ ⟨h.1, h.2, h.3, h.4⟩⟩

variable {amount : ℕ → ℕ} {w : World Feed} {fd limit : ℕ}

/-! ### Reading -/

theorem fds_received_self (data : Bytes) :
    (received w fd limit data).fds fd = (w.fds fd).afterRead limit data :=
  Function.update_self _ _ _

theorem fds_received_of_ne {fd' : ℕ} (h : fd' ≠ fd) (data : Bytes) :
    (received w fd limit data).fds fd' = w.fds fd' :=
  Function.update_of_ne h _ _

theorem got_received_self (data : Bytes) :
    (received w fd limit data).user.got fd = w.user.got fd ++ data :=
  Function.update_self _ _ _

theorem got_received_of_ne {fd' : ℕ} (h : fd' ≠ fd) (data : Bytes) :
    (received w fd limit data).user.got fd' = w.user.got fd' :=
  Function.update_of_ne h _ _

/-- One more turn of the counter shows, although the counter wraps. -/
theorem readCount_ne_add_one (f : FDWrapper) : f.readCount ≠ f.readCount + 1 := by
  intro h
  have hnat := congrArg UInt32.toNat h
  have hone : (1 : UInt32).toNat = 1 := rfl
  have hlt := f.readCount.toNat_lt
  rw [UInt32.toNat_add] at hnat
  omega

/-- A call of `read` that is made for an event of reading: something is read, or the end. -/
theorem exists_read (amount : ℕ → ℕ) {f : Feed} (hlimit : 0 < limit)
    (h : f.available fd ≠ [] ∨ f.finished fd = true) :
    ∃ data, data <+: f.available fd ∧ data.length ≤ limit ∧
      (data = [] → f.available fd = [] ∧ f.finished fd = true) ∧
      ∀ wrapper : FDWrapper, wrapper.read limit (readAnswer amount f fd limit) =
        .ok data (wrapper.afterRead limit data) := by
  have hnot : ¬ (f.available fd = [] ∧ f.finished fd = false) := by
    rintro ⟨hnil, hfalse⟩
    rcases h with hne | htrue
    · exact hne hnil
    · exact absurd (hfalse.symm.trans htrue) (by simp)
  have hle : FDWrapper.sizeToRead limit ≤ limit := Nat.min_le_right _ _
  have hsize : 0 < FDWrapper.sizeToRead limit := by
    rw [FDWrapper.sizeToRead, FDWrapper.bufferSize]
    omega
  refine ⟨_, List.take_prefix (min (FDWrapper.sizeToRead limit) (amount f.reads + 1)) _, ?_, ?_,
    fun wrapper ↦ ?_⟩
  · rw [List.length_take]
    omega
  · intro hdata
    rcases List.take_eq_nil_iff.1 hdata with hzero | hnil
    · omega
    · exact ⟨hnil, (h.resolve_left (not_not_intro hnil))⟩
  · rw [readAnswer, if_neg hnot, FDWrapper.read_of_returned]
    rw [List.length_take]
    omega

/-- A callback that is called for an event of reading reads. -/
theorem callRead_eq (amount : ℕ → ℕ) (hlimit : 0 < limit)
    (h : w.user.available fd ≠ [] ∨ w.user.finished fd = true) :
    ∃ data, data <+: w.user.available fd ∧
      (data = [] → w.user.available fd = [] ∧ w.user.finished fd = true) ∧
      callRead amount fd limit w = ⟨.ok (), received w fd limit data, []⟩ := by
  obtain ⟨data, hdata, -, hempty, hread⟩ := exists_read amount hlimit h
  exact ⟨data, hdata, hempty, by rw [callRead, hread]; rfl⟩

/-- **The reaction of a rule** to what `poll` truthfully says: none; it reads; or it is cancelled
for a hangup, when there is nothing left. -/
theorem react_cases (amount : ℕ → ℕ) {n : Node Code} {p : PollFd}
    (hrule : n.rule = readRule fd limit) (hlimit : 0 < limit) (hevents : p.events = POLLIN)
    (htrue : Truthful w.user fd p.revents) :
    (¬ p.Ready ∧ ¬ p.Defunct ∧
      n.react (actions amount) p w = ⟨⟨n, w, w, some p, []⟩, [], false⟩) ∨
    (∃ data, data <+: w.user.available fd ∧
      (data = [] → w.user.available fd = [] ∧ w.user.finished fd = true) ∧
      n.react (actions amount) p w =
        ⟨⟨n, w, received w fd limit data, some p, [.callback]⟩, [], false⟩) ∨
    (w.user.available fd = [] ∧ w.user.finished fd = true ∧
      n.react (actions amount) p w = ⟨⟨n, w, w, some p, [.cancel]⟩, [], false⟩) := by
  have hready : p.Ready ↔ p.revents &&& POLLIN ≠ 0 := by rw [PollFd.Ready, hevents]
  by_cases hin : p.Ready
  · obtain ⟨data, hdata, hempty, hcall⟩ :=
      callRead_eq amount hlimit (htrue.readable (hready.1 hin))
    have hcall' : (actions amount).call n.rule.callback w =
        ⟨.ok (), received w fd limit data, []⟩ := by
      rw [hrule]
      exact hcall
    -- the callback has been counted, so it is not taken for a busy wait
    have hcount : n.rule.serviceCount w ≠ n.rule.serviceCount (received w fd limit data) := by
      rw [hrule]
      show (w.fds fd).readCount ≠ ((received w fd limit data).fds fd).readCount
      rw [fds_received_self]
      exact readCount_ne_add_one (w.fds fd)
    exact Or.inr (Or.inl ⟨data, hdata, hempty,
      Client.react_of_ready htrue.no_error hin hcall' hcount⟩)
  by_cases hdefunct : p.Defunct
  · have hnot : p.revents &&& POLLIN = 0 := not_not.1 fun hne ↦ hin (hready.2 hne)
    obtain ⟨hnil, hfinished⟩ := htrue.hangup hdefunct.2.1 hnot
    have hcall : (actions amount).call n.rule.cancel w = ⟨.ok (), w, []⟩ := by
      rw [hrule]
      rfl
    exact Or.inr (Or.inr ⟨hnil, hfinished, Client.react_of_defunct htrue.no_error hdefunct hcall⟩)
  · exact Or.inl ⟨hin, hdefunct, Client.react_of_quiet _ htrue.no_error hin hdefunct⟩

/-! ### The invariant -/

/-- The rule for `fd` has come to its end: the end of the file has been seen, or the rule has been
cancelled. -/
def Retired (nodes : List (Node Code)) (w : World Feed) (fd : ℕ) : Prop :=
  (w.fds fd).eof = true ∨ ∀ n ∈ nodes, n.rule.fd ≠ fd

instance (nodes : List (Node Code)) (w : World Feed) (fd : ℕ) : Decidable (Retired nodes w fd) :=
  inferInstanceAs (Decidable (_ ∨ _))

/-- **The invariant**, for the descriptors `fds` and the rules that are left. -/
structure Draining (fds : List ℕ) (nodes : List (Node Code)) (w : World Feed) : Prop where
  /-- There is at most one rule for a descriptor. -/
  sublist : (nodes.map fun n ↦ n.rule.fd).Sublist fds
  rule : ∀ n ∈ nodes, ∃ limit, 0 < limit ∧ n.rule = readRule n.rule.fd limit
  got_prefix : ∀ fd ∈ fds, w.user.got fd <+: w.user.arrived fd
  not_closed : ∀ fd ∈ fds, (w.fds fd).closed = false
  drained : ∀ fd ∈ fds, Retired nodes w fd → w.user.Drained fd

/-- What has been done about a descriptor: the bytes read, and one more for coming to the end. -/
def tally (nodes : List (Node Code)) (w : World Feed) (fd : ℕ) : ℕ :=
  (w.user.got fd).length + if Retired nodes w fd then 1 else 0

variable {fds : List ℕ} {nodes nodes' : List (Node Code)} {w' : World Feed}

theorem drained_of_available (hbegin : w.user.got fd <+: w.user.arrived fd)
    (hnil : w.user.available fd = []) (hfinished : w.user.finished fd = true) :
    w.user.Drained fd :=
  ⟨hfinished, hbegin.eq_of_length_le (List.drop_eq_nil_iff.1 hnil)⟩

theorem tally_le (hgot : (w.user.got fd).length ≤ (w'.user.got fd).length)
    (hretired : Retired nodes w fd → Retired nodes' w' fd) :
    tally nodes w fd ≤ tally nodes' w' fd := by
  rw [tally, tally]
  by_cases h : Retired nodes w fd
  · rw [if_pos h, if_pos (hretired h)]
    omega
  · rw [if_neg h]
    omega

theorem tally_lt (hgot : (w.user.got fd).length ≤ (w'.user.got fd).length)
    (hnot : ¬ Retired nodes w fd)
    (hmore : (w.user.got fd).length < (w'.user.got fd).length ∨ Retired nodes' w' fd) :
    tally nodes w fd < tally nodes' w' fd := by
  rw [tally, tally, if_neg hnot]
  rcases hmore with hlt | hyes
  · omega
  · rw [if_pos hyes]
    omega

theorem tally_le_arrived (h : Draining fds nodes w) (hfd : fd ∈ fds) :
    tally nodes w fd ≤ (w.user.arrived fd).length + 1 := by
  have hle := (h.got_prefix fd hfd).length_le
  rw [tally]
  split <;> omega

/-- **Reading keeps the invariant**, and something has been done about the descriptor. -/
theorem Draining.received (h : Draining fds nodes w) (hfd : fd ∈ fds)
    (hnot : ¬ Retired nodes w fd) (hlimit : 0 < limit) {data : Bytes}
    (hdata : data <+: w.user.available fd)
    (hempty : data = [] → w.user.available fd = [] ∧ w.user.finished fd = true) :
    Draining fds nodes (received w fd limit data) ∧
      (∀ fd', tally nodes w fd' ≤ tally nodes (Drain.received w fd limit data) fd') ∧
      tally nodes w fd < tally nodes (Drain.received w fd limit data) fd := by
  have heof : (w.fds fd).eof = false := Bool.eq_false_iff.2 fun heof ↦ hnot (Or.inl heof)
  have heof' : ((Drain.received w fd limit data).fds fd).eof = data.isEmpty := by
    rw [fds_received_self]
    show ((w.fds fd).eof || (decide (0 < limit) && data.isEmpty)) = _
    rw [heof, Bool.false_or, decide_eq_true hlimit, Bool.true_and]
  have hgot : w.user.got fd ++ data <+: w.user.arrived fd := by
    obtain ⟨rest, hrest⟩ := h.got_prefix fd hfd
    obtain ⟨more, hmore⟩ := hdata
    rw [Feed.available, ← hrest, List.drop_left] at hmore
    exact ⟨more, by rw [List.append_assoc, hmore, hrest]⟩
  -- the rules are the same, so only an end of file makes a difference
  have hretired : ∀ fd', fd' ≠ fd →
      (Retired nodes (Drain.received w fd limit data) fd' ↔ Retired nodes w fd') := by
    intro fd' hne
    rw [Retired, Retired, fds_received_of_ne hne]
  refine ⟨⟨h.sublist, h.rule, ?_, ?_, ?_⟩, ?_, ?_⟩
  · intro fd' hfd'
    rcases eq_or_ne fd' fd with rfl | hne
    · rw [got_received_self]
      exact hgot
    · rw [got_received_of_ne hne]
      exact h.got_prefix fd' hfd'
  · intro fd' hfd'
    rcases eq_or_ne fd' fd with rfl | hne
    · rw [fds_received_self]
      exact h.not_closed fd' hfd'
    · rw [fds_received_of_ne hne]
      exact h.not_closed fd' hfd'
  · intro fd' hfd' hret
    rcases eq_or_ne fd' fd with rfl | hne
    · -- the end of the file has been seen by this call
      have hnil : data = [] := by
        rcases hret with heof'' | hall
        · rw [heof'] at heof''
          exact List.isEmpty_iff.1 heof''
        · exact absurd (Or.inr hall) hnot
      obtain ⟨hnone, hfinished⟩ := hempty hnil
      obtain ⟨hfin, heq⟩ := drained_of_available (h.got_prefix fd' hfd') hnone hfinished
      exact ⟨hfin, by rw [got_received_self, hnil, List.append_nil]; exact heq⟩
    · obtain ⟨hfin, heq⟩ := h.drained fd' hfd' ((hretired fd' hne).1 hret)
      exact ⟨hfin, by rw [got_received_of_ne hne]; exact heq⟩
  · intro fd'
    rcases eq_or_ne fd' fd with rfl | hne
    · refine tally_le ?_ fun hret ↦ absurd hret hnot
      rw [got_received_self, List.length_append]
      exact Nat.le_add_right _ _
    · refine tally_le ?_ (hretired fd' hne).2
      rw [got_received_of_ne hne]
  · have hlen : ((Drain.received w fd limit data).user.got fd).length =
        (w.user.got fd).length + data.length := by
      rw [got_received_self, List.length_append]
    refine tally_lt (by omega) hnot ?_
    rcases data with - | ⟨b, bs⟩
    · exact Or.inr (Or.inl heof')
    · rw [List.length_cons] at hlen
      exact Or.inl (by omega)

/-- **Cancelling rules keeps the invariant**, if their descriptors have been read to the end. -/
theorem Draining.of_sublist (h : Draining fds nodes w) (hsub : nodes'.Sublist nodes)
    (hgone : ∀ n ∈ nodes, n ∉ nodes' → w.user.Drained n.rule.fd) :
    Draining fds nodes' w ∧ ∀ fd', tally nodes w fd' ≤ tally nodes' w fd' := by
  refine ⟨⟨(hsub.map _).trans h.sublist, fun n hn ↦ h.rule n (hsub.subset hn), h.got_prefix,
    h.not_closed, ?_⟩, fun fd' ↦ tally_le le_rfl ?_⟩
  · intro fd' hfd' hret
    by_cases hold : Retired nodes w fd'
    · exact h.drained fd' hfd' hold
    · -- there was a rule for this descriptor, and now there is none
      obtain ⟨n, hn, hnfd⟩ : ∃ n ∈ nodes, n.rule.fd = fd' := by
        by_contra hnone
        exact hold (Or.inr fun n hn hnfd ↦ hnone ⟨n, hn, hnfd⟩)
      have hall : ∀ n ∈ nodes', n.rule.fd ≠ fd' := hret.resolve_left fun heof ↦ hold (Or.inl heof)
      exact hnfd ▸ hgone n hn fun hmem ↦ hall n hmem hnfd
  · rintro (heof | hall)
    · exact Or.inl heof
    · exact Or.inr fun n hn ↦ hall n (hsub.subset hn)

/-! ### The set-up loop -/

/-- The rules whose descriptors are not at their end. -/
def alive (nodes : List (Node Code)) (w : World Feed) : List (Node Code) :=
  nodes.filter fun n ↦ !decide (n.Dead w)

/-- What a turn of the set-up loop does: cancel the rule, or push an entry for it. -/
theorem takeUp_eq (amount : ℕ → ℕ) {n : Node Code} (hrule : n.rule = readRule n.rule.fd limit)
    (w : World Feed) :
    n.takeUp (actions amount) w =
      if n.Dead w then ⟨⟨n, w, w, none, [.cancel]⟩, [], false⟩
      else ⟨⟨n, w, w, some (n.rule.entry w true), [.interest (.ok true)]⟩, [], false⟩ := by
  rw [Node.takeUp]
  split
  · rw [Node.drop, hrule]
    rfl
  · rfl

/-- **The set-up loop** keeps the rules that are alive, and polls them. -/
theorem setUp_eq (amount : ℕ → ℕ) {s : Pass Code Feed} {fuel : ℕ} (htodo : s.todo = nodes)
    (hrule : ∀ n ∈ nodes, ∃ limit, 0 < limit ∧ n.rule = readRule n.rule.fd limit)
    (hfuel : nodes.length < fuel) :
    ∃ vs, loop (Pass.setUpTurn (actions amount)) fuel s = some (pure (), { s with
      kept := s.kept ++ alive nodes s.world
      todo := []
      pollfds := s.pollfds ++ (alive nodes s.world).map fun n ↦ n.rule.entry s.world true
      somethingToPoll := s.somethingToPoll || !(alive nodes s.world).isEmpty
      visits := vs }) := by
  induction nodes generalizing s fuel with
  | nil =>
    obtain ⟨fuel, rfl⟩ : ∃ k, fuel = k + 1 := ⟨fuel - 1, by omega⟩
    refine ⟨s.visits, (loop_succ_of_done (Pass.setUpTurn_of_nil _ htodo)).trans ?_⟩
    simp only [alive, List.filter_nil, List.append_nil, List.map_nil, List.isEmpty_nil,
      Bool.not_true, Bool.or_false]
    rw [← htodo]
  | cons n rest ih =>
    obtain ⟨fuel, rfl⟩ : ∃ k, fuel = k + 1 := ⟨fuel - 1, by omega⟩
    obtain ⟨limit, -, hn⟩ := hrule n List.mem_cons_self
    have htake := takeUp_eq amount hn s.world
    have hcarries := Pass.carries_setUpTurn (actions amount) htodo
    rw [htake] at hcarries
    by_cases hdead : n.Dead s.world
    · rw [if_pos hdead] at hcarries
      obtain ⟨-, hnext⟩ := hcarries.resolve_right fun h ↦ absurd h.1 (by simp)
      rw [loop_succ_of_next hnext]
      have halive : alive (n :: rest) s.world = alive rest s.world :=
        List.filter_cons_of_neg (by simp [hdead])
      obtain ⟨vs, hloop⟩ := ih (s := (s.pushing ⟨n, s.world, s.world, none, [.cancel]⟩).follow rest
        ⟨⟨n, s.world, s.world, none, [.cancel]⟩, [], false⟩) rfl
        (fun m hm ↦ hrule m (List.mem_cons_of_mem _ hm)) (Nat.lt_of_succ_lt_succ hfuel)
      refine ⟨vs, hloop.trans ?_⟩
      rw [halive]
      simp [Pass.follow, Pass.pushing, Visit.cancelled, Visit.interested, EventLoop.addRules]
    · rw [if_neg hdead] at hcarries
      obtain ⟨-, hnext⟩ := hcarries.resolve_right fun h ↦ absurd h.1 (by simp)
      rw [loop_succ_of_next hnext]
      have halive : alive (n :: rest) s.world = n :: alive rest s.world :=
        List.filter_cons_of_pos (by simp [hdead])
      obtain ⟨vs, hloop⟩ := ih (s := (s.pushing ⟨n, s.world, s.world,
        some (n.rule.entry s.world true), [.interest (.ok true)]⟩).follow rest
        ⟨⟨n, s.world, s.world, some (n.rule.entry s.world true), [.interest (.ok true)]⟩, [],
          false⟩) rfl
        (fun m hm ↦ hrule m (List.mem_cons_of_mem _ hm)) (Nat.lt_of_succ_lt_succ hfuel)
      refine ⟨vs, hloop.trans ?_⟩
      rw [halive]
      simp [Pass.follow, Pass.pushing, Visit.cancelled, Visit.interested, EventLoop.addRules]

/-! ### The rules are a sound client -/

theorem Truthful.congr {f g : Feed} {revents : Short} (h : Truthful f fd revents)
    (havailable : g.available fd = f.available fd) (hfinished : g.finished fd = f.finished fd) :
    Truthful g fd revents where
  no_error := h.no_error
  readable hin := by
    rw [havailable, hfinished]
    exact h.readable hin
  hangup hhup hin := by
    rw [havailable, hfinished]
    exact h.hangup hhup hin
  event := h.event

/-- The rules, as a client of the event loop, which had the rules `first` at some time. -/
def client (fds : List ℕ) (first : List (Node Code)) : Client Code Feed where
  Inv nodes w := nodes.Sublist first ∧ Draining fds nodes w
  Asked w n events := events = POLLIN ∧ (w.fds n.rule.fd).eof = false
  Told w n revents := Truthful w.user n.rule.fd revents
  done nodes w := (fds.map (tally nodes w)).sum

variable {first kept rest : List (Node Code)} {n : Node Code}

theorem dead_iff (h : Draining fds nodes w) (hn : n ∈ nodes) :
    n.Dead w ↔ (w.fds n.rule.fd).eof = true := by
  obtain ⟨limit, -, hrule⟩ := h.rule n hn
  have hclosed := h.not_closed _ (h.sublist.subset (List.mem_map_of_mem hn))
  have hdir : n.rule.direction = .In := by rw [hrule]; rfl
  rw [Node.Dead, hdir, hclosed]
  simp

/-- **Cancelling a rule keeps the invariant**, if its descriptor has been read to the end. -/
theorem client_cancel (h : (client fds first).Inv (kept ++ n :: rest) w)
    (hdrained : w.user.Drained n.rule.fd) :
    (client fds first).Inv (kept ++ rest) w ∧
      ∀ fd', tally (kept ++ n :: rest) w fd' ≤ tally (kept ++ rest) w fd' := by
  have hsub : (kept ++ rest).Sublist (kept ++ n :: rest) :=
    List.Sublist.append_left (List.sublist_cons_self n rest) kept
  have hgone : ∀ m ∈ kept ++ n :: rest, m ∉ kept ++ rest → w.user.Drained m.rule.fd := by
    intro m hm hgone
    rcases List.mem_append.1 hm with hm | hm
    · exact absurd (List.mem_append_left _ hm) hgone
    rcases List.mem_cons.1 hm with rfl | hm
    · exact hdrained
    · exact absurd (List.mem_append_right _ hm) hgone
  obtain ⟨hdraining, hle⟩ := h.2.of_sublist hsub hgone
  exact ⟨⟨hsub.trans h.1, hdraining⟩, hle⟩

/-- **The set-up loop**: a rule that has come to the end of the file is cancelled, and any other is
polled. -/
theorem client_takeUp (amount : ℕ → ℕ) (h : (client fds first).Inv (kept ++ n :: rest) w) :
    (client fds first).Asks kept rest n w (n.takeUp (actions amount) w) := by
  have hmem : n ∈ kept ++ n :: rest := List.mem_append_right _ List.mem_cons_self
  obtain ⟨limit, -, hrule⟩ := h.2.rule n hmem
  have hdead := dead_iff h.2 hmem
  rw [takeUp_eq amount hrule w]
  by_cases heof : (w.fds n.rule.fd).eof = true
  · have hdrained := h.2.drained _ (h.2.sublist.subset (List.mem_map_of_mem hmem)) (Or.inl heof)
    obtain ⟨hinv, hle⟩ := client_cancel h hdrained
    rw [if_pos (hdead.2 heof)]
    exact ⟨⟨rfl, rfl, hinv, List.sum_le_sum fun fd _ ↦ hle fd⟩, fun p hp ↦ absurd hp (by simp),
      fun _ _ _ hm ↦ hm⟩
  · rw [if_neg fun hd ↦ heof (hdead.1 hd)]
    refine ⟨.of_stay rfl rfl rfl rfl h le_rfl, fun p hp ↦ ?_, fun _ _ _ hm ↦ hm⟩
    obtain rfl := Option.some.inj hp
    refine ⟨?_, Bool.eq_false_iff.2 heof⟩
    show n.rule.direction.toShort = POLLIN
    rw [hrule]
    rfl

/-- **The result loop**: a rule reads, or is cancelled for a hangup, if there is an event. -/
theorem client_react (amount : ℕ → ℕ) (hnodup : fds.Nodup)
    (h : (client fds first).Inv (kept ++ n :: rest) w) {p : PollFd}
    (hp : (client fds first).Pending w n p) :
    (client fds first).Reacts kept rest n w p (n.react (actions amount) p w) := by
  have hmem : n ∈ kept ++ n :: rest := List.mem_append_right _ List.mem_cons_self
  have hfd : n.rule.fd ∈ fds := h.2.sublist.subset (List.mem_map_of_mem hmem)
  obtain ⟨limit, hlimit, hrule⟩ := h.2.rule n hmem
  by_cases hevents : p.events = 0
  · obtain ⟨hready, hdefunct⟩ := Client.not_ready_of_events hevents
    rw [Client.react_of_quiet _ hp.told.no_error hready hdefunct]
    exact .of_quiet h hready hdefunct
  obtain ⟨hpollin, heof⟩ := hp.asked hevents
  -- no other rule is for the same descriptor
  have hother : ∀ m ∈ kept ++ rest, m.rule.fd ≠ n.rule.fd := by
    have hnd := hnodup.sublist h.2.sublist
    rw [List.map_append, List.map_cons, List.nodup_middle, List.nodup_cons, ← List.map_append]
      at hnd
    exact fun m hm heq ↦ hnd.1 (heq ▸ List.mem_map_of_mem hm)
  have hnot : ¬ Retired (kept ++ n :: rest) w n.rule.fd := by
    rintro (htrue | hall)
    · exact absurd (heof.symm.trans htrue) (by simp)
    · exact hall n hmem rfl
  rcases react_cases amount hrule hlimit hpollin hp.told with ⟨hready, hdefunct, hreact⟩ |
    ⟨data, hdata, hempty, hreact⟩ | ⟨hnil, hfinished, hreact⟩
  · rw [hreact]
    exact .of_quiet h hready hdefunct
  · obtain ⟨hdraining, hle, hlt⟩ := h.2.received hfd hnot hlimit hdata hempty
    rw [hreact]
    refine .of_callback ⟨h.1, hdraining⟩
      (List.sum_lt_sum _ _ (fun fd _ ↦ hle fd) ⟨_, hfd, hlt⟩) fun m hm q hq ↦ ?_
    have hne := hother m (List.mem_append_right _ hm)
    refine ⟨fun hq' ↦ ?_, hq.told.congr ?_ rfl⟩
    · obtain ⟨hpollin', heof'⟩ := hq.asked hq'
      exact ⟨hpollin', by rw [fds_received_of_ne hne]; exact heof'⟩
    · rw [Feed.available, got_received_of_ne hne]
      rfl
  · -- a hangup and nothing left: the rule goes, and that is the one thing more that is done
    have hdraining := h.2
    have hdrained := drained_of_available (hdraining.got_prefix _ hfd) hnil hfinished
    obtain ⟨hinv, hle⟩ := client_cancel h hdrained
    have hlt : tally (kept ++ n :: rest) w n.rule.fd < tally (kept ++ rest) w n.rule.fd :=
      tally_lt le_rfl hnot (Or.inr (Or.inr hother))
    rw [hreact]
    exact ⟨⟨rfl, rfl, hinv, List.sum_le_sum fun fd _ ↦ hle fd⟩,
      fun _ ↦ List.sum_lt_sum _ _ (fun fd _ ↦ hle fd) ⟨_, hfd, hlt⟩, fun _ _ _ hq ↦ hq⟩

theorem sound_client (amount : ℕ → ℕ) (hnodup : fds.Nodup) :
    (client fds first).Sound (actions amount) where
  takeUp h := client_takeUp amount h
  react h hp := client_react amount hnodup h hp

/-! ### The whole call -/

/-- The answer of `poll` to the entries for `nodes`: it does not fail, it tells the truth about each
entry, and a positive count means an event. -/
def Answers (nodes : List (Node Code)) (w : World Feed) : PollAnswer → Prop
  | .failed _ => False
  | .ready count revents =>
    (0 < count → ∃ i < nodes.length, revents i ≠ 0) ∧
      ∀ i, ∀ h : i < nodes.length, Truthful w.user nodes[i].rule.fd (revents i)

instance (nodes : List (Node Code)) (w : World Feed) (answer : PollAnswer) :
    Decidable (Answers nodes w answer) :=
  match answer with
  | .failed _ => isFalse id
  | .ready count revents => inferInstanceAs (Decidable
      ((0 < count → ∃ i < nodes.length, revents i ≠ 0) ∧
        ∀ i, ∀ h : i < nodes.length, Truthful w.user nodes[i].rule.fd (revents i)))

/-- **One call** of `wait_next_event`. The answer of `poll` is honest about the rules that the
set-up loop keeps, and if it counts an event then there is one to react to. -/
theorem exists_waited (amount : ℕ → ℕ) (hnodup : fds.Nodup) {l : EventLoop Code}
    (h : Draining fds l.rules w) {answer : PollAnswer}
    (hanswer : Answers (alive l.rules w) w answer) :
    ∃ o r, l.waitNextEvent (actions amount) (l.rules.length + 1) w answer = some o ∧
      (client fds l.rules).Waited (actions amount) l w answer o r ∧
      Client.Eventful (actions amount) l w answer := by
  obtain ⟨s, hsetUp, hkept, hworld, hpollfds⟩ : ∃ s,
      loop (Pass.setUpTurn (actions amount)) (l.rules.length + 1) (EventLoop.start l w) =
        some (pure (), s) ∧ s.kept = alive l.rules w ∧ s.world = w ∧
      s.pollfds = (alive l.rules w).map (fun n ↦ n.rule.entry w true) := by
    obtain ⟨vs, hsetUp⟩ :=
      setUp_eq amount (s := EventLoop.start l w) rfl h.rule (Nat.lt_succ_self _)
    exact ⟨_, hsetUp, rfl, rfl, rfl⟩
  rcases answer with ⟨count, revents⟩ | errno
  swap
  · exact absurd hanswer id
  -- the rules that `Answers` is about are those that the set-up loop keeps
  have hhonest : (client fds l.rules).Honest (actions amount) l w (.ready count revents) := by
    rw [Client.Honest, hsetUp]
    show ∀ i, ∀ h : i < s.kept.length, Truthful s.world.user (s.kept.get ⟨i, h⟩).rule.fd (revents i)
    rw [hkept, hworld]
    exact hanswer.2
  obtain ⟨o, r, hcall, ho⟩ :=
    (sound_client amount hnodup).waitNextEvent ⟨List.Sublist.refl _, h⟩ hhonest
  refine ⟨o, r, hcall, ho, fun hpos ↦ ?_⟩
  obtain ⟨i, hi, hne⟩ := hanswer.1 (Int.natCast_pos.1 hpos)
  have htrue := hanswer.2 i hi
  obtain ⟨limit, -, hrule⟩ := h.rule _ (List.mem_of_mem_filter (List.getElem_mem hi))
  obtain ⟨p, hp⟩ : ∃ p : PollFd, p = { (alive l.rules w)[i].rule.entry w true with
    revents := revents i } := ⟨_, rfl⟩
  have hevents : p.events = POLLIN := by
    rw [hp]
    show (alive l.rules w)[i].rule.direction.toShort = POLLIN
    rw [hrule]
    rfl
  have hrevents : p.revents = revents i := by rw [hp]
  refine ⟨s, hsetUp, p, ?_, ?_⟩
  · rw [hpollfds, hp]
    exact List.mem_mapIdx.2 ⟨i, by rw [List.length_map]; exact hi, by rw [List.getElem_map]; rfl⟩
  · -- an event is one of reading, or else a mere hangup
    by_cases hready : p.Ready
    · exact Or.inl hready
    · refine Or.inr ⟨by rw [hevents]; decide, ?_, hready⟩
      rw [PollFd.Ready, hevents, hrevents, not_not] at hready
      rw [hrevents]
      exact (htrue.event hne).resolve_left (not_not_intro hready)

/-! ### Runs -/

/-- The event loop, the descriptors, and the results of the calls so far. -/
structure System where
  loop : EventLoop Code
  world : World Feed
  results : List (Eval Exn EventLoop.Result)

/-- What can happen. -/
inductive Op where
  /-- Bytes arrive at a descriptor. -/
  | arrive (fd : ℕ) (data : Bytes)
  /-- The writer finishes. -/
  | finish (fd : ℕ)
  /-- The program calls `wait_next_event`, and `poll` gives the answer. -/
  | wait (answer : PollAnswer)

/-- `add_rule` for each descriptor, with the limit for its calls of `read`. -/
def addRules (rules : List (ℕ × ℕ)) : EventLoop Code :=
  rules.foldl (fun l r ↦ l.addRule (readRule r.1 r.2)) ⟨[], 0⟩

/-- Before anything has arrived. -/
def start (rules : List (ℕ × ℕ)) (wrappers : ℕ → FDWrapper) : System where
  loop := addRules rules
  world := ⟨wrappers, ⟨fun _ ↦ [], fun _ ↦ [], fun _ ↦ false, 0⟩⟩
  results := []

/-- The descriptors, after bytes have arrived at one of them. -/
def Feed.arrive (f : Feed) (fd : ℕ) (data : Bytes) : Feed :=
  { f with arrived := Function.update f.arrived fd (f.arrived fd ++ data) }

def Feed.finish (f : Feed) (fd : ℕ) : Feed :=
  { f with finished := Function.update f.finished fd true }

/-- One step; `none` if a writer that has finished writes again. -/
def step (amount : ℕ → ℕ) (s : System) : Op → Option System
  | .arrive fd data =>
    if s.world.user.finished fd then none
    else some { s with world := { s.world with user := s.world.user.arrive fd data } }
  | .finish fd => some { s with world := { s.world with user := s.world.user.finish fd } }
  | .wait answer =>
    (s.loop.waitNextEvent (actions amount) (s.loop.rules.length + 1) s.world answer).map
      fun o ↦ ⟨o.loop, o.world, s.results ++ [o.result]⟩

/-- The condition on a step: `poll` answers truthfully. -/
def Honest (s : System) : Op → Prop
  | .wait answer => Answers (alive s.loop.rules s.world) s.world answer
  | _ => True

instance (s : System) (op : Op) : Decidable (Honest s op) :=
  match op with
  | .arrive _ _ => isTrue trivial
  | .finish _ => isTrue trivial
  | .wait answer => inferInstanceAs
      (Decidable (Answers (alive s.loop.rules s.world) s.world answer))

/-- How many calls have returned `Success`. -/
def successes (results : List (Eval Exn EventLoop.Result)) : ℕ :=
  results.countP fun r ↦ decide (r = .ok .success)

/-- The sum of what has been done. -/
def total (fds : List ℕ) (s : System) : ℕ := (fds.map (tally s.loop.rules s.world)).sum

/-- **The invariant of a run.** -/
structure Inv (fds : List ℕ) (s : System) : Prop where
  draining : Draining fds s.loop.rules s.world
  returned : ∀ r ∈ s.results, ∃ v, r = .ok v
  successes_le : successes s.results ≤ total fds s
  exit : .ok .exit ∈ s.results → s.loop.rules = []

/-- What arrives and what finishes does not count as done. -/
theorem Inv.outside {s : System} {f : Feed} (h : Inv fds s) (hgot : f.got = s.world.user.got)
    (hbegin : ∀ fd, s.world.user.arrived fd <+: f.arrived fd)
    (hdrained : ∀ fd, s.world.user.Drained fd → f.Drained fd) :
    Inv fds { s with world := { s.world with user := f } } where
  draining := ⟨h.draining.sublist, h.draining.rule,
    fun fd hfd ↦ hgot ▸ (h.draining.got_prefix fd hfd).trans (hbegin fd),
    h.draining.not_closed, fun fd hfd hret ↦ hdrained fd (h.draining.drained fd hfd hret)⟩
  returned := h.returned
  successes_le := by
    refine h.successes_le.trans_eq ?_
    rw [total, total]
    congr 1
    refine List.map_congr_left fun fd _ ↦ ?_
    show _ = (f.got fd).length + _
    rw [hgot]
    rfl
  exit := h.exit

theorem successes_append (rs : List (Eval Exn EventLoop.Result)) (r : EventLoop.Result) :
    successes (rs ++ [.ok r]) = successes rs + if r = .success then 1 else 0 := by
  rw [successes, List.countP_append, List.countP_singleton]
  simp [successes]

/-- A call of `wait_next_event` keeps the invariant. -/
theorem Inv.wait {s : System} {answer : PollAnswer} {o : EventLoop.Outcome Code Feed}
    {r : EventLoop.Result} (h : Inv fds s)
    (ho : (client fds s.loop.rules).Waited (actions amount) s.loop s.world answer o r)
    (hevent : Client.Eventful (actions amount) s.loop s.world answer) :
    Inv fds ⟨o.loop, o.world, s.results ++ [o.result]⟩ := by
  rw [ho.result_eq]
  constructor
  · exact ho.inv.2
  · intro v hv
    rcases List.mem_append.1 hv with hv | hv
    · exact h.returned v hv
    · exact ⟨r, List.mem_singleton.1 hv⟩
  · have hle := h.successes_le
    show successes (s.results ++ [.ok r]) ≤ (client fds s.loop.rules).done o.loop.rules o.world
    rw [successes_append]
    rcases eq_or_ne r .success with hr | hr
    · rw [if_pos hr]
      exact hle.trans_lt (ho.success hr hevent)
    · rw [if_neg hr]
      exact hle.trans ho.le
  · intro hexit
    show o.loop.rules = []
    rcases List.mem_append.1 hexit with hexit | hexit
    · exact List.sublist_nil.1 (h.exit hexit ▸ ho.inv.1)
    · -- a rule that is left would have been polled
      refine List.eq_nil_iff_forall_not_mem.2 fun n hn ↦ ?_
      have hasked := ho.exit (Except.ok.inj (List.mem_singleton.1 hexit)).symm n hn
      exact absurd hasked.1 (by decide)

theorem Inv.step (hnodup : fds.Nodup) {s s' : System} {op : Op} (h : Inv fds s)
    (hhonest : Honest s op) (hstep : step amount s op = some s') : Inv fds s' := by
  cases op with
  | arrive fd data =>
    rw [Drain.step] at hstep
    split at hstep
    · exact absurd hstep (by simp)
    · rename_i hopen
      obtain rfl := Option.some.inj hstep
      refine h.outside rfl (fun fd' ↦ ?_) fun fd' hdrained ↦ ?_
      · show _ <+: Function.update s.world.user.arrived fd (s.world.user.arrived fd ++ data) fd'
        rcases eq_or_ne fd' fd with rfl | hne
        · rw [Function.update_self]
          exact List.prefix_append _ data
        · exact (Function.update_of_ne hne _ s.world.user.arrived).symm ▸ List.prefix_refl _
      · -- this writer has not finished
        have hne : fd' ≠ fd := by
          rintro rfl
          exact hopen hdrained.1
        exact ⟨hdrained.1,
          hdrained.2.trans (Function.update_of_ne hne _ s.world.user.arrived).symm⟩
  | finish fd =>
    obtain rfl := Option.some.inj hstep
    refine h.outside rfl (fun fd' ↦ List.prefix_refl _) fun fd' hdrained ↦ ⟨?_, hdrained.2⟩
    show Function.update s.world.user.finished fd true fd' = true
    rcases eq_or_ne fd' fd with rfl | hne
    · exact Function.update_self _ _ _
    · exact (Function.update_of_ne hne _ _).trans hdrained.1
  | wait answer =>
    obtain ⟨o, r, hcall, ho, hevent⟩ := exists_waited amount hnodup h.draining hhonest
    obtain ⟨o', hcall', rfl⟩ := Option.map_eq_some_iff.1 hstep
    obtain rfl := Option.some.inj (hcall.symm.trans hcall')
    exact h.wait ho hevent

/-! ### The start -/

theorem rules_addRules (rules : List (ℕ × ℕ)) :
    (addRules rules).rules.map Node.rule = rules.map fun r ↦ readRule r.1 r.2 := by
  have hfold : ∀ l : EventLoop Code, (rules.foldl (fun l r ↦ l.addRule (readRule r.1 r.2))
      l).rules.map Node.rule = l.rules.map Node.rule ++ rules.map fun r ↦ readRule r.1 r.2 := by
    induction rules with
    | nil => exact fun l ↦ (List.append_nil _).symm
    | cons r rules ih =>
      intro l
      rw [List.foldl_cons, ih, EventLoop.addRule, List.map_append, List.append_assoc]
      rfl
  exact hfold ⟨[], 0⟩

variable {rules : List (ℕ × ℕ)} {wrappers : ℕ → FDWrapper}

theorem inv_start (hlimit : ∀ r ∈ rules, 0 < r.2)
    (hopen : ∀ r ∈ rules, (wrappers r.1).eof = false ∧ (wrappers r.1).closed = false) :
    Inv (rules.map Prod.fst) (start rules wrappers) := by
  have hfds : ((addRules rules).rules.map fun n ↦ n.rule.fd) = rules.map Prod.fst := by
    have hmap := congrArg (List.map Rule.fd) (rules_addRules rules)
    rwa [List.map_map, List.map_map] at hmap
  constructor
  · refine ⟨hfds ▸ List.Sublist.refl _, fun n hn ↦ ?_, fun _ _ ↦ List.nil_prefix, ?_, ?_⟩
    · have hmem : n.rule ∈ (addRules rules).rules.map Node.rule := List.mem_map_of_mem hn
      rw [rules_addRules] at hmem
      obtain ⟨r, hr, heq⟩ := List.mem_map.1 hmem
      exact ⟨r.2, hlimit r hr, by rw [← heq]; rfl⟩
    · intro fd hfd
      obtain ⟨r, hr, rfl⟩ := List.mem_map.1 hfd
      exact (hopen r hr).2
    · rintro fd hfd (heof | hall)
      · obtain ⟨r, hr, rfl⟩ := List.mem_map.1 hfd
        exact absurd ((hopen r hr).1.symm.trans heof) (by simp)
      · obtain ⟨n, hn, rfl⟩ := List.mem_map.1 (hfds ▸ hfd)
        exact absurd rfl (hall n hn)
  · exact fun r hr ↦ absurd hr List.not_mem_nil
  · exact Nat.zero_le _
  · exact fun hexit ↦ absurd hexit List.not_mem_nil

/-- **Reading to the end.** In every run, with every order in which bytes arrive and calls are made
and every truthful answer of `poll`: no call of `wait_next_event` throws, and the next one returns
as well; what is read from a descriptor is what arrived at it, from the beginning and in order;
there are no more `Success`es than bytes that have arrived and descriptors; and once a call has
returned `Exit`, all descriptors have been read to their ends. -/
theorem run_drains (amount : ℕ → ℕ) (rules : List (ℕ × ℕ)) (wrappers : ℕ → FDWrapper)
    (hnodup : (rules.map Prod.fst).Nodup) (hlimit : ∀ r ∈ rules, 0 < r.2)
    (hopen : ∀ r ∈ rules, (wrappers r.1).eof = false ∧ (wrappers r.1).closed = false)
    (ops : List Op) (hhonest : Along (step amount) Honest ops (start rules wrappers)) (s : System)
    (h : exec (step amount) ops (start rules wrappers) = some s) :
    (∀ r ∈ s.results, ∃ v, r = .ok v) ∧
    (∀ answer, Honest s (.wait answer) → ∃ s', step amount s (.wait answer) = some s') ∧
    (∀ r ∈ rules, s.world.user.got r.1 <+: s.world.user.arrived r.1) ∧
    successes s.results ≤ (rules.map fun r ↦ (s.world.user.arrived r.1).length + 1).sum ∧
    (.ok .exit ∈ s.results → ∀ r ∈ rules, s.world.user.finished r.1 = true ∧
      s.world.user.got r.1 = s.world.user.arrived r.1) := by
  have hs : Inv (rules.map Prod.fst) s :=
    exec_inv_along (fun _ _ _ hs hc hstep ↦ hs.step hnodup hc hstep) (inv_start hlimit hopen)
      hhonest h
  have hmem : ∀ r ∈ rules, r.1 ∈ rules.map Prod.fst := fun r hr ↦ List.mem_map_of_mem hr
  refine ⟨hs.returned, fun answer hanswer ↦ ?_, fun r hr ↦ hs.draining.got_prefix _ (hmem r hr), ?_,
    fun hexit r hr ↦ ?_⟩
  · obtain ⟨o, r, hcall, -⟩ := exists_waited amount hnodup hs.draining hanswer
    exact ⟨_, Option.map_eq_some_iff.2 ⟨o, hcall, rfl⟩⟩
  · refine hs.successes_le.trans ?_
    rw [total, List.map_map]
    exact List.sum_le_sum fun r hr ↦ tally_le_arrived hs.draining (hmem r hr)
  · refine hs.draining.drained _ (hmem r hr) (Or.inr fun n hn ↦ ?_)
    rw [hs.exit hexit] at hn
    exact absurd hn List.not_mem_nil

/-- Two descriptors: one is read in two portions and to the end of the file, and the other hangs up
after its only byte. -/
theorem run_drains_two :
    let ops : List Op := [.arrive 0 [1, 2, 3], .arrive 1 [4], .finish 1,
      .wait (.ready 2 fun _ ↦ POLLIN), .finish 0,
      .wait (.ready 2 fun i ↦ if i = 0 then POLLIN else POLLHUP), .wait (.ready 1 fun _ ↦ POLLIN),
      .wait (.ready 0 fun _ ↦ 0)]
    let wrappers : ℕ → FDWrapper := fun i ↦ ⟨i, false, false, 0, 0⟩
    ∃ s, exec (step fun _ ↦ 1) ops (start [(0, 10), (1, 10)] wrappers) = some s ∧
      .ok .exit ∈ s.results ∧ s.world.user.got 0 = s.world.user.arrived 0 := by
  intro ops wrappers
  have hhonest : Along (step fun _ ↦ 1) Honest ops (start [(0, 10), (1, 10)] wrappers) := by
    decide +kernel
  obtain ⟨s, hs, hexit⟩ : ∃ s, exec (step fun _ ↦ 1) ops (start [(0, 10), (1, 10)] wrappers) =
      some s ∧ .ok .exit ∈ s.results := by
    have hrun : (exec (step fun _ ↦ 1) ops (start [(0, 10), (1, 10)] wrappers)).map
        (fun s ↦ decide (.ok .exit ∈ s.results)) = some true := by
      decide +kernel
    obtain ⟨s, hs, hdecide⟩ := Option.map_eq_some_iff.1 hrun
    exact ⟨s, hs, of_decide_eq_true hdecide⟩
  have hdrains := run_drains (fun _ ↦ 1) [(0, 10), (1, 10)] wrappers (by decide) (by decide)
    (by decide) ops hhonest s hs
  exact ⟨s, hs, hexit, (hdrains.2.2.2.2 hexit (0, 10) (by decide)).2⟩

end Drain
