import Sponge.ByteStream.EndOfInput
import Sponge.Relay.Rules

/-!
# Copying from descriptor to descriptor

Runs of a program that copies along links, while bytes arrive at their sources. The capacity is
respected at any time, and the links do not lose, repeat or reorder anything; no call throws, and
`Exit` means that everything has been passed on.

There is one thing that a link cannot promise: if its stream is full then the rule for the source
asks for nothing, and a hangup of the source makes `wait_next_event` return `Success` although
nothing was done. So what is bounded is the number of the calls that do something.
-/

open Cpp Machine ByteStream

namespace Relay

variable {reads writes : ℕ → ℕ} {w : World Net} {k : ℕ} {links : ℕ → Link} {num : ℕ}
  {A : ℕ → Bytes} {F : ℕ → Bool} {nodes : List (Node Code)}

/-! ### Runs -/

/-- The program and the kernel. -/
structure System where
  loop : EventLoop Code
  world : World Net
  results : List (Eval Exn EventLoop.Result)
  /-- How many calls of `wait_next_event` have called a closure for what `poll` said. -/
  busy : ℕ

/-- `add_rule` for the links before the given one. -/
def addRules (links : ℕ → Link) : ℕ → EventLoop Code
  | 0 => ⟨[], 0⟩
  | k + 1 => ((addRules links k).addRule (sourceRule k (links k))).addRule (sinkRule k (links k))

/-- Before anything has arrived. -/
def start (links : ℕ → Link) (num : ℕ) (wrappers : ℕ → FDWrapper) (streams : ℕ → ByteStream) :
    System where
  loop := addRules links num
  world := ⟨wrappers, ⟨⟨fun _ ↦ [], fun _ ↦ [], fun _ ↦ false, 0⟩, streams, fun _ ↦ [], 0⟩⟩
  results := []
  busy := 0

/-- The other side has done something. -/
def System.outside (s : System) (f : Drain.Feed) : System :=
  { s with world := { s.world with user := { s.world.user with feed := f } } }

/-- One step; `none` if a writer that has finished writes again. -/
def step (reads writes : ℕ → ℕ) (s : System) : Drain.Op → Option System
  | .arrive fd data =>
    if s.world.user.feed.finished fd then none
    else some (s.outside (s.world.user.feed.arrive fd data))
  | .finish fd => some (s.outside (s.world.user.feed.finish fd))
  | .wait answer =>
    (s.loop.waitNextEvent (actions reads writes) (s.loop.rules.length + 1) s.world answer).map
      fun o ↦ ⟨o.loop, o.world, s.results ++ [o.result],
        s.busy + if o.results.any (fun v ↦ !v.calls.isEmpty) then 1 else 0⟩

/-- The links in a state of a run. -/
def System.client (links : ℕ → Link) (num : ℕ) (s : System) : Client Code Net :=
  Relay.client links num s.world.user.feed.arrived s.world.user.feed.finished

instance (links : ℕ → Link) (num : ℕ) (s : System) (w : World Net) (n : Node Code)
    (revents : Short) : Decidable ((s.client links num).Told w n revents) :=
  inferInstanceAs (Decidable (Told w revents n.rule.callback))

/-- The condition on a step: `poll` answers truthfully. -/
def Honest (links : ℕ → Link) (num : ℕ) (reads writes : ℕ → ℕ) (s : System) : Drain.Op → Prop
  | .wait answer => (s.client links num).Honest (actions reads writes) s.loop s.world answer
  | _ => True

instance (links : ℕ → Link) (num : ℕ) (reads writes : ℕ → ℕ) (s : System) (op : Drain.Op) :
    Decidable (Honest links num reads writes s op) :=
  match op with
  | .arrive _ _ => isTrue trivial
  | .finish _ => isTrue trivial
  | .wait answer => inferInstanceAs (Decidable
      ((s.client links num).Honest (actions reads writes) s.loop s.world answer))

/-- What there is to do for the link `k`. -/
def whole (links : ℕ → Link) (w : World Net) (k : ℕ) : ℕ :=
  2 * (w.user.feed.arrived (links k).source).length + 2

theorem Linked.tally_le (h : Linked links nodes w k) : tally links nodes w k ≤ whole links w k := by
  obtain ⟨q, hq, -⟩ := h.holds
  have hsent := congrArg List.length hq.got_eq
  have hgot := hq.got_prefix.length_le
  rw [List.length_append] at hsent
  rw [tally, whole]
  split
  · omega
  · split <;> omega

/-- If there is nothing left to do then everything has arrived. -/
theorem Linked.complete (h : Linked links nodes w k)
    (hall : tally links nodes w k = whole links w k) :
    w.user.feed.finished (links k).source = true ∧
      w.user.sent k = w.user.feed.arrived (links k).source ∧ (w.user.streams k).eof = true := by
  obtain ⟨q, hq, hended⟩ := h.holds
  have hsent := congrArg List.length hq.got_eq
  have hgot := hq.got_prefix.length_le
  rw [List.length_append] at hsent
  rw [tally, whole] at hall
  have hgone : Gone links nodes k := by
    by_contra hnot
    rw [if_neg hnot] at hall
    split at hall <;> omega
  rw [if_pos hgone] at hall
  have hnil : q.queue = [] := List.length_eq_zero_iff.1 (by omega)
  obtain ⟨hfinished, hdrained⟩ := h.drained (Or.inr hgone)
  have heq := hq.got_eq
  rw [hnil, List.append_nil] at heq
  refine ⟨hfinished, heq.symm.trans hdrained, ?_⟩
  rw [hq.represents.eof_eq, hended hgone, hnil]
  rfl

/-- A link that has nothing to ask for has nothing left to do. -/
theorem Relaying.tally_of_idle (h : Relaying links num A F nodes w) (hk : k < num)
    (hc : 0 < (links k).capacity)
    (hidle : ∀ m ∈ nodes, (client links num A F).Asked w m 0) :
    tally links nodes w k = whole links w k := by
  obtain ⟨q, hq, -⟩ := (h.link k hk).holds
  -- the rule for the sink is always there, and asks unless the stream is empty
  have hheld : w.user.held k (links k) = [] := by
    obtain ⟨m, hm, hrule⟩ := (h.link k hk).sink
    have hasked := hidle m hm
    dsimp only [client] at hasked
    rw [show m.rule.callback = .flush k (links k).sink by rw [hrule]; rfl] at hasked
    exact (hasked.resolve_left fun hout ↦ absurd hout.1 (by decide)).2
  -- an empty stream has room, so a rule for the source would have asked
  have hgone : Gone links nodes k := by
    intro m hm hcallback
    have hasked := hidle m hm
    dsimp only [client] at hasked
    rw [hcallback] at hasked
    have hfull := (hasked.resolve_left fun hin ↦ absurd hin.1 (by decide)).2
    rw [hheld, List.length_nil] at hfull
    omega
  have hall := ((h.link k hk).drained (Or.inr hgone)).2
  have heq := hq.got_eq
  rw [← hq.held_eq, hheld, List.append_nil] at heq
  rw [tally, whole, if_pos hgone, ← heq, hall]
  omega

/-- **The invariant of a run.** -/
structure Inv (links : ℕ → Link) (num : ℕ) (s : System) : Prop where
  relaying : (s.client links num).Inv s.loop.rules s.world
  returned : ∀ r ∈ s.results, ∃ v, r = .ok v
  busy_le : s.busy ≤ (s.client links num).done s.loop.rules s.world
  exit : .ok .exit ∈ s.results →
    (s.client links num).done s.loop.rules s.world = ∑ k ∈ Finset.range num, whole links s.world k

variable {s s' : System}

theorem Inv.link (h : Inv links num s) (hk : k < num) : Linked links s.loop.rules s.world k :=
  h.relaying.link k hk

theorem Inv.done_le (h : Inv links num s) :
    (s.client links num).done s.loop.rules s.world ≤
      ∑ k ∈ Finset.range num, whole links s.world k :=
  Finset.sum_le_sum fun _ hj ↦ (h.link (Finset.mem_range.1 hj)).tally_le

/-- After `Exit`, nothing is left to do for any link. -/
theorem Inv.tally_eq (h : Inv links num s) (hexit : .ok .exit ∈ s.results) (hk : k < num) :
    tally links s.loop.rules s.world k = whole links s.world k :=
  (Finset.sum_eq_sum_iff_of_le fun _ hj ↦ (h.link (Finset.mem_range.1 hj)).tally_le).1
    (h.exit hexit) k (Finset.mem_range.2 hk)

/-- What arrives and what finishes is not done by the links. -/
theorem done_outside {f : Drain.Feed} (hgot : f.got = s.world.user.feed.got) :
    ((s.outside f).client links num).done s.loop.rules (s.outside f).world =
      (s.client links num).done s.loop.rules s.world := by
  show ∑ k ∈ Finset.range num, tally links s.loop.rules (s.outside f).world k =
    ∑ k ∈ Finset.range num, tally links s.loop.rules s.world k
  refine Finset.sum_congr rfl fun j _ ↦ ?_
  show (f.got _).length + _ + _ = _
  rw [hgot]
  rfl

theorem Inv.outside {f : Drain.Feed} (h : Inv links num s) (hgot : f.got = s.world.user.feed.got)
    (hbegin : ∀ fd, s.world.user.feed.arrived fd <+: f.arrived fd)
    (hstay : ∀ fd, s.world.user.feed.finished fd = true →
      f.finished fd = true ∧ f.arrived fd = s.world.user.feed.arrived fd) :
    Inv links num (s.outside f) where
  relaying := by
    refine ⟨h.relaying.rule, h.relaying.nodup, fun j hj ↦ ?_, rfl, rfl⟩
    obtain ⟨q, hq, hended⟩ := (h.link hj).holds
    refine ⟨⟨q, ⟨hq.represents, ?_, ?_⟩, hended⟩, (h.link hj).sink, fun hend ↦ ?_,
      (h.link hj).not_closed⟩
    · show f.got _ = _
      rw [hgot]
      exact hq.got_eq
    · show f.got _ <+: f.arrived _
      rw [hgot]
      exact hq.got_prefix.trans (hbegin _)
    · obtain ⟨hfinished, hall⟩ := (h.link hj).drained hend
      obtain ⟨hfinished', harrived⟩ := hstay _ hfinished
      refine ⟨hfinished', ?_⟩
      show f.got _ = f.arrived _
      rw [hgot, harrived]
      exact hall
  returned := h.returned
  busy_le := h.busy_le.trans_eq (done_outside hgot).symm
  exit hexit := by
    refine (done_outside hgot).trans ((h.exit hexit).trans (Finset.sum_congr rfl fun j hj ↦ ?_))
    -- after `Exit` the writers of all sources have finished, so what arrives is for nobody
    have hj' := Finset.mem_range.1 hj
    have hfinished := ((h.link hj').complete (h.tally_eq hexit hj')).1
    show _ = 2 * (f.arrived _).length + 2
    rw [(hstay _ hfinished).2]
    rfl

/-- A call of `wait_next_event` keeps the invariant. -/
theorem Inv.wait (hpos : ∀ k < num, 0 < (links k).capacity) (h : Inv links num s)
    {answer : PollAnswer} {o : EventLoop.Outcome Code Net} {r : EventLoop.Result}
    (ho : (s.client links num).Waited (actions reads writes) s.loop s.world answer o r) :
    Inv links num ⟨o.loop, o.world, s.results ++ [o.result],
      s.busy + if o.results.any (fun v ↦ !v.calls.isEmpty) then 1 else 0⟩ := by
  have hinv : Relaying links num s.world.user.feed.arrived s.world.user.feed.finished
    o.loop.rules o.world := ho.inv
  have harrived := hinv.arrived_eq
  have hwhole : ∀ j, whole links o.world j = whole links s.world j := by
    intro j
    rw [whole, whole, harrived]
  have hle := ho.le
  rw [ho.result_eq]
  constructor
  · exact ⟨hinv.rule, hinv.nodup, hinv.link, rfl, rfl⟩
  · intro v hv
    rcases List.mem_append.1 hv with hv | hv
    · exact h.returned v hv
    · exact ⟨r, List.mem_singleton.1 hv⟩
  · have hbusy := h.busy_le
    show s.busy + (if o.results.any (fun v ↦ !v.calls.isEmpty) = true then 1 else 0) ≤
      (s.client links num).done o.loop.rules o.world
    split
    · rename_i hany
      obtain ⟨v, hv, hcalls⟩ := List.any_eq_true.1 hany
      have hlt := ho.lt ⟨v, hv, by rintro hnil; simp [hnil] at hcalls⟩
      omega
    · omega
  · intro hexit
    show ∑ j ∈ Finset.range num, tally links o.loop.rules o.world j =
      ∑ j ∈ Finset.range num, whole links o.world j
    rcases List.mem_append.1 hexit with hexit | hexit
    · -- there was nothing left to do before, and nothing is undone
      refine le_antisymm (Finset.sum_le_sum fun j hj ↦
        (hinv.link j (Finset.mem_range.1 hj)).tally_le) ?_
      rw [Finset.sum_congr rfl fun j _ ↦ hwhole j, ← h.exit hexit]
      exact hle
    · have hidle := ho.exit (Except.ok.inj (List.mem_singleton.1 hexit)).symm
      exact Finset.sum_congr rfl fun j hj ↦ hinv.tally_of_idle (Finset.mem_range.1 hj)
        (hpos j (Finset.mem_range.1 hj)) hidle

theorem Inv.step (hapart : Apart links num)
    (hc : ∀ k < num, 0 < (links k).capacity ∧ (links k).capacity ≤ 2 ^ 30) (h : Inv links num s)
    {op : Drain.Op} (hhonest : Honest links num reads writes s op)
    (hstep : step reads writes s op = some s') : Inv links num s' := by
  cases op with
  | arrive fd data =>
    rw [Relay.step] at hstep
    split at hstep
    · exact absurd hstep (by simp)
    · rename_i hopen
      obtain rfl := Option.some.inj hstep
      refine h.outside rfl (fun fd' ↦ ?_) fun fd' hfinished ↦ ⟨hfinished, ?_⟩
      · show _ <+: Function.update s.world.user.feed.arrived fd _ fd'
        rcases eq_or_ne fd' fd with rfl | hne
        · rw [Function.update_self]
          exact List.prefix_append _ data
        · rw [Function.update_of_ne hne]
      · -- this writer has not finished
        have hne : fd' ≠ fd := by
          rintro rfl
          exact hopen hfinished
        exact Function.update_of_ne hne _ s.world.user.feed.arrived
  | finish fd =>
    obtain rfl := Option.some.inj hstep
    refine h.outside rfl (fun fd' ↦ List.prefix_refl _) fun fd' hfinished ↦ ⟨?_, rfl⟩
    show Function.update s.world.user.feed.finished fd true fd' = true
    rcases eq_or_ne fd' fd with rfl | hne
    · exact Function.update_self _ _ _
    · rw [Function.update_of_ne hne]
      exact hfinished
  | wait answer =>
    obtain ⟨o, r, hcall, ho⟩ := (sound_client reads writes hapart fun k hk ↦
      (hc k hk).2).waitNextEvent h.relaying hhonest
    obtain ⟨o', hcall', rfl⟩ := Option.map_eq_some_iff.1 hstep
    obtain rfl := Option.some.inj (hcall.symm.trans hcall')
    exact h.wait (fun k hk ↦ (hc k hk).1) ho

/-! ### The start -/

/-- Every rule is one of a link. -/
theorem mem_addRules {m : Node Code} (hm : m ∈ (addRules links num).rules) :
    ∃ k < num, m.rule = sourceRule k (links k) ∨ m.rule = sinkRule k (links k) := by
  induction num with
  | zero => exact absurd hm List.not_mem_nil
  | succ num ih =>
    rw [addRules, EventLoop.addRule, EventLoop.addRule, List.append_assoc] at hm
    rcases List.mem_append.1 hm with hm | hm
    · obtain ⟨k, hk, hrule⟩ := ih hm
      exact ⟨k, by omega, hrule⟩
    · refine ⟨num, Nat.lt_succ_self _, ?_⟩
      rcases List.mem_cons.1 hm with rfl | hm
      · exact Or.inl rfl
      · rw [List.mem_singleton.1 hm]
        exact Or.inr rfl

/-- Every link has its rules. -/
theorem exists_addRules (links : ℕ → Link) (hk : k < num) :
    (∃ m ∈ (addRules links num).rules, m.rule = sourceRule k (links k)) ∧
      ∃ m ∈ (addRules links num).rules, m.rule = sinkRule k (links k) := by
  induction num with
  | zero => exact absurd hk (Nat.not_lt_zero k)
  | succ num ih =>
    rw [addRules, EventLoop.addRule, EventLoop.addRule, List.append_assoc]
    rcases Nat.lt_succ_iff_lt_or_eq.1 hk with hk | rfl
    · obtain ⟨⟨m, hm, hsource⟩, m', hm', hsink⟩ := ih hk
      exact ⟨⟨m, List.mem_append_left _ hm, hsource⟩, m', List.mem_append_left _ hm', hsink⟩
    · exact ⟨⟨_, List.mem_append_right _ List.mem_cons_self, rfl⟩, _,
        List.mem_append_right _ (List.mem_cons_of_mem _ List.mem_cons_self), rfl⟩

theorem nodup_addRules (links : ℕ → Link) (num : ℕ) :
    ((addRules links num).rules.map fun m ↦ m.rule.callback).Nodup := by
  induction num with
  | zero => exact List.nodup_nil
  | succ num ih =>
    have hnew : ∀ m ∈ (addRules links num).rules,
        m.rule.callback ≠ .fill num (links num).source ∧
        m.rule.callback ≠ .flush num (links num).sink := by
      intro m hm
      obtain ⟨k, hk, hrule | hrule⟩ := mem_addRules hm
      · rw [hrule]
        exact ⟨fun heq ↦ hk.ne (Code.fill.inj heq).1, nofun⟩
      · rw [hrule]
        exact ⟨nofun, fun heq ↦ hk.ne (Code.flush.inj heq).1⟩
    rw [addRules, EventLoop.addRule, EventLoop.addRule, List.append_assoc, List.map_append]
    refine List.nodup_append.2 ⟨ih, by simp [sourceRule, sinkRule], fun a ha b hb ↦ ?_⟩
    obtain ⟨m, hm, rfl⟩ := List.mem_map.1 ha
    rcases List.mem_cons.1 hb with rfl | hb
    · exact (hnew m hm).1
    · rw [List.mem_singleton.1 hb]
      exact (hnew m hm).2

variable {wrappers : ℕ → FDWrapper} {streams : ℕ → ByteStream}

theorem inv_start (hc : ∀ k < num, (links k).capacity ≤ 2 ^ 30)
    (hstreams : ∀ k < num, construct (links k).capacity = pure (streams k))
    (hopen : ∀ k < num, (wrappers (links k).source).eof = false ∧
      (wrappers (links k).source).closed = false ∧ (wrappers (links k).sink).closed = false) :
    Inv links num (start links num wrappers streams) := by
  have hlink : ∀ k < num, Linked links (addRules links num).rules
      (start links num wrappers streams).world k := by
    intro k hk
    obtain ⟨⟨m, hm, hrule⟩, hsink⟩ := exists_addRules links hk
    have hnot : ¬ Gone links (addRules links num).rules k := fun hall ↦
      hall m hm (by rw [hrule]; rfl)
    obtain ⟨stream, hstream, hrep⟩ := construct_spec (c := (links k).capacity)
      ((hc k hk).trans_lt (by omega))
    obtain rfl : streams k = stream := Except.ok.inj ((hstreams k hk).symm.trans hstream)
    refine ⟨⟨Fifo.empty _, ⟨hrep, rfl, List.nil_prefix⟩, fun hg ↦ absurd hg hnot⟩, hsink, ?_,
      (hopen k hk).2⟩
    rintro (heof | hgone)
    · exact absurd ((hopen k hk).1.symm.trans heof) (by simp)
    · exact absurd hgone hnot
  exact ⟨⟨fun m hm ↦ mem_addRules hm, nodup_addRules links num, hlink, rfl, rfl⟩,
    fun r hr ↦ absurd hr List.not_mem_nil, Nat.zero_le _,
    fun hexit ↦ absurd hexit List.not_mem_nil⟩

/-- **Copying.** In every run, with every order in which bytes arrive and calls are made, every
truthful answer of `poll` and every portion in which the kernel gives and takes: no call of
`wait_next_event` throws, and the next one returns as well; what is written for a link is what
arrived at its source, from the beginning and in order, and what has been read and not yet written
is in its stream, which never holds more than its capacity; there are no more calls that do
something than there are bytes to read and to write and ends; and once a call has returned `Exit`,
everything has been written, and the streams are at their ends. -/
theorem run_relayed (reads writes : ℕ → ℕ) (links : ℕ → Link) (num : ℕ) (wrappers : ℕ → FDWrapper)
    (streams : ℕ → ByteStream) (hapart : Apart links num)
    (hc : ∀ k < num, 0 < (links k).capacity ∧ (links k).capacity ≤ 2 ^ 30)
    (hstreams : ∀ k < num, construct (links k).capacity = pure (streams k))
    (hopen : ∀ k < num, (wrappers (links k).source).eof = false ∧
      (wrappers (links k).source).closed = false ∧ (wrappers (links k).sink).closed = false)
    (ops : List Drain.Op)
    (hhonest : Along (step reads writes) (Honest links num reads writes) ops
      (start links num wrappers streams)) (s : System)
    (h : exec (step reads writes) ops (start links num wrappers streams) = some s) :
    (∀ r ∈ s.results, ∃ v, r = .ok v) ∧
    (∀ answer, Honest links num reads writes s (.wait answer) →
      ∃ s', step reads writes s (.wait answer) = some s') ∧
    (∀ k < num, s.world.user.sent k <+: s.world.user.feed.got (links k).source ∧
      s.world.user.feed.got (links k).source <+: s.world.user.feed.arrived (links k).source ∧
      ∃ size ≤ (links k).capacity, (s.world.user.streams k).bufferSize = pure size ∧
        (s.world.user.streams k).peekOutput size = pure (s.world.user.held k (links k))) ∧
    s.busy ≤ ∑ k ∈ Finset.range num,
      (2 * (s.world.user.feed.arrived (links k).source).length + 2) ∧
    (.ok .exit ∈ s.results → ∀ k < num, s.world.user.feed.finished (links k).source = true ∧
      s.world.user.sent k = s.world.user.feed.arrived (links k).source ∧
      (s.world.user.streams k).eof = true) := by
  have hs : Inv links num s :=
    exec_inv_along (fun _ _ _ hs hhonest hstep ↦ hs.step hapart hc hhonest hstep)
      (inv_start (fun k hk ↦ (hc k hk).2) hstreams hopen) hhonest h
  refine ⟨hs.returned, fun answer hanswer ↦ ?_, fun k hk ↦ ?_, hs.busy_le.trans hs.done_le,
    fun hexit k hk ↦ (hs.link hk).complete (hs.tally_eq hexit hk)⟩
  · obtain ⟨o, r, hcall, -⟩ := (sound_client reads writes hapart fun k hk ↦
      (hc k hk).2).waitNextEvent hs.relaying hanswer
    exact ⟨_, Option.map_eq_some_iff.2 ⟨o, hcall, rfl⟩⟩
  · obtain ⟨q, hq, -⟩ := (hs.link hk).holds
    have hcapacity := (hc k hk).2
    have hfits := hq.represents.fits hcapacity
    refine ⟨hq.got_eq ▸ List.prefix_append _ _, hq.got_prefix, q.queue.length, q.length_le,
      hq.represents.bufferSize_eq (by omega) hfits, ?_⟩
    rw [hq.represents.peekOutput_eq (by omega) hfits, hq.held_eq, Fifo.peek, Nat.min_self,
      List.take_length]

/-- Copying in both directions between two descriptors. A stream that is full makes its link write
before it reads the rest, and both sides are read to their ends. -/
theorem run_relayed_both :
    let links : ℕ → Link := fun k ↦ if k = 0 then ⟨0, 1, 2⟩ else ⟨1, 0, 3⟩
    let streams : ℕ → ByteStream := fun k ↦
      ⟨(links k).capacity, List.replicate (links k).capacity 32, -1, -1, 0, 0, false, true⟩
    let wrappers : ℕ → FDWrapper := fun i ↦ ⟨i, false, false, 0, 0⟩
    let ops : List Drain.Op := [.arrive 0 [1, 2, 3], .finish 1,
      .wait (.ready 2 fun i ↦ if i % 2 = 0 then POLLIN else 0),
      .wait (.ready 1 fun i ↦ if i = 1 then POLLOUT else 0), .finish 0,
      .wait (.ready 1 fun i ↦ if i = 0 then POLLIN else 0),
      .wait (.ready 2 fun i ↦ if i = 0 then POLLIN else if i = 1 then POLLOUT else 0),
      .wait (.ready 0 fun _ ↦ 0)]
    ∃ s, exec (step (fun _ ↦ 4) fun _ ↦ 4) ops (start links 2 wrappers streams) = some s ∧
      .ok .exit ∈ s.results ∧ s.world.user.sent 0 = s.world.user.feed.arrived 0 := by
  intro links streams wrappers ops
  have hhonest : Along (step (fun _ ↦ 4) fun _ ↦ 4) (Honest links 2 (fun _ ↦ 4) fun _ ↦ 4) ops
      (start links 2 wrappers streams) := by
    decide +kernel
  obtain ⟨s, hs, hexit⟩ : ∃ s, exec (step (fun _ ↦ 4) fun _ ↦ 4) ops
      (start links 2 wrappers streams) = some s ∧ .ok .exit ∈ s.results := by
    have hrun : (exec (step (fun _ ↦ 4) fun _ ↦ 4) ops (start links 2 wrappers streams)).map
        (fun s ↦ decide (.ok .exit ∈ s.results)) = some true := by
      decide +kernel
    obtain ⟨s, hs, hdecide⟩ := Option.map_eq_some_iff.1 hrun
    exact ⟨s, hs, of_decide_eq_true hdecide⟩
  have hrelayed := run_relayed (fun _ ↦ 4) (fun _ ↦ 4) links 2 wrappers streams (by decide)
    (by decide) (by decide) (by decide) ops hhonest s hs
  exact ⟨s, hs, hexit, (hrelayed.2.2.2.2 hexit 0 (by decide)).2.1⟩

/-- A full stream and a hangup: `poll` tells the truth and the call returns `Success`, but nobody
has asked, and it does nothing. -/
example :
    let links : ℕ → Link := fun _ ↦ ⟨0, 1, 1⟩
    let s₀ := start links 1 (fun i ↦ ⟨i, false, false, 0, 0⟩)
      fun _ ↦ ⟨1, [32], -1, -1, 0, 0, false, true⟩
    let ops : List Drain.Op := [.arrive 0 [1], .wait (.ready 1 fun i ↦ if i = 0 then POLLIN else 0),
      .finish 0, .wait (.ready 1 fun i ↦ if i = 0 then POLLHUP else 0)]
    Along (step (fun _ ↦ 4) fun _ ↦ 4) (Honest links 1 (fun _ ↦ 4) fun _ ↦ 4) ops s₀ ∧
      (exec (step (fun _ ↦ 4) fun _ ↦ 4) ops s₀).map (fun s ↦ (s.results, s.busy)) =
        some ([.ok .success, .ok .success], 1) := by
  decide +kernel

end Relay
