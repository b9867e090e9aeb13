import Sponge.EventLoop.Pass
import Sponge.Lib.Lifetime
import Sponge.Lib.Machine

/-!
# Cancellation is final

Runs of an event loop: rules are added between the calls of `wait_next_event`, and each call ends in
any of its ways, also by an exception in the middle of the list. Over a whole run the rules are a
register in the sense of `Lifetime`: they are used by calling their closures and retired by calling
`cancel`. There are three places in two loops that cancel, and all of them erase; that is `Moved`,
and the invariant needs nothing else about the loops.
-/

open Lifetime Machine

variable {κ υ : Type}

/-! ### Calls of closures -/

/-- The calls of closures made in some turns, each with the node of its rule. -/
def callsOf (vs : List (Visit κ υ)) : List (ℕ × Call) :=
  vs.flatMap fun v ↦ v.calls.map (v.node.id, ·)

/-- The last call for a rule. -/
def Call.isCancel : Call → Bool
  | .cancel => true
  | _ => false

theorem Call.isCancel_iff {c : Call} : c.isCancel = true ↔ c = .cancel := by
  cases c with
  | cancel => exact iff_of_true rfl rfl
  | interest answer => exact iff_of_false Bool.false_ne_true (by simp)
  | callback => exact iff_of_false Bool.false_ne_true (by simp)

theorem callsOf_concat (vs : List (Visit κ υ)) (v : Visit κ υ) :
    callsOf (vs ++ [v]) = callsOf vs ++ v.calls.map (v.node.id, ·) := by
  rw [callsOf, List.flatMap_append, List.flatMap_singleton]
  rfl

theorem Visit.not_isCancel {v : Visit κ υ} (h : v.cancelled = false) :
    ∀ c ∈ v.calls, c.isCancel = false := by
  intro c hc
  rw [← Bool.not_eq_true, Call.isCancel_iff]
  rintro rfl
  exact of_decide_eq_false h hc

/-! ### One call -/

namespace Pass

variable {actions : Actions κ υ} {s t : Pass κ υ} {n : Node κ} {rest : List (Node κ)}
  {v : Visit κ υ} {added : List (Node κ)} {log : List (ℕ × Call)} {nextId : ℕ}

/-- The register during a call, of which `log` was there before it. -/
structure Registered (added : List (Node κ)) (log : List (ℕ × Call)) (nextId : ℕ) (s : Pass κ υ) :
    Prop where
  valid : Valid Node.id Call.isCancel added (s.kept ++ s.todo) (log ++ callsOf s.visits)
  nextId_eq : s.nextId = nextId

/-- The register survives a turn after which the walk goes on. -/
theorem Registered.moved (h : s.Registered added log nextId) (hs : s.todo = n :: rest)
    (hmoved : s.Moved n rest v t) : t.Registered added log nextId := by
  have hvalid := h.valid
  rw [hs] at hvalid
  refine ⟨?_, hmoved.nextId_eq.trans h.nextId_eq⟩
  rw [hmoved.visits_eq, callsOf_concat, ← List.append_assoc, hmoved.kept_eq, hmoved.todo_eq,
    hmoved.node_eq]
  cases hcancelled : v.cancelled with
  | true =>
    rw [hmoved.calls_eq hcancelled]
    exact hvalid.retire rfl
  | false =>
    have hmem : n ∈ s.kept ++ n :: rest := List.mem_append_right _ List.mem_cons_self
    have huses := hvalid.uses hmem (Visit.not_isCancel hcancelled)
    show Valid _ _ _ ((s.kept ++ [n]) ++ rest) _
    rwa [List.append_assoc, List.singleton_append]

/-- It survives a turn that throws. -/
theorem Registered.stopped (h : s.Registered added log nextId) (hs : s.todo = n :: rest)
    (hstopped : s.Stopped n v t) : t.Registered added log nextId := by
  have hmem : n ∈ s.kept ++ s.todo := by
    rw [hs]
    exact List.mem_append_right _ List.mem_cons_self
  refine ⟨?_, hstopped.nextId_eq.trans h.nextId_eq⟩
  rw [hstopped.visits_eq, callsOf_concat, ← List.append_assoc, hstopped.kept_eq, hstopped.todo_eq,
    hstopped.node_eq]
  exact h.valid.uses hmem (Visit.not_isCancel hstopped.not_cancelled)

/-- The register after the set-up loop. -/
theorem Registered.setUp (hplain : actions.Plain) (h : s.Registered added log nextId)
    {rules : List (Node κ)} (hsetUp : s.SettingUp rules) {fuel : ℕ}
    {res : Cpp.Eval Exn Unit × Pass κ υ} (hloop : loop (setUpTurn actions) fuel s = some res) :
    res.2.Registered added log nextId := by
  refine loop_rule (fun s ↦ s.SettingUp rules ∧ s.Registered added log nextId)
    (fun res ↦ res.2.Registered added log nextId) ?_ ?_ ⟨hsetUp, h⟩ hloop
  · rintro s t ⟨hsetUp, hinv⟩ hturn
    obtain ⟨hsetUp', n, rest, v, hs, hmoved⟩ := hsetUp.of_next hplain hturn
    exact ⟨hsetUp', hinv.moved hs hmoved⟩
  · rintro s res ⟨-, hinv⟩ hturn
    obtain ⟨-, rfl⟩ := setUpTurn_done hplain hturn
    exact hinv

/-- The register after the result loop, however it was left. -/
theorem Registered.results (hplain : actions.Plain) (h : s.Registered added log nextId)
    {nodes : List (Node κ)} {entries : List PollFd} (hj : s.Judging nodes entries)
    (hlen : nodes.length = entries.length) {fuel : ℕ} {res : Cpp.Eval Exn Unit × Pass κ υ}
    (hloop : loop (indexedTurn actions) fuel s = some res) : res.2.Registered added log nextId := by
  refine loop_rule (fun s ↦ s.Judging nodes entries ∧ s.Registered added log nextId)
    (fun res ↦ res.2.Registered added log nextId) ?_ ?_ ⟨hj, h⟩ hloop
  · rintro s t ⟨hj, hinv⟩ hturn
    obtain ⟨hj', n, rest, v, hs, hmoved⟩ := hj.of_next hplain hlen hturn
    exact ⟨hj', hinv.moved hs hmoved⟩
  · rintro s res ⟨hj, hinv⟩ hturn
    rcases hj.of_done hplain hlen hturn with ⟨-, rfl⟩ | ⟨n, rest, v, e, hs, -, hstopped⟩
    · exact hinv
    · exact hinv.stopped hs hstopped

end Pass

namespace EventLoop

/-- The calls of closures made in one call of `wait_next_event`. -/
def Outcome.calls (o : Outcome κ υ) : List (ℕ × Call) := callsOf o.setUp ++ callsOf o.results

variable {actions : Actions κ υ} {added : List (Node κ)} {log : List (ℕ × Call)}

/-- **One call keeps the register**, in whichever way it ends. -/
theorem waitNextEvent_valid (hplain : actions.Plain) (l : EventLoop κ) (w : World υ)
    (answer : PollAnswer) {fuel : ℕ} (hfuel : l.rules.length < fuel)
    (h : Valid Node.id Call.isCancel added l.rules log) :
    ∃ o, l.waitNextEvent actions fuel w answer = some o ∧ o.loop.nextId = l.nextId ∧
      Valid Node.id Call.isCancel added o.loop.rules (log ++ o.calls) := by
  have hstart : (start l w).Registered added log l.nextId :=
    ⟨by rw [show callsOf (start l w).visits = [] from rfl, List.append_nil]; exact h, rfl⟩
  obtain ⟨s, hsetUp, hs, htodo, hcases⟩ := waitNextEvent_cases hplain l w answer hfuel
  have hreg : s.Registered added log l.nextId :=
    hstart.setUp hplain (settingUp_start l w) hsetUp
  rcases hcases with ⟨r, -, hcall⟩ | ⟨r, t, hloop, -, -, hcall⟩
  · refine ⟨_, hcall, hreg.nextId_eq, ?_⟩
    show Valid _ _ added (s.kept ++ s.todo) (log ++ (callsOf s.visits ++ []))
    rw [List.append_nil]
    exact hreg.valid
  · -- the result loop starts again from the beginning of the list, with an empty history
    have hrewind : Pass.Registered added (log ++ callsOf s.visits) l.nextId
        { s.rewind with pollfds := answer.fill s.pollfds, visits := [] } := by
      refine ⟨?_, hreg.nextId_eq⟩
      show Valid _ _ added ([] ++ (s.kept ++ s.todo)) (log ++ callsOf s.visits ++ [])
      rw [List.append_nil]
      exact hreg.valid
    have hreg' : t.Registered added (log ++ callsOf s.visits) l.nextId :=
      hrewind.results hplain (judging_rewind hs htodo answer) (length_fill hs answer) hloop
    refine ⟨_, hcall, hreg'.nextId_eq, ?_⟩
    show Valid _ _ added (t.kept ++ t.todo) (log ++ (callsOf s.visits ++ callsOf t.visits))
    rw [← List.append_assoc]
    exact hreg'.valid

end EventLoop

/-! ### Runs -/

/-- A client with its event loop, and the history of the run. -/
structure Session (κ υ : Type) where
  loop : EventLoop κ
  world : World υ
  /-- The rules added so far, in order. -/
  added : List (Node κ)
  /-- The calls of closures made so far, in order. -/
  calls : List (ℕ × Call)

namespace Session

/-- What happens in a run, with closures that do not add rules: rules are added between the calls of
`wait_next_event`, the world changes by itself, and `wait_next_event` is called. -/
inductive Op (κ υ : Type) where
  | addRule (r : Rule κ)
  | change (w : World υ)
  | waitNextEvent (answer : PollAnswer)

/-- An event loop without rules. -/
def init (w : World υ) : Session κ υ := ⟨⟨[], 0⟩, w, [], []⟩

/-- One step of a run. A call of `wait_next_event` is given enough fuel for closures that do not add
rules, and its result is not looked at: the run goes on also after an exception. -/
def step (actions : Actions κ υ) (s : Session κ υ) : Op κ υ → Option (Session κ υ)
  | .addRule r => some { s with
      loop := s.loop.addRule r
      added := s.added ++ [⟨s.loop.nextId, r⟩] }
  | .change w => some { s with world := w }
  | .waitNextEvent answer => do
    let o ← s.loop.waitNextEvent actions (s.loop.rules.length + 1) s.world answer
    pure { s with loop := o.loop, world := o.world, calls := s.calls ++ o.calls }

/-- **What is promised of a run.** -/
structure CancelIsFinal (s : Session κ υ) : Prop where
  /-- Nodes tell the rules apart. -/
  distinct : (s.added.map Node.id).Nodup
  /-- No rule is cancelled twice. -/
  once : ∀ i, s.calls.count (i, .cancel) ≤ 1
  /-- The rules in the list are those that have not been cancelled, in the order they were added. -/
  rules_eq : s.loop.rules = s.added.filter fun n ↦ decide ((n.id, .cancel) ∉ s.calls)
  /-- Nothing is called for a rule after its cancellation. -/
  last : ∀ before after i, s.calls = before ++ (i, .cancel) :: after → ∀ c, (i, c) ∉ after

/-- What the next call of `wait_next_event` adds to the history is what it calls: in turns that
follow each other and do to the world what the closures do. -/
def Replayable (actions : Actions κ υ) (s : Session κ υ) : Prop :=
  ∀ answer s', s.step actions (.waitNextEvent answer) = some s' →
    ∃ turns, s'.calls = s.calls ++ callsOf turns ∧
      Follow (Visit.Performed actions) s.world turns s'.world

theorem replayable (actions : Actions κ υ) (s : Session κ υ) : s.Replayable actions := by
  intro answer s' hstep
  obtain ⟨o, ho, heq⟩ := Option.bind_eq_some_iff.1 hstep
  obtain rfl := Option.some.inj heq
  refine ⟨o.setUp ++ o.results, ?_, EventLoop.waitNextEvent_replayable ho⟩
  show s.calls ++ o.calls = _
  rw [EventLoop.Outcome.calls, callsOf, callsOf, callsOf, List.flatMap_append]

/-- The invariant of runs. -/
structure InOrder (s : Session κ υ) : Prop where
  valid : Valid Node.id Call.isCancel s.added s.loop.rules s.calls
  id_lt : ∀ n ∈ s.added, n.id < s.loop.nextId

theorem inOrder_init (w : World υ) : (init w : Session κ υ).InOrder :=
  ⟨Valid.nil, fun _ hn ↦ absurd hn List.not_mem_nil⟩

variable {actions : Actions κ υ} {s : Session κ υ}

/-- **The invariant survives a step**, and every step can be taken. -/
theorem InOrder.step (hplain : actions.Plain) (h : s.InOrder) (op : Op κ υ) :
    ∃ s', s.step actions op = some s' ∧ s'.InOrder := by
  cases op with
  | addRule r =>
    refine ⟨_, rfl, h.valid.add fun n hn ↦ Nat.ne_of_lt (h.id_lt n hn), ?_⟩
    intro n hn
    rcases List.mem_append.1 hn with hn | hn
    · exact Nat.lt_succ_of_lt (h.id_lt n hn)
    · obtain rfl := List.mem_singleton.1 hn
      exact Nat.lt_succ_self _
  | change w => exact ⟨_, rfl, h.valid, h.id_lt⟩
  | waitNextEvent answer =>
    obtain ⟨o, ho, hnextId, hvalid⟩ :=
      s.loop.waitNextEvent_valid hplain s.world answer (Nat.lt_succ_self _) h.valid
    refine ⟨{ s with loop := o.loop, world := o.world, calls := s.calls ++ o.calls }, ?_, hvalid,
      ?_⟩
    · rw [Session.step, ho]
      rfl
    · show ∀ n ∈ s.added, n.id < o.loop.nextId
      rw [hnextId]
      exact h.id_lt

/-- **The invariant holds of every run.** -/
theorem InOrder.run (hplain : actions.Plain) (ops : List (Op κ υ)) (h : s.InOrder) :
    ∃ t, exec (Session.step actions) ops s = some t ∧ t.InOrder := by
  induction ops generalizing s with
  | nil => exact ⟨s, rfl, h⟩
  | cons op ops ih =>
    obtain ⟨s', hs', h'⟩ := h.step hplain op
    obtain ⟨t, ht, hinv⟩ := ih h'
    refine ⟨t, ?_, hinv⟩
    rw [exec, hs']
    exact ht

theorem retired_isCancel_iff {calls : List (ℕ × Call)} {i : ℕ} :
    retired Call.isCancel calls i = true ↔ (i, .cancel) ∈ calls := by
  rw [retired_iff]
  constructor
  · rintro ⟨c, hmem, hc⟩
    rwa [Call.isCancel_iff.1 hc] at hmem
  · exact fun hmem ↦ ⟨.cancel, hmem, rfl⟩

/-- The promise, from the invariant. -/
theorem InOrder.cancelIsFinal (h : s.InOrder) : s.CancelIsFinal where
  distinct := h.valid.nodup
  once i := by
    have heq : ∀ e : ℕ × Call, (e == (i, .cancel)) = (decide (e.1 = i) && e.2.isCancel) := by
      rintro ⟨j, c⟩
      rw [Bool.eq_iff_iff, beq_iff_eq, Prod.mk.injEq, Bool.and_eq_true_iff, decide_eq_true_iff,
        Call.isCancel_iff]
    rw [List.count_eq_countP, List.countP_eq_length_filter, List.filter_congr fun e _ ↦ heq e]
    exact h.valid.retired_once i
  rules_eq := by
    refine h.valid.live_eq.trans (List.filter_congr fun n _ ↦ ?_)
    rw [Bool.eq_iff_iff, Bool.not_eq_true', ← Bool.not_eq_true, retired_isCancel_iff,
      decide_eq_true_iff]
  last := by
    intro before after i hcalls c hc
    have hpair := h.valid.last
    rw [hcalls, List.pairwise_append] at hpair
    exact (List.pairwise_cons.1 hpair.2.1).1 (i, c) hc rfl rfl

/-- **Cancellation is final and happens once.** With closures that neither throw nor add rules,
whatever they do to the world: every sequence of `add_rule` and `wait_next_event`, with changes of
the world in between and any answers of `poll`, can be run and keeps the promise, and the calls in
the history are those that were made. -/
theorem cancel_is_final (actions : Actions κ υ) (hplain : actions.Plain) (w : World υ)
    (ops : List (Op κ υ)) :
    ∃ s, exec (step actions) ops (init w) = some s ∧ s.CancelIsFinal ∧ s.Replayable actions := by
  obtain ⟨s, hs, hinv⟩ := (inOrder_init w).run hplain ops
  exact ⟨s, hs, hinv.cancelIsFinal, s.replayable actions⟩

/-- Closures that do nothing, and are always interested. -/
def idleActions : Actions Unit Unit where
  call _ w := ⟨.ok (), w, []⟩
  ask _ w := ⟨.ok true, w, []⟩

/-- A hangup cancels the first rule; the second is a busy wait, and the exception leaves it in the
list; at end of file it is cancelled too. -/
theorem cancel_is_final_after_busy_wait :
    let rule : Rule Unit := ⟨0, .In, (), (), ()⟩
    idleActions.Plain ∧ ∃ s, exec (step idleActions)
        [.addRule rule, .addRule rule,
          .waitNextEvent (.ready 2 fun i ↦ if i = 0 then POLLHUP else POLLIN),
          .change ⟨fun _ ↦ ⟨0, true, false, 0, 0⟩, ()⟩, .waitNextEvent (.failed eintr)]
        (init ⟨fun _ ↦ ⟨0, false, false, 0, 0⟩, ()⟩) = some s ∧ s.CancelIsFinal ∧
      s.Replayable idleActions := by
  intro rule
  have hplain : idleActions.Plain :=
    ⟨fun _ _ ↦ rfl, fun _ _ ↦ rfl, fun _ _ ↦ ⟨true, rfl⟩, fun _ _ ↦ rfl⟩
  exact ⟨hplain, cancel_is_final idleActions hplain _ _⟩

end Session
