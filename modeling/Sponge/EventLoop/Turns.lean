import Mathlib.Data.List.Basic
import Sponge.EventLoop.Basic

/-!
# The turns of the two loops

What a turn of either loop does at a rule depends on the rule, its entry and the world, and on
nothing else of the list that is being walked. Here this is said once, for closures that may do
anything: a `Reaction` is what a turn comes to, `Node.takeUp` the reaction of the set-up loop and
`Node.react` that of the result loop, and a turn of the loop carries out the reaction on the list.
There is neither an index nor an iterator in a reaction, so a pass can be described as a sequence of
reactions, and compared with what the loops do.
-/

open Cpp

variable {κ υ : Type}

/-! ### The parts of a turn -/

namespace Node

/-- The descriptor of the rule can be of no use to it any more. -/
def Dead (n : Node κ) (w : World υ) : Prop :=
  (n.rule.direction = .In ∧ (w.fds n.rule.fd).eof = true) ∨ (w.fds n.rule.fd).closed = true

instance (n : Node κ) (w : World υ) : Decidable (n.Dead w) := inferInstanceAs (Decidable (_ ∨ _))

end Node

namespace PollFd

/-- The entry has an event that was asked for. -/
def Ready (p : PollFd) : Prop := p.revents &&& p.events ≠ 0

/-- Events were asked for, and there is a hangup and none of them. -/
def Defunct (p : PollFd) : Prop := p.events ≠ 0 ∧ p.revents &&& POLLHUP ≠ 0 ∧ ¬ p.Ready

instance (p : PollFd) : Decidable p.Ready := inferInstanceAs (Decidable (_ ≠ _))

instance (p : PollFd) : Decidable p.Defunct := inferInstanceAs (Decidable (_ ∧ _ ∧ ¬ p.Ready))

theorem Ready.ne_zero {p : PollFd} (h : p.Ready) : p.events ≠ 0 ∧ p.revents ≠ 0 := by
  refine ⟨fun hevents ↦ h ?_, fun hrevents ↦ h ?_⟩
  · rw [hevents]
    exact BitVec.and_zero
  · rw [hrevents]
    exact BitVec.zero_and

theorem Defunct.ne_zero {p : PollFd} (h : p.Defunct) : p.events ≠ 0 ∧ p.revents ≠ 0 := by
  refine ⟨h.1, fun hrevents ↦ h.2.1 ?_⟩
  rw [hrevents]
  exact BitVec.zero_and

end PollFd

namespace Visit

/-- The rule was cancelled in this turn. -/
def cancelled (v : Visit κ υ) : Bool := decide (.cancel ∈ v.calls)

/-- The turn has pushed an entry, and so the rule was kept. -/
def pushed (v : Visit κ υ) : Bool := v.pollfd.isSome

/-- The rule said that it was interested. -/
def interested (v : Visit κ υ) : Bool := decide (.interest (.ok true) ∈ v.calls)

end Visit

/-! ### Reactions -/

/-- What a turn comes to. -/
structure Reaction (κ υ : Type) where
  visit : Visit κ υ
  /-- The rules that its closures add. -/
  added : List (Rule κ)
  /-- It ends the loop with an exception. -/
  throws : Bool

namespace Node

/-- The rule is cancelled. -/
def drop (actions : Actions κ υ) (n : Node κ) (pollfd : Option PollFd) (w : World υ) :
    Reaction κ υ :=
  let e := actions.call n.rule.cancel w
  ⟨⟨n, w, e.world, pollfd, [.cancel]⟩, e.added, !e.result.isOk⟩

/-- The reaction of the set-up loop: cancel the rule if its descriptor is dead, and otherwise ask
for its interest and push an entry. -/
def takeUp (actions : Actions κ υ) (n : Node κ) (w : World υ) : Reaction κ υ :=
  if n.Dead w then n.drop actions none w
  else
    let e := actions.ask n.rule.interest w
    ⟨⟨n, w, e.world, e.result.toOption.map (n.rule.entry e.world), [.interest e.result]⟩, e.added,
      !e.result.isOk⟩

/-- The reaction of the result loop to the entry `p`. -/
def react (actions : Actions κ υ) (n : Node κ) (p : PollFd) (w : World υ) : Reaction κ υ :=
  if p.revents &&& (POLLERR ||| POLLNVAL) ≠ 0 then ⟨⟨n, w, w, some p, []⟩, [], true⟩
  else if p.Defunct then n.drop actions (some p) w
  else if p.Ready then
    let e := actions.call n.rule.callback w
    if e.result.isOk ∧ n.rule.serviceCount w = n.rule.serviceCount e.world then
      -- nothing was read or written, so the rule must have lost its interest
      let a := actions.ask n.rule.interest e.world
      ⟨⟨n, w, a.world, some p, [.callback, .interest a.result]⟩, e.added ++ a.added,
        a.result ≠ .ok false⟩
    else ⟨⟨n, w, e.world, some p, [.callback]⟩, e.added, !e.result.isOk⟩
  else ⟨⟨n, w, w, some p, []⟩, [], false⟩

variable {actions : Actions κ υ} {n : Node κ} {w : World υ}

theorem takeUp_of_dead (hdead : n.Dead w) : n.takeUp actions w = n.drop actions none w :=
  if_pos hdead

theorem takeUp_of_ok (halive : ¬ n.Dead w) {interested : Bool}
    (hresult : (actions.ask n.rule.interest w).result = .ok interested) :
    n.takeUp actions w = ⟨⟨n, w, (actions.ask n.rule.interest w).world,
      some (n.rule.entry (actions.ask n.rule.interest w).world interested),
      [.interest (.ok interested)]⟩, (actions.ask n.rule.interest w).added, false⟩ := by
  rw [takeUp, if_neg halive]
  dsimp only
  rw [hresult]
  rfl

/-- If it does not throw, a rule whose descriptor is alive has answered. -/
theorem exists_answer (halive : ¬ n.Dead w) (hthrows : (n.takeUp actions w).throws = false) :
    ∃ interested, (actions.ask n.rule.interest w).result = .ok interested := by
  rcases hresult : (actions.ask n.rule.interest w).result with x | interested
  · rw [takeUp, if_neg halive] at hthrows
    dsimp only at hthrows
    rw [hresult] at hthrows
    exact absurd hthrows (by simp [Except.isOk, Except.toBool])
  · exact ⟨interested, rfl⟩

theorem takeUp_visit (actions : Actions κ υ) (n : Node κ) (w : World υ) :
    (n.takeUp actions w).visit.node = n ∧ .callback ∉ (n.takeUp actions w).visit.calls := by
  rw [takeUp]
  split
  · exact ⟨rfl, by simp [drop]⟩
  · exact ⟨rfl, by simp⟩

/-- A rule that is taken up without an exception is cancelled, or it has an entry of its own. -/
theorem takeUp_pushed (hthrows : (n.takeUp actions w).throws = false) :
    (n.takeUp actions w).visit.cancelled = (!(n.takeUp actions w).visit.pushed) ∧
      ∀ p, (n.takeUp actions w).visit.pollfd = some p →
        ∃ interested, p = n.rule.entry (n.takeUp actions w).visit.after interested := by
  by_cases hdead : n.Dead w
  · rw [takeUp_of_dead hdead]
    exact ⟨rfl, fun p hp ↦ nomatch hp⟩
  · obtain ⟨interested, hresult⟩ := exists_answer hdead hthrows
    rw [takeUp_of_ok hdead hresult]
    exact ⟨rfl, fun p hp ↦ ⟨interested, (Option.some.inj hp).symm⟩⟩

theorem react_visit (actions : Actions κ υ) (n : Node κ) (p : PollFd) (w : World υ) :
    (n.react actions p w).visit.node = n ∧ (n.react actions p w).visit.before = w ∧
      (n.react actions p w).visit.pollfd = some p := by
  simp only [react, drop]
  split_ifs <;> exact ⟨rfl, rfl, rfl⟩

end Node

/-! ### Adding rules -/

namespace EventLoop

/-- `add_rule`, for each of the rules in order. -/
def addRules (l : EventLoop κ) (rules : List (Rule κ)) : EventLoop κ := rules.foldl addRule l

theorem addRules_append (l : EventLoop κ) (rules more : List (Rule κ)) :
    l.addRules (rules ++ more) = (l.addRules rules).addRules more :=
  List.foldl_append

/-- Rules are added behind everything that is there. -/
theorem addRules_cons (n : Node κ) (nodes : List (Node κ)) (id : ℕ) (rules : List (Rule κ)) :
    addRules ⟨n :: nodes, id⟩ rules =
      ⟨n :: (addRules ⟨nodes, id⟩ rules).rules, (addRules ⟨nodes, id⟩ rules).nextId⟩ := by
  induction rules generalizing nodes id with
  | nil => rfl
  | cons r rules ih => exact ih (nodes ++ [⟨id, r⟩]) (id + 1)

theorem addRules_rules (l : EventLoop κ) (rules : List (Rule κ)) :
    ∃ more, (l.addRules rules).rules = l.rules ++ more ∧ (more = [] ↔ rules = []) := by
  induction rules generalizing l with
  | nil => exact ⟨[], (List.append_nil _).symm, iff_of_true rfl rfl⟩
  | cons r rules ih =>
    obtain ⟨more, hmore, -⟩ := ih (l.addRule r)
    refine ⟨⟨l.nextId, r⟩ :: more, ?_, iff_of_false (by simp) (by simp)⟩
    exact hmore.trans (List.append_assoc _ _ _)

end EventLoop

namespace Pass

open EventLoop

variable {s t : Pass κ υ} {n : Node κ} {rest : List (Node κ)}

theorem foldl_addRule (s : Pass κ υ) (rules : List (Rule κ)) :
    rules.foldl addRule s = { s with
      todo := (addRules ⟨s.todo, s.nextId⟩ rules).rules
      nextId := (addRules ⟨s.todo, s.nextId⟩ rules).nextId } := by
  induction rules generalizing s with
  | nil => rfl
  | cons r rules ih => exact ih (s.addRule r)

theorem perform_eq {α : Type} (s : Pass κ υ) (e : Effect κ υ α) :
    s.perform e = (e.result, { s with
      world := e.world
      todo := (addRules ⟨s.todo, s.nextId⟩ e.added).rules
      nextId := (addRules ⟨s.todo, s.nextId⟩ e.added).nextId }) := by
  rw [perform, foldl_addRule]

/-! ### Carrying out a reaction -/

/-- The walk goes on after the reaction `e`, with `rest` ahead and what the closures have added. -/
def follow (s : Pass κ υ) (rest : List (Node κ)) (e : Reaction κ υ) : Pass κ υ :=
  { s with
    kept := if e.visit.cancelled then s.kept else s.kept ++ [e.visit.node]
    todo := (addRules ⟨rest, s.nextId⟩ e.added).rules
    nextId := (addRules ⟨rest, s.nextId⟩ e.added).nextId
    world := e.visit.after
    visits := s.visits ++ [e.visit] }

/-- The walk ends in the reaction `e`, with the iterator where it is. -/
def halt (s : Pass κ υ) (e : Reaction κ υ) : Pass κ υ :=
  { s with
    todo := (addRules ⟨s.todo, s.nextId⟩ e.added).rules
    nextId := (addRules ⟨s.todo, s.nextId⟩ e.added).nextId
    world := e.visit.after
    visits := s.visits ++ [e.visit] }

/-- The turn carries out the reaction `e`. -/
def Carries (s : Pass κ υ) (rest : List (Node κ)) (e : Reaction κ υ)
    (turn : Turn (Pass κ υ) (Eval Exn Unit × Pass κ υ)) : Prop :=
  (e.throws = false ∧ turn = .next (s.follow rest e)) ∨
    (e.throws = true ∧ ∃ x, turn = .done (.error (.throws x), s.halt e))

/-- What the reaction of the set-up loop pushes. -/
def pushing (s : Pass κ υ) (v : Visit κ υ) : Pass κ υ :=
  { s with
    pollfds := s.pollfds ++ v.pollfd.toList
    somethingToPoll := s.somethingToPoll || v.interested }

theorem carries_cancel (actions : Actions κ υ) (hs : s.todo = n :: rest) (pollfd : Option PollFd) :
    s.Carries rest (n.drop actions pollfd s.world) (s.cancel actions n pollfd) := by
  rw [cancel, perform_eq, hs, addRules_cons]
  dsimp only
  rcases hresult : (actions.call n.rule.cancel s.world).result with x | u
  · refine Or.inr ⟨by rw [Node.drop, hresult]; rfl, x, ?_⟩
    simp only [halt, Node.drop, visit, hs, addRules_cons]
  · exact Or.inl ⟨by rw [Node.drop, hresult]; rfl, rfl⟩

theorem follow_of_not_cancelled {e : Reaction κ υ} (h : e.visit.cancelled = false) :
    s.follow rest e = { s with
      kept := s.kept ++ [e.visit.node]
      todo := (addRules ⟨rest, s.nextId⟩ e.added).rules
      nextId := (addRules ⟨rest, s.nextId⟩ e.added).nextId
      world := e.visit.after
      visits := s.visits ++ [e.visit] } := by
  rw [follow, h]
  rfl

/-- A turn that leaves its node behind; `t` is `s` after the closures have run. -/
theorem follow_eq_advance {before after : World υ} {pollfd : Option PollFd} {calls : List Call}
    {added : List (Rule κ)} (throws : Bool) (hcalls : .cancel ∉ calls)
    (ht : t = { s with
      world := after
      todo := n :: (addRules ⟨rest, s.nextId⟩ added).rules
      nextId := (addRules ⟨rest, s.nextId⟩ added).nextId }) :
    (t.visit n before pollfd calls).advance =
      s.follow rest ⟨⟨n, before, after, pollfd, calls⟩, added, throws⟩ := by
  subst ht
  rw [follow_of_not_cancelled (decide_eq_false hcalls)]
  rfl

/-- **Everything a turn of the set-up loop does.** -/
theorem carries_setUpTurn (actions : Actions κ υ) (hs : s.todo = n :: rest) :
    (s.pushing (n.takeUp actions s.world).visit).Carries rest (n.takeUp actions s.world)
      (s.setUpTurn actions) := by
  -- the source has the same branch twice, for `eof` and for `closed`
  have hdead : n.Dead s.world →
      (s.pushing (n.takeUp actions s.world).visit).Carries rest (n.takeUp actions s.world)
        (s.cancel actions n none) := by
    intro hdead
    have hpushing : s.pushing (n.drop actions none s.world).visit = s := by
      simp [pushing, Node.drop, Visit.interested]
    rw [Node.takeUp, if_pos hdead, hpushing]
    exact carries_cancel actions hs none
  simp only [setUpTurn, hs]
  by_cases heof : n.rule.direction = .In ∧ (s.world.fds n.rule.fd).eof = true
  · rw [if_pos heof]
    exact hdead (Or.inl heof)
  rw [if_neg heof]
  by_cases hclosed : (s.world.fds n.rule.fd).closed = true
  · rw [if_pos hclosed]
    exact hdead (Or.inr hclosed)
  have halive : ¬ n.Dead s.world := not_or.2 ⟨heof, hclosed⟩
  rw [if_neg hclosed, Node.takeUp, if_neg halive, perform_eq, hs, addRules_cons]
  dsimp only
  rcases hresult : (actions.ask n.rule.interest s.world).result with x | interested
  · refine Or.inr ⟨rfl, x, ?_⟩
    simp [halt, pushing, visit, hs, addRules_cons, Visit.interested, Except.toOption]
  · refine Or.inl ⟨rfl, congrArg Turn.next ?_⟩
    refine follow_eq_advance _ (by simp) ?_
    cases interested with
    | false => simp [pushing, push, Visit.interested, Except.toOption]
    | true => simp [pushing, push, Visit.interested, Except.toOption]

theorem carries_dispatch (actions : Actions κ υ) (hs : s.todo = n :: rest) {p : PollFd}
    (herror : ¬ p.revents &&& (POLLERR ||| POLLNVAL) ≠ 0) (hready : p.Ready) :
    s.Carries rest (n.react actions p s.world) (s.dispatch actions n p) := by
  have hdefunct : ¬ p.Defunct := fun h ↦ h.2.2 hready
  rw [Node.react, if_neg herror, if_neg hdefunct, if_pos hready, dispatch, perform_eq, hs,
    addRules_cons]
  dsimp only
  rcases hresult : (actions.call n.rule.callback s.world).result with x | u
  · rw [if_neg (fun h ↦ nomatch h.1)]
    refine Or.inr ⟨rfl, x, ?_⟩
    simp only [halt, visit, hs, addRules_cons]
  dsimp only
  by_cases hcount : n.rule.serviceCount s.world =
      n.rule.serviceCount (actions.call n.rule.callback s.world).world
  · -- the interest is asked for again, in the list that the callback has left
    rw [if_pos hcount, if_pos ⟨rfl, hcount⟩, perform_eq]
    dsimp only
    rcases hanswer : (actions.ask n.rule.interest
        (actions.call n.rule.callback s.world).world).result with x | interested
    · refine Or.inr ⟨rfl, x, ?_⟩
      simp only [halt, visit, hs, addRules_cons, addRules_append]
    · cases interested with
      | false =>
        refine Or.inl ⟨rfl, congrArg Turn.next ?_⟩
        refine follow_eq_advance _ (by simp) ?_
        simp only [addRules_cons, addRules_append]
      | true =>
        refine Or.inr ⟨rfl, ?_, ?halted⟩
        case halted =>
          simp only [halt, visit, hs, addRules_cons, addRules_append]
          rfl
  · rw [if_neg hcount, if_neg fun h ↦ hcount h.2]
    exact Or.inl ⟨rfl, congrArg Turn.next (follow_eq_advance _ (by simp) rfl)⟩

/-- The rest of a turn of the result loop, with the entry that it reads. -/
theorem carries_resultTurn (actions : Actions κ υ) (hs : s.todo = n :: rest) (p : PollFd) :
    s.Carries rest (n.react actions p s.world) (s.resultTurn actions n p) := by
  rw [resultTurn]
  dsimp only
  by_cases herror : p.revents &&& (POLLERR ||| POLLNVAL) ≠ 0
  · rw [if_pos herror, Node.react, if_pos herror]
    exact Or.inr ⟨rfl, _, rfl⟩
  rw [if_neg herror]
  by_cases hhup : p.revents &&& POLLHUP ≠ 0 ∧ p.events ≠ 0 ∧ ¬ p.revents &&& p.events ≠ 0
  · have hdefunct : p.Defunct := ⟨hhup.2.1, hhup.1, hhup.2.2⟩
    rw [if_pos hhup, Node.react, if_neg herror, if_pos hdefunct]
    exact carries_cancel actions hs (some p)
  rw [if_neg hhup]
  by_cases hready : p.Ready
  · rw [if_pos (show p.revents &&& p.events ≠ 0 from hready)]
    exact carries_dispatch actions hs herror hready
  · have hdefunct : ¬ p.Defunct := fun h ↦ hhup ⟨h.2.1, h.1, h.2.2⟩
    rw [if_neg (show ¬ p.revents &&& p.events ≠ 0 from hready), Node.react, if_neg herror,
      if_neg hdefunct, if_neg hready]
    refine Or.inl ⟨rfl, congrArg Turn.next (follow_eq_advance _ (by simp) ?_)⟩
    rw [addRules, List.foldl_nil, ← hs]

/-- A loop that is at the end of the list is left. -/
theorem setUpTurn_of_nil (actions : Actions κ υ) (hs : s.todo = []) :
    s.setUpTurn actions = .done (pure (), s) := by
  rw [setUpTurn, hs]

theorem indexedTurn_of_nil (actions : Actions κ υ) (hs : s.todo = []) :
    s.indexedTurn actions = .done (pure (), s) := by
  rw [indexedTurn, hs]

/-- A rule for which there is no entry. -/
theorem indexedTurn_of_le (actions : Actions κ υ) (hs : s.todo = n :: rest)
    (hidx : s.pollfds.length ≤ s.idx) :
    s.indexedTurn actions = .done (.error (.undefined .outOfBounds), s) := by
  have hload : (load s.pollfds s.idx : Eval Exn PollFd) = .error (.undefined .outOfBounds) := by
    rw [load, List.getElem?_eq_none hidx]
  simp only [indexedTurn, hs, hload]

/-- **Everything a turn of the result loop does** if the subscript is in range. -/
theorem carries_indexedTurn (actions : Actions κ υ) (hs : s.todo = n :: rest) {p : PollFd}
    (hp : s.pollfds[s.idx]? = some p) :
    ((n.react actions p s.world).throws = false ∧ s.indexedTurn actions =
      .next { s.follow rest (n.react actions p s.world) with idx := s.idx + 1 }) ∨
    ((n.react actions p s.world).throws = true ∧ ∃ x, s.indexedTurn actions =
      .done (.error (.throws x), s.halt (n.react actions p s.world))) := by
  have hload : (load s.pollfds s.idx : Eval Exn PollFd) = .ok p := load_eq hp
  rcases carries_resultTurn actions hs p with ⟨hthrows, hturn⟩ | ⟨hthrows, x, hturn⟩
  · refine Or.inl ⟨hthrows, ?_⟩
    simp only [indexedTurn, hs, hload, hturn]
    rfl
  · exact Or.inr ⟨hthrows, x, by simp only [indexedTurn, hs, hload, hturn]⟩

end Pass

/-! ### The whole call -/

namespace EventLoop

variable {actions : Actions κ υ} {l : EventLoop κ} {w : World υ} {answer : PollAnswer} {fuel : ℕ}
  {s t : Pass κ υ}

/-- A closure has thrown in the set-up loop. -/
theorem waitNextEvent_of_error {e : Stop Exn}
    (hsetUp : loop (Pass.setUpTurn actions) fuel (start l w) = some (.error e, s)) :
    l.waitNextEvent actions fuel w answer = some (leave (.error e) s s.visits []) := by
  rw [waitNextEvent, hsetUp]
  rfl

/-- There is nothing to poll. -/
theorem waitNextEvent_of_idle
    (hsetUp : loop (Pass.setUpTurn actions) fuel (start l w) = some (pure (), s))
    (hpoll : s.somethingToPoll = false) :
    l.waitNextEvent actions fuel w answer = some (leave (pure .exit) s s.visits []) := by
  rw [waitNextEvent, hsetUp, Option.bind_eq_bind, Option.bind_some]
  dsimp only
  rw [hpoll]
  rfl

/-- The result of `poll` is returned at once. -/
theorem waitNextEvent_of_poll {r : Result}
    (hsetUp : loop (Pass.setUpTurn actions) fuel (start l w) = some (pure (), s))
    (hpoll : s.somethingToPoll = true) (hanswer : pollResult answer = some r) :
    l.waitNextEvent actions fuel w answer = some (leave (pure r) s s.visits []) := by
  rw [waitNextEvent, hsetUp, Option.bind_eq_bind, Option.bind_some]
  dsimp only
  rw [hpoll, hanswer]
  rfl

/-- The result loop runs. -/
theorem waitNextEvent_of_results {r : Eval Exn Unit}
    (hsetUp : loop (Pass.setUpTurn actions) fuel (start l w) = some (pure (), s))
    (hpoll : s.somethingToPoll = true) (hanswer : pollResult answer = none)
    (hresults : loop (Pass.indexedTurn actions) fuel
      { s.rewind with pollfds := answer.fill s.pollfds, visits := [] } = some (r, t)) :
    l.waitNextEvent actions fuel w answer =
      some (leave (r.map fun _ ↦ .success) t s.visits t.visits) := by
  rw [waitNextEvent, hsetUp, Option.bind_eq_bind, Option.bind_some]
  dsimp only
  rw [hpoll, hanswer]
  dsimp only
  rw [hresults]
  rfl

end EventLoop
