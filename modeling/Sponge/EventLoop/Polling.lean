import Sponge.EventLoop.Pass

/-!
# What the result of `poll` comes to

The result of `wait_next_event` is meant to tell its caller what happened: an error in polling is
thrown, a signal makes it `Exit`, and `Success` says that at least one rule was triggered. Two of
these can be wrong.

* **An error is swallowed.** The exception of the system call is caught, and only looked at for
  `EINTR`. After any other error the result loop runs over entries that were not filled in, finds
  nothing in any of them and returns `Success`. This is so for closures that may do anything, so the
  first half of this file does not assume them to be plain.
* **A hangup is ignored.** It is reported also for an entry that asks for nothing, the placeholder
  of a rule that is not interested, and there it leads neither to a callback nor to a cancellation.
-/

open Cpp

variable {κ υ : Type}

/-! ### The set-up loop, for any closures -/

namespace Pass

variable {actions : Actions κ υ} {s t : Pass κ υ} {n : Node κ} {rest : List (Node κ)}

/-- The turn `v` of the set-up loop has cancelled a rule, or has kept it and pushed an entry for
it. -/
def TookUp (s : Pass κ υ) (v : Visit κ υ) (t : Pass κ υ) : Prop :=
  (v.calls = [.cancel] ∧ t.kept = s.kept ∧ t.pollfds = s.pollfds ∧
    t.somethingToPoll = s.somethingToPoll) ∨
  ∃ n p interested, v.calls = [.interest (.ok interested)] ∧ t.kept = s.kept ++ [n] ∧
    t.pollfds = s.pollfds ++ [p] ∧ t.somethingToPoll = (s.somethingToPoll || interested)

theorem tookUp_takeUp (hthrows : (n.takeUp actions s.world).throws = false) :
    s.TookUp (n.takeUp actions s.world).visit
      ((s.pushing (n.takeUp actions s.world).visit).follow rest (n.takeUp actions s.world)) := by
  by_cases hdead : n.Dead s.world
  · rw [Node.takeUp_of_dead hdead]
    exact Or.inl ⟨rfl, rfl, List.append_nil _, Bool.or_false _⟩
  · obtain ⟨interested, hresult⟩ := Node.exists_answer hdead hthrows
    rw [Node.takeUp_of_ok hdead hresult]
    refine Or.inr ⟨n, _, interested, rfl, rfl, rfl, ?_⟩
    cases interested with
    | false => rfl
    | true => rfl

/-- **Everything a turn of the set-up loop does** before it goes on, whatever the closures do. -/
theorem setUpTurn_next (hturn : s.setUpTurn actions = .next t) :
    ∃ v, t.visits = s.visits ++ [v] ∧ s.TookUp v t := by
  obtain ⟨n, rest, hs⟩ := todo_of_setUpTurn_next hturn
  rcases carries_setUpTurn actions hs with ⟨hthrows, hnext⟩ | ⟨-, x, hdone⟩
  · obtain rfl := Turn.next.inj (hnext.symm.trans hturn)
    exact ⟨_, rfl, tookUp_takeUp hthrows⟩
  · exact absurd (hdone.symm.trans hturn) (by simp)

/-- The invariant of the set-up loop that needs nothing of the closures: there is an entry for each
rule that was kept, `something_to_poll` says whether one of them is interested, and no callback has
been called. -/
structure Prepared (s : Pass κ υ) : Prop where
  length_eq : s.pollfds.length = s.kept.length
  interested_iff : s.somethingToPoll = true ↔ ∃ v ∈ s.visits, .interest (.ok true) ∈ v.calls
  no_callback : ∀ v ∈ s.visits, .callback ∉ v.calls

theorem Prepared.tookUp (h : s.Prepared) {v : Visit κ υ} (hvisits : t.visits = s.visits ++ [v])
    (hv : s.TookUp v t) : t.Prepared := by
  have hmem : ∀ P : Visit κ υ → Prop,
      (∃ u ∈ t.visits, P u) ↔ (∃ u ∈ s.visits, P u) ∨ P v := by
    intro P
    simp only [hvisits, List.mem_append, List.mem_singleton, or_and_right, exists_or,
      exists_eq_left]
  have hcallback : .callback ∉ v.calls → ∀ u ∈ t.visits, .callback ∉ u.calls := by
    intro hno u hu
    rw [hvisits] at hu
    rcases List.mem_append.1 hu with hu | hu
    · exact h.no_callback u hu
    · obtain rfl := List.mem_singleton.1 hu
      exact hno
  rcases hv with ⟨hcalls, hkept, hpollfds, hpoll⟩ |
    ⟨n, p, interested, hcalls, hkept, hpollfds, hpoll⟩
  · refine ⟨?_, ?_, hcallback (by rw [hcalls]; decide)⟩
    · rw [hpollfds, hkept, h.length_eq]
    · rw [hpoll, h.interested_iff, hmem, hcalls]
      simp
  · refine ⟨?_, ?_, hcallback (by rw [hcalls]; simp)⟩
    · rw [hpollfds, hkept, List.length_append, List.length_append, h.length_eq,
        List.length_singleton, List.length_singleton]
    · rw [hpoll, Bool.or_eq_true, h.interested_iff, hmem, hcalls]
      simp [eq_comm]

/-- The set-up loop comes to its end only at the end of the list. -/
theorem todo_of_setUpTurn {res : Pass κ υ} (hturn : s.setUpTurn actions = .done (pure (), res)) :
    s.todo = [] ∧ res = s := by
  rcases hs : s.todo with - | ⟨n, rest⟩
  · rw [setUpTurn_of_nil actions hs] at hturn
    exact ⟨rfl, (Prod.mk.inj (Turn.done.inj hturn)).2.symm⟩
  · rcases carries_setUpTurn actions hs with ⟨-, hnext⟩ | ⟨-, x, hdone⟩
    · exact absurd (hnext.symm.trans hturn) (by simp)
    · exact absurd (hdone.symm.trans hturn) (by simp [pure, Except.pure])

/-- A turn keeps the invariant. -/
theorem Prepared.of_next (h : s.Prepared) (hturn : s.setUpTurn actions = .next t) :
    t.Prepared := by
  obtain ⟨v, hvisits, hv⟩ := setUpTurn_next hturn
  exact h.tookUp hvisits hv

theorem prepared_of_loop {fuel : ℕ} (h : s.Prepared)
    (hloop : loop (setUpTurn actions) fuel s = some (pure (), t)) : t.Prepared ∧ t.todo = [] := by
  refine loop_rule Prepared (fun res ↦ res.1 = pure () → res.2.Prepared ∧ res.2.todo = []) ?_ ?_ h
    hloop rfl
  · intro s t hinv hturn
    exact hinv.of_next hturn
  · intro s res hinv hturn hok
    obtain ⟨r, t⟩ := res
    obtain rfl : r = pure () := hok
    obtain ⟨htodo, rfl⟩ := todo_of_setUpTurn hturn
    exact ⟨hinv, htodo⟩

/-! ### The result loop, where nothing is reported -/

/-- The invariant of the result loop over entries without any event: it has only moved on. -/
structure Silent (nodes : List (Node κ)) (s : Pass κ υ) : Prop where
  nodes_eq : s.kept ++ s.todo = nodes
  idx_eq : s.idx = s.kept.length
  length_eq : s.pollfds.length = nodes.length
  revents_eq : ∀ p ∈ s.pollfds, p.revents = 0
  calls_eq : ∀ v ∈ s.visits, v.calls = []

variable {nodes : List (Node κ)}

theorem resultTurn_of_revents {p : PollFd} (hp : p.revents = 0) :
    s.resultTurn actions n p = .next (s.visit n s.world (some p) []).advance := by
  have hzero : ∀ mask : Short, p.revents &&& mask = 0 := by
    intro mask
    rw [hp]
    exact BitVec.zero_and
  rw [resultTurn]
  simp only [hzero, ne_eq, not_true_eq_false, if_false, false_and]

/-- One turn moves on to the next rule and the next entry. -/
theorem Silent.moves_on (h : s.Silent nodes) (hs : s.todo = n :: rest) :
    ∃ t, s.indexedTurn actions = .next t ∧ t.Silent nodes ∧ t.todo = rest := by
  have hlt : s.idx < s.pollfds.length := by
    rw [h.idx_eq, h.length_eq, ← h.nodes_eq, hs, List.length_append, List.length_cons]
    omega
  have hload : (load s.pollfds s.idx : Eval Exn PollFd) = .ok s.pollfds[s.idx] :=
    load_eq (List.getElem?_eq_getElem hlt)
  have hturn : s.resultTurn actions n s.pollfds[s.idx] = _ :=
    resultTurn_of_revents (h.revents_eq _ (List.getElem_mem hlt))
  refine ⟨{ s with
    kept := s.kept ++ [n], todo := rest, idx := s.idx + 1
    visits := s.visits ++ [⟨n, s.world, s.world, some s.pollfds[s.idx], []⟩] }, ?_,
    ⟨?_, ?_, h.length_eq, h.revents_eq, fun v hv ↦ ?_⟩, rfl⟩
  · simp only [indexedTurn, hs, hload, hturn, advance, visit]
  · rw [← h.nodes_eq, hs, List.append_assoc, List.singleton_append]
  · show s.idx + 1 = (s.kept ++ [n]).length
    rw [h.idx_eq, List.length_append, List.length_singleton]
  · rcases List.mem_append.1 hv with hv | hv
    · exact h.calls_eq v hv
    · obtain rfl := List.mem_singleton.1 hv
      rfl

theorem Silent.total (h : s.Silent nodes) {fuel : ℕ} (hfuel : s.todo.length < fuel) :
    ∃ t, loop (indexedTurn actions) fuel s = some (pure (), t) ∧ t.Silent nodes ∧ t.todo = [] := by
  have htotal : ∃ res, loop (indexedTurn actions) fuel s = some res ∧
      res.1 = pure () ∧ res.2.Silent nodes ∧ res.2.todo = [] := by
    refine loop_total (Silent nodes) _ (fun s ↦ s.todo.length) ?_ ?_ h hfuel
    · intro s t hinv hturn
      obtain ⟨n, rest, hs⟩ := todo_of_indexedTurn_next hturn
      obtain ⟨t', ht', hinv', htodo⟩ := hinv.moves_on hs
      obtain rfl := Turn.next.inj (ht'.symm.trans hturn)
      refine ⟨hinv', ?_⟩
      rw [htodo, hs]
      exact Nat.lt_succ_self _
    · intro s res hinv hturn
      rcases hs : s.todo with - | ⟨n, rest⟩
      · rw [indexedTurn_of_nil actions hs] at hturn
        obtain rfl := Turn.done.inj hturn
        exact ⟨rfl, hinv, hs⟩
      · obtain ⟨t', ht', -⟩ := hinv.moves_on hs
        exact absurd (ht'.symm.trans hturn) (by simp)
  obtain ⟨⟨r, t⟩, hloop, rfl, hinv, htodo⟩ := htotal
  exact ⟨t, hloop, hinv, htodo⟩

end Pass

namespace EventLoop

variable {actions : Actions κ υ} {l : EventLoop κ} {w : World υ} {s : Pass κ υ}

/-! ### Errors in polling -/

/-- The call gets as far as `poll`: the set-up loop comes to its end, in `s`, and a rule whose
descriptor is alive has said that it is interested. -/
def Polls (actions : Actions κ υ) (l : EventLoop κ) (w : World υ) (s : Pass κ υ) : Prop :=
  (∃ fuel, loop (Pass.setUpTurn actions) fuel (start l w) = some (pure (), s)) ∧
    ∃ v ∈ s.visits, .interest (.ok true) ∈ v.calls

/-- **An error in polling shows**: the call throws, or returns `Exit` without having called a
callback if the error is that a signal was caught. -/
def ErrorShows (errno : ℤ) (o : Outcome κ υ) : Prop :=
  (errno ≠ eintr → ∃ e, o.result = .error (.throws e)) ∧
  (errno = eintr → o.result = pure .exit ∧ ∀ v ∈ o.setUp ++ o.results, .callback ∉ v.calls)

theorem prepared_start (l : EventLoop κ) (w : World υ) : (start l w).Prepared :=
  ⟨rfl, iff_of_false (fun hpoll ↦ nomatch hpoll) fun ⟨_, hv, _⟩ ↦ List.not_mem_nil hv,
    fun _ hv ↦ absurd hv List.not_mem_nil⟩

theorem Polls.spec (h : Polls actions l w s) :
    s.Prepared ∧ s.todo = [] ∧ s.somethingToPoll = true := by
  obtain ⟨⟨fuel, hloop⟩, hinterested⟩ := h
  obtain ⟨hprepared, htodo⟩ := Pass.prepared_of_loop (prepared_start l w) hloop
  exact ⟨hprepared, htodo, hprepared.interested_iff.2 hinterested⟩

theorem pollResult_failed {errno : ℤ} (herrno : errno ≠ 0) :
    pollResult (.failed errno) = if errno = eintr then some .exit else none := by
  have hcall : systemCall "poll" (PollAnswer.failed errno).returnValue
      (PollAnswer.failed errno).errno = .error (.unixError "poll" errno) :=
    systemCall_of_neg "poll" (show (-1 : ℤ) < 0 by decide) herrno
  rw [pollResult, hcall]

/-- The entries that a failed `poll` has not filled in. -/
theorem silent_rewind (h : s.Prepared) (htodo : s.todo = []) (errno : ℤ) :
    Pass.Silent s.kept
      { s.rewind with pollfds := (PollAnswer.failed errno).fill s.pollfds, visits := [] } where
  nodes_eq := by
    show s.kept ++ s.todo = s.kept
    rw [htodo, List.append_nil]
  idx_eq := rfl
  length_eq := by
    show ((PollAnswer.failed errno).fill s.pollfds).length = _
    rw [PollAnswer.fill, List.length_mapIdx, h.length_eq]
  revents_eq := by
    intro p hp
    obtain ⟨i, hi, rfl⟩ := List.mem_mapIdx.1 hp
    rfl
  calls_eq _ hv := absurd hv List.not_mem_nil

/-- **Only a signal shows.** For every list of rules and arbitrary closures, in every call that gets
as far as `poll`, where `poll` fails: the call returns, and the error shows exactly if it is
`EINTR`. After every other error it returns `Success`, with the rules that the set-up loop kept and
without having called any closure since. -/
theorem errorShows_iff (hpolls : Polls actions l w s) {errno : ℤ} (herrno : errno ≠ 0) :
    ∃ o enough, (∀ fuel, enough ≤ fuel →
        l.waitNextEvent actions fuel w (.failed errno) = some o) ∧
      (ErrorShows errno o ↔ errno = eintr) ∧
      (errno ≠ eintr → o.result = pure .success ∧ o.loop.rules = s.kept ∧
        ∀ v ∈ o.results, v.calls = []) := by
  obtain ⟨hprepared, htodo, hpoll⟩ := hpolls.spec
  obtain ⟨⟨enough, hsetUp⟩, -⟩ := hpolls
  rcases eq_or_ne errno eintr with heintr | heintr
  · refine ⟨leave (pure .exit) s s.visits [], enough, fun fuel hfuel ↦ ?_, ?_,
      fun hne ↦ absurd heintr hne⟩
    · exact waitNextEvent_of_poll (loop_mono hfuel hsetUp) hpoll
        (by rw [pollResult_failed herrno, if_pos heintr])
    · refine iff_of_true ⟨fun hne ↦ absurd heintr hne, fun _ ↦ ⟨rfl, fun v hv ↦ ?_⟩⟩ heintr
      rw [show (leave (pure .exit) s s.visits []).setUp ++
        (leave (pure .exit) s s.visits []).results = s.visits from List.append_nil _] at hv
      exact hprepared.no_callback v hv
  · have htotal : ∃ t, loop (Pass.indexedTurn actions) (s.rewind.todo.length + 1)
        { s.rewind with pollfds := (PollAnswer.failed errno).fill s.pollfds, visits := [] } =
          some (pure (), t) ∧ t.Silent s.kept ∧ t.todo = [] :=
      (silent_rewind hprepared htodo errno).total (Nat.lt_succ_self _)
    obtain ⟨t, hresults, hsilent, -⟩ := htotal
    refine ⟨leave (pure .success) t s.visits t.visits, max enough (s.rewind.todo.length + 1),
      fun fuel hfuel ↦ ?_, ?_, fun _ ↦ ⟨rfl, hsilent.nodes_eq, hsilent.calls_eq⟩⟩
    · exact waitNextEvent_of_results (loop_mono (Nat.le_trans (Nat.le_max_left _ _) hfuel) hsetUp)
        hpoll (by rw [pollResult_failed herrno, if_neg heintr])
        (loop_mono (Nat.le_trans (Nat.le_max_right _ _) hfuel) hresults)
    · refine iff_of_false (fun hshows ↦ ?_) heintr
      obtain ⟨e, he⟩ := hshows.1 heintr
      cases he

/-- One rule for reading. -/
def oneRule : EventLoop Unit := ⟨[⟨0, ⟨0, .In, (), (), ()⟩⟩], 1⟩

/-- All descriptors are open. -/
def openWorld : World Unit := ⟨fun i ↦ ⟨i, false, false, 0, 0⟩, ()⟩

/-- The kernel has no memory for the table (`ENOMEM`), and the caller is told that a rule was
triggered. -/
theorem error_swallowed :
    ∃ s o, Polls readingActions oneRule openWorld s ∧
      oneRule.waitNextEvent readingActions 2 openWorld (.failed 12) = some o ∧
      o.result = pure .success ∧ ¬ ErrorShows 12 o := by
  refine ⟨_, _, ⟨⟨2, rfl⟩, _, List.mem_singleton_self _, List.mem_singleton_self _⟩, rfl, rfl,
    fun hshows ↦ ?_⟩
  obtain ⟨e, he⟩ := hshows.1 (by decide)
  cases he

/-- A signal is caught. -/
theorem errorShows_signal :
    ∃ s o enough, Polls readingActions oneRule openWorld s ∧
      (∀ fuel, enough ≤ fuel →
        oneRule.waitNextEvent readingActions fuel openWorld (.failed eintr) = some o) ∧
      ErrorShows eintr o := by
  have hpolls : Polls readingActions oneRule openWorld _ :=
    ⟨⟨2, rfl⟩, _, List.mem_singleton_self _, List.mem_singleton_self _⟩
  obtain ⟨o, enough, hcall, hshows, -⟩ := errorShows_iff hpolls (show eintr ≠ 0 by decide)
  exact ⟨_, o, enough, hpolls, hcall, hshows.2 rfl⟩

end EventLoop

/-! ### Progress -/

/-- **What is assumed of `poll(2)`**, for the entries it is given: a positive count means that there
is an event, and an event was asked for or is one of the three that need not be. -/
structure PollAnswer.Standard (answer : PollAnswer) (pollfds : List PollFd) : Prop where
  some_event : 0 < answer.returnValue →
    ∃ i p, pollfds[i]? = some p ∧ answer.revents i ≠ 0
  asked_for : ∀ i p, pollfds[i]? = some p →
    answer.revents i &&& ~~~(p.events ||| POLLERR ||| POLLHUP ||| POLLNVAL) = 0

namespace Visit

/-- What a turn of the set-up loop found out: nothing if it has cancelled the rule, and otherwise
whether the rule is interested. -/
def answer (v : Visit κ υ) : Option Bool := if v.cancelled then none else some v.interested

theorem filterMap_answer (vs : List (Visit κ υ)) :
    vs.filterMap answer = (vs.filter fun v ↦ !v.cancelled).map interested := by
  induction vs with
  | nil => rfl
  | cons v vs ih =>
    cases hcancelled : v.cancelled with
    | true =>
      have hanswer : v.answer = none := by rw [answer, hcancelled, if_pos rfl]
      rw [List.filterMap_cons_none hanswer, List.filter_cons_of_neg (by rw [hcancelled]; decide),
        ih]
    | false =>
      have hanswer : v.answer = some v.interested := by rw [answer, hcancelled, if_neg (by decide)]
      rw [List.filterMap_cons_some hanswer, List.filter_cons_of_pos (by rw [hcancelled]; rfl), ih,
        List.map_cons]

/-- A rule is cancelled by the set-up loop exactly if its descriptor is dead. -/
theorem SetUp.cancelled_eq {v : Visit κ υ} (h : v.SetUp) :
    v.cancelled = decide (v.node.Dead v.before) := by
  by_cases hdead : v.node.Dead v.before
  · rw [cancelled, (h.1 hdead).1, decide_eq_true hdead]
    rfl
  · obtain ⟨interested, hcalls, -⟩ := h.2 hdead
    rw [cancelled, hcalls, decide_eq_false hdead]
    rfl

end Visit

/-- What the rules say when they are visited one after the other: nothing if their descriptor is
dead by then, so that they are cancelled, and otherwise whether they are interested. The closures
that are called on the way change the world for the rules after. -/
def survey (actions : Actions κ υ) : List (Node κ) → World υ → List (Option Bool)
  | [], _ => []
  | n :: rest, w =>
    if n.Dead w then none :: survey actions rest (actions.call n.rule.cancel w).world
    else
      some (decide ((actions.ask n.rule.interest w).result = .ok true)) ::
        survey actions rest (actions.ask n.rule.interest w).world

namespace Pass

variable {actions : Actions κ υ} {s t : Pass κ υ} {n : Node κ} {rest : List (Node κ)}

/-- The survey of a rule is the reaction of the set-up loop. -/
theorem survey_cons (hplain : actions.Plain) (n : Node κ) (rest : List (Node κ)) (w : World υ) :
    survey actions (n :: rest) w =
      (n.takeUp actions w).visit.answer ::
        survey actions rest (n.takeUp actions w).visit.after := by
  by_cases hdead : n.Dead w
  · rw [survey, if_pos hdead, Node.takeUp_of_dead hdead]
    rfl
  · obtain ⟨interested, hanswer⟩ := hplain.ask_ok n.rule.interest w
    rw [survey, if_neg hdead, Node.takeUp_of_ok hdead hanswer, hanswer]
    cases interested with
    | false => rfl
    | true => rfl

/-- One turn of the set-up loop is one step of the survey. -/
theorem setUpTurn_survey (hplain : actions.Plain) (hs : s.todo = n :: rest)
    (hturn : s.setUpTurn actions = .next t) :
    ∃ v, t.visits = s.visits ++ [v] ∧ t.todo = rest ∧
      survey actions (n :: rest) s.world = v.answer :: survey actions rest t.world := by
  obtain ⟨hadded, -⟩ := n.takeUp_plain hplain s.world
  rcases carries_setUpTurn actions hs with ⟨-, hnext⟩ | ⟨-, x, hdone⟩
  · obtain rfl := Turn.next.inj (hnext.symm.trans hturn)
    refine ⟨_, rfl, ?_, survey_cons hplain n rest s.world⟩
    rw [follow, hadded]
    rfl
  · exact absurd (hdone.symm.trans hturn) (by simp)

/-- **The set-up loop is the survey**, with the answers found so far and those still to come. -/
theorem survey_of_loop (hplain : actions.Plain) {fuel : ℕ} {answers : List (Option Bool)}
    (h : s.visits.map Visit.answer ++ survey actions s.todo s.world = answers)
    (hloop : loop (setUpTurn actions) fuel s = some (pure (), t)) :
    t.visits.map Visit.answer = answers := by
  refine loop_rule (fun s ↦ s.visits.map Visit.answer ++ survey actions s.todo s.world = answers)
    (fun res ↦ res.1 = pure () → res.2.visits.map Visit.answer = answers) ?_ ?_ h hloop rfl
  · intro s t hinv hturn
    obtain ⟨n, rest, hs⟩ := todo_of_setUpTurn_next hturn
    obtain ⟨v, hvisits, htodo, hsurvey⟩ := setUpTurn_survey hplain hs hturn
    rw [hs, hsurvey] at hinv
    rw [hvisits, htodo, ← hinv, List.map_append, List.append_assoc]
    rfl
  · intro s res hinv hturn hok
    obtain ⟨r, t⟩ := res
    obtain rfl : r = pure () := hok
    obtain ⟨htodo, rfl⟩ := todo_of_setUpTurn hturn
    rw [htodo, survey, List.append_nil] at hinv
    exact hinv

end Pass

namespace EventLoop

variable {actions : Actions κ υ} {l : EventLoop κ} {w : World υ}

/-- **Some rule was triggered**: in one of the loops its callback was called or it was cancelled. -/
def Outcome.Progress (o : Outcome κ υ) : Prop :=
  ∃ v ∈ o.setUp ++ o.results, .callback ∈ v.calls ∨ .cancel ∈ v.calls

instance (o : Outcome κ υ) : Decidable o.Progress :=
  inferInstanceAs (Decidable (∃ v ∈ o.setUp ++ o.results, _))

/-- Some rule is to be triggered: the set-up loop finds its descriptor dead, or it is interested and
there is an event at its entry. -/
def Due (answers : List (Option Bool)) (answer : PollAnswer) : Prop :=
  none ∈ answers ∨ ∃ i, (answers.filterMap id)[i]? = some true ∧ answer.revents i ≠ 0

/-- An event that was not asked for, and is no error, is a hangup. -/
theorem hangup_of_revents {revents events : Short} (hne : revents ≠ 0)
    (hasked : revents &&& ~~~(events ||| POLLERR ||| POLLHUP ||| POLLNVAL) = 0)
    (herror : revents &&& (POLLERR ||| POLLNVAL) = 0) (hready : ¬ revents &&& events ≠ 0) :
    revents &&& POLLHUP ≠ 0 := by
  intro hhup
  apply hne
  have hevents : revents &&& events = 0 := not_not.1 hready
  have hzero : ∀ i, (0 : Short).getLsbD i = false := fun i ↦ BitVec.getLsbD_zero
  have hbit : ∀ {x : Short}, revents &&& x = 0 →
      ∀ i, (revents.getLsbD i && x.getLsbD i) = false := by
    intro x hx i
    rw [← BitVec.getLsbD_and, hx, hzero]
  refine BitVec.eq_of_getLsbD_eq fun i hi ↦ ?_
  have hasked_i := hbit hasked i
  have herror_i := hbit herror i
  have hevents_i := hbit hevents i
  have hhup_i := hbit hhup i
  simp only [BitVec.getLsbD_not, BitVec.getLsbD_or, hi, decide_true, Bool.true_and]
    at hasked_i herror_i
  rw [hzero]
  cases hr : revents.getLsbD i with
  | false => rfl
  | true => simp_all

/-- The turns of the result loop and the answers of the rules that were kept go together. -/
theorem Dispatched.getElem?_live {answer : PollAnswer} {o : Outcome κ υ}
    (h : Dispatched l answer o) (i : ℕ) :
    ((o.setUp.map Visit.answer).filterMap id)[i]? = o.live[i]?.map Visit.interested := by
  have hlive : o.live = o.setUp.filter fun v ↦ !v.cancelled :=
    List.filter_congr fun v hv ↦ by rw [(h.setUp v hv).cancelled_eq]
  rw [List.filterMap_map, Function.id_comp, Visit.filterMap_answer, ← hlive, List.getElem?_map]

/-- A rule that was kept: its entry asks for something exactly if it is interested. -/
theorem Dispatched.entry_of_live {answer : PollAnswer} {o : Outcome κ υ} (h : Dispatched l answer o)
    {i : ℕ} {v : Visit κ υ} (hv : o.live[i]? = some v) :
    ∃ p, v.pollfd = some p ∧ (o.setUp.filterMap Visit.pollfd)[i]? = some p ∧
      (p.events ≠ 0 ↔ v.interested = true) := by
  obtain ⟨hmem, halive⟩ := List.mem_filter.1 (List.mem_of_getElem? hv)
  have hnot : ¬ v.node.Dead v.before := by simpa using halive
  obtain ⟨interested, hcalls, hpollfd⟩ := (h.setUp v hmem).2 hnot
  have hpushed : o.live = o.setUp.filter Visit.pushed :=
    List.filter_congr fun u hu ↦ ((h.setUp u hu).pushed_eq).symm
  refine ⟨_, hpollfd, ?_, ?_⟩
  · rw [hpushed] at hv
    obtain ⟨p, hp, hentry⟩ := Visit.exists_entry_of_pushed hv
    rw [hentry, ← hp, hpollfd]
  · rw [Visit.interested, hcalls]
    cases interested with
    | false => exact iff_of_false (fun hne ↦ hne rfl) (by decide)
    | true =>
      refine iff_of_true ?_ (by decide)
      show v.node.rule.direction.toShort ≠ 0
      cases v.node.rule.direction <;> decide

theorem Dispatched.due_of_progress {answer : PollAnswer} {o : Outcome κ υ}
    (h : Dispatched l answer o) (hprogress : o.Progress) :
    Due (o.setUp.map Visit.answer) answer := by
  obtain ⟨v, hv, hcalls⟩ := hprogress
  rcases List.mem_append.1 hv with hv | hv
  · -- the set-up loop calls no callback, and cancels only what is dead
    by_cases hdead : v.node.Dead v.before
    · refine Or.inl (List.mem_map.2 ⟨v, hv, ?_⟩)
      rw [Visit.answer, (h.setUp v hv).cancelled_eq, decide_eq_true hdead, if_pos rfl]
    · obtain ⟨interested, hasked, -⟩ := (h.setUp v hv).2 hdead
      rw [hasked] at hcalls
      simp at hcalls
  · -- the result loop calls something only for a rule that is interested, if there is an event
    obtain ⟨i, hi⟩ := List.mem_iff_getElem?.1 hv
    obtain ⟨u, p, hlive, -, hpollfd, hentry⟩ := h.own_entry i v hi
    obtain ⟨-, -, -, hnothing⟩ := h.judged v hv _ hentry
    obtain ⟨q, hq, -, hinterested⟩ := h.entry_of_live hlive
    obtain rfl := Option.some.inj (hpollfd.symm.trans hq)
    have hsome : p.events ≠ 0 ∧ answer.revents i ≠ 0 := by
      by_contra hnone
      have hready : ¬ PollFd.Ready { p with revents := answer.revents i } :=
        fun hready ↦ hnone hready.ne_zero
      have hdefunct : ¬ PollFd.Defunct { p with revents := answer.revents i } :=
        fun hdefunct ↦ hnone hdefunct.ne_zero
      rw [(hnothing hready hdefunct).1] at hcalls
      simp at hcalls
    refine Or.inr ⟨i, ?_, hsome.2⟩
    rw [h.getElem?_live, hlive, Option.map_some, hinterested.1 hsome.1]

theorem Dispatched.progress_of_due {answer : PollAnswer} {o : Outcome κ υ}
    (h : Dispatched l answer o) (hstandard : answer.Standard (o.setUp.filterMap Visit.pollfd))
    (hdue : Due (o.setUp.map Visit.answer) answer) : o.Progress := by
  rcases hdue with hdead | ⟨i, hinterested, hrevents⟩
  · obtain ⟨v, hv, hanswer⟩ := List.mem_map.1 hdead
    refine ⟨v, List.mem_append_left _ hv, Or.inr ?_⟩
    by_contra hno
    have hcancelled : v.cancelled = false := decide_eq_false hno
    rw [Visit.answer, hcancelled] at hanswer
    cases hanswer
  · rw [h.getElem?_live] at hinterested
    obtain ⟨v, hlive, hv⟩ := Option.map_eq_some_iff.1 hinterested
    obtain ⟨p, hp, hentry, hevents⟩ := h.entry_of_live hlive
    obtain ⟨r, hr⟩ : ∃ r, o.results[i]? = some r := by
      have hi := congrArg (·[i]?) h.nodes_eq
      simp only [List.getElem?_map, hlive, Option.map_some] at hi
      obtain ⟨r, hr, -⟩ := Option.map_eq_some_iff.1 hi
      exact ⟨r, hr⟩
    obtain ⟨u, q, hu, -, hq, hread⟩ := h.own_entry i r hr
    obtain rfl := Option.some.inj (hu.symm.trans hlive)
    obtain rfl := Option.some.inj (hq.symm.trans hp)
    have hmem := List.mem_of_getElem? hr
    obtain ⟨herror, hready, hdefunct, -⟩ := h.judged r hmem _ hread
    refine ⟨r, List.mem_append_right _ hmem, ?_⟩
    by_cases hisReady : PollFd.Ready { q with revents := answer.revents i }
    · rcases hready hisReady with hcalls | hcalls
      · exact Or.inl (by rw [hcalls]; simp)
      · exact Or.inl (by rw [hcalls]; simp)
    · have hhup := hangup_of_revents hrevents (hstandard.asked_for i q hentry) herror hisReady
      have hcalls := hdefunct ⟨hevents.2 hv, hhup, hisReady⟩
      exact Or.inr (by rw [hcalls]; simp)

/-- **When `Success` means progress.** For every list of rules, every world, every answer of `poll`
and closures that neither throw nor add rules: the call returns, and if it returns `Success`, a rule
was triggered exactly if, asked one after the other, one of the rules is found with a dead
descriptor or one that is interested has an event. -/
theorem progress_iff (hplain : actions.Plain) (l : EventLoop κ) (w : World υ) (answer : PollAnswer)
    {fuel : ℕ} (hfuel : l.rules.length < fuel) :
    ∃ o, l.waitNextEvent actions fuel w answer = some o ∧
      (answer.Standard (o.setUp.filterMap Visit.pollfd) → o.result = pure .success →
        (o.Progress ↔ Due (survey actions l.rules w) answer)) := by
  obtain ⟨s, hsetUp, hs, htodo, ⟨r, hr, hcall⟩ | ⟨r, t, -, -, hjudged, hcall⟩⟩ :=
    waitNextEvent_cases hplain l w answer hfuel
  · exact ⟨_, hcall, fun _ hsuccess ↦ absurd (Except.ok.inj hsuccess) hr⟩
  · refine ⟨_, hcall, fun hstandard hsuccess ↦ ?_⟩
    cases r with
    | error e => cases hsuccess
    | ok _ =>
      obtain ⟨hj, htodo'⟩ := hjudged rfl
      have hdispatched : Dispatched l answer (leave (pure .success) t s.visits t.visits) :=
        dispatched_of_judging hs htodo hj htodo'
      have hsurvey : s.visits.map Visit.answer = survey actions l.rules w :=
        Pass.survey_of_loop hplain (List.nil_append _) hsetUp
      rw [← hsurvey]
      exact ⟨hdispatched.due_of_progress, hdispatched.progress_of_due hstandard⟩

/-- Closures whose code says whether they are interested; calling one means reading from all
descriptors. -/
def steadyActions : Actions Bool Unit where
  call _ w := ⟨.ok (), { w with fds := fun i ↦ (w.fds i).registerRead }, []⟩
  ask c w := ⟨.ok c, w, []⟩

/-- A rule that is interested and one that is not, on two descriptors. -/
def twoRules : EventLoop Bool :=
  ⟨[⟨0, ⟨0, .In, true, true, true⟩⟩, ⟨1, ⟨1, .In, true, false, true⟩⟩], 2⟩

theorem steadyActions_plain : steadyActions.Plain :=
  ⟨fun _ _ ↦ rfl, fun _ _ ↦ rfl, fun c _ ↦ ⟨c, rfl⟩, fun _ _ ↦ rfl⟩

/-- The entries of the two rules, when both descriptors are open. -/
theorem standard_twoRules {revents : ℕ → Short} (hsome : revents 0 ≠ 0 ∨ revents 1 ≠ 0)
    (h₀ : revents 0 &&& ~~~(POLLIN ||| POLLERR ||| POLLHUP ||| POLLNVAL) = 0)
    (h₁ : revents 1 &&& ~~~(0 ||| POLLERR ||| POLLHUP ||| POLLNVAL) = 0) :
    (PollAnswer.ready 1 revents).Standard [⟨0, POLLIN, 0⟩, ⟨1, 0, 0⟩] := by
  refine ⟨fun _ ↦ ?_, ?_⟩
  · rcases hsome with hsome | hsome
    · exact ⟨0, _, rfl, hsome⟩
    · exact ⟨1, _, rfl, hsome⟩
  · rintro (_ | _ | i) p hp
    · obtain rfl := Option.some.inj hp
      exact h₀
    · obtain rfl := Option.some.inj hp
      exact h₁
    · cases hp

/-- The second descriptor hangs up while the first is idle: the next call will find the same. -/
theorem success_without_progress :
    steadyActions.Plain ∧ ∃ o, twoRules.waitNextEvent steadyActions 3 openWorld
        (.ready 1 fun i ↦ if i = 1 then POLLHUP else 0) = some o ∧
      (PollAnswer.ready 1 fun i ↦ if i = 1 then POLLHUP else 0).Standard
        (o.setUp.filterMap Visit.pollfd) ∧
      o.result = pure .success ∧ ¬ o.Progress := by
  refine ⟨steadyActions_plain, _, rfl, ?_, rfl, by decide⟩
  exact standard_twoRules (Or.inr (by decide)) (by decide) (by decide)

/-- The first descriptor is readable. -/
theorem progress_readable :
    ∃ o, twoRules.waitNextEvent steadyActions 3 openWorld
        (.ready 1 fun i ↦ if i = 0 then POLLIN else 0) = some o ∧
      o.result = pure .success ∧ o.Progress := by
  obtain ⟨o, ho, hiff⟩ := progress_iff steadyActions_plain twoRules openWorld
    (.ready 1 fun i ↦ if i = 0 then POLLIN else 0) (show 2 < 3 by decide)
  have hcall : twoRules.waitNextEvent steadyActions 3 openWorld
      (.ready 1 fun i ↦ if i = 0 then POLLIN else 0) = some _ := rfl
  obtain rfl := Option.some.inj (hcall.symm.trans ho)
  have hstandard : (PollAnswer.ready 1 fun i ↦ if i = 0 then POLLIN else 0).Standard
      [⟨0, POLLIN, 0⟩, ⟨1, 0, 0⟩] :=
    standard_twoRules (Or.inl (by decide)) (by decide) (by decide)
  exact ⟨_, ho, rfl, (hiff hstandard rfl).2 (Or.inr ⟨0, rfl, by decide⟩)⟩

end EventLoop
