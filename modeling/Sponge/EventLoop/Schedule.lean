import Sponge.EventLoop.Polling

/-!
# A pass as a schedule of reactions

What a call of `wait_next_event` is meant to be, without the list that is walked and the index that
has to keep up with it: first all rules are taken up one after the other, those that closures add on
the way behind the others, and then each rule that was kept reacts to its own entry. The closures
may do anything here, so the first part need not end, and the second may be left by an exception.

The loops are compared with this description. The set-up loop is the survey, exactly
(`loop_of_surveyed`, `surveyed_of_loop`). The result loop takes the turns that it should
(`results_eq`), but it does not always end where it should: after the last rule that was polled it
goes on with the rules that have been added in the meantime, for which there are no entries.
-/

open Cpp

variable {κ υ : Type}

/-! ### The schedule -/

/-- **The survey**: the rules of the list are taken up in order, until none is left. These are the
turns `vs`, and they leave the world `w'`. -/
inductive Surveyed (actions : Actions κ υ) :
    EventLoop κ → World υ → List (Visit κ υ) → World υ → Prop where
  | nil (id : ℕ) (w : World υ) : Surveyed actions ⟨[], id⟩ w [] w
  | cons {n : Node κ} {rest : List (Node κ)} {id : ℕ} {w w' : World υ} {vs : List (Visit κ υ)} :
    (n.takeUp actions w).throws = false →
    Surveyed actions (EventLoop.addRules ⟨rest, id⟩ (n.takeUp actions w).added)
      (n.takeUp actions w).visit.after vs w' →
    Surveyed actions ⟨n :: rest, id⟩ w ((n.takeUp actions w).visit :: vs) w'

/-- **The reactions** of the rules to their entries, in order, up to the first that throws. -/
def reactions (actions : Actions κ υ) : List (Node κ × PollFd) → World υ → List (Reaction κ υ)
  | [], _ => []
  | (n, p) :: polled, w =>
    n.react actions p w ::
      if (n.react actions p w).throws then []
      else reactions actions polled (n.react actions p w).visit.after

/-- The rules that were kept, with their entries as `poll` has filled them in. -/
def PollAnswer.report (answer : PollAnswer) (vs : List (Visit κ υ)) : List (Node κ × PollFd) :=
  ((vs.filter Visit.pushed).map Visit.node).zip (answer.fill (vs.filterMap Visit.pollfd))

/-- After the survey `vs` the call gets past `poll`: some rule is interested, and `poll` neither
times out nor is interrupted. -/
def PollAnswer.GoesOn (answer : PollAnswer) (vs : List (Visit κ υ)) : Prop :=
  vs.any Visit.interested = true ∧ EventLoop.pollResult answer = none

variable {actions : Actions κ υ} {l : EventLoop κ} {w w' : World υ} {vs : List (Visit κ υ)}

theorem Surveyed.unique {us : List (Visit κ υ)} {u : World υ} (h : Surveyed actions l w vs w')
    (h' : Surveyed actions l w us u) : us = vs ∧ u = w' := by
  induction h generalizing us u with
  | nil id w =>
    cases h'
    exact ⟨rfl, rfl⟩
  | cons _ _ ih =>
    rcases h' with _ | ⟨-, h'⟩
    obtain ⟨rfl, rfl⟩ := ih h'
    exact ⟨rfl, rfl⟩

/-- The survey calls no callback, and an entry that it pushes is the rule's own. -/
theorem Surveyed.visit (h : Surveyed actions l w vs w') {v : Visit κ υ} (hv : v ∈ vs) :
    .callback ∉ v.calls ∧
      ∀ p, v.pollfd = some p → ∃ interested, p = v.node.rule.entry v.after interested := by
  induction h with
  | nil => exact absurd hv List.not_mem_nil
  | @cons n _ _ w _ _ hthrows _ ih =>
    rcases List.mem_cons.1 hv with rfl | hv
    · obtain ⟨hnode, hcallback⟩ := n.takeUp_visit actions w
      rw [hnode]
      exact ⟨hcallback, (Node.takeUp_pushed hthrows).2⟩
    · exact ih hv

/-- The rule at an index reacts to the entry at that index. -/
theorem getElem?_reactions {polled : List (Node κ × PollFd)} {i : ℕ} {e : Reaction κ υ}
    (h : (reactions actions polled w)[i]? = some e) :
    ∃ n p u, polled[i]? = some (n, p) ∧ e = n.react actions p u := by
  induction polled generalizing w i with
  | nil => exact absurd h (by simp [reactions])
  | cons np polled ih =>
    obtain ⟨n, p⟩ := np
    rw [reactions] at h
    rcases i with - | i
    · exact ⟨n, p, w, rfl, (Option.some.inj h).symm⟩
    · rw [List.getElem?_cons_succ] at h
      split at h
      · exact absurd h (by simp)
      · exact ih h

/-! ### The set-up loop -/

namespace Pass

variable {s t : Pass κ υ}

/-- A turn of the set-up loop keeps the rules for which it pushes an entry. -/
theorem kept_follow {e : Reaction κ υ} (h : e.visit.cancelled = !e.visit.pushed)
    (rest : List (Node κ)) (vs : List (Visit κ υ)) :
    (s.follow rest e).kept ++ (vs.filter Visit.pushed).map Visit.node =
      s.kept ++ ((e.visit :: vs).filter Visit.pushed).map Visit.node := by
  rw [follow, h]
  rcases hpushed : e.visit.pushed with - | -
  · rw [List.filter_cons_of_neg (by simp [hpushed])]
    rfl
  · rw [List.filter_cons_of_pos hpushed]
    exact List.append_assoc s.kept [e.visit.node] _

theorem pollfds_pushing (v : Visit κ υ) (vs : List (Visit κ υ)) :
    (s.pushing v).pollfds ++ vs.filterMap Visit.pollfd =
      s.pollfds ++ (v :: vs).filterMap Visit.pollfd := by
  rcases hpollfd : v.pollfd with - | p
  · rw [List.filterMap_cons_none hpollfd, pushing, hpollfd, Option.toList_none, List.append_nil]
  · rw [List.filterMap_cons_some hpollfd, pushing, hpollfd]
    exact List.append_assoc s.pollfds [p] _

/-- **The set-up loop takes the turns of the survey.** -/
theorem loop_of_surveyed (h : Surveyed actions l w vs w') (htodo : s.todo = l.rules)
    (hnextId : s.nextId = l.nextId) (hworld : s.world = w) :
    ∃ fuel id, loop (setUpTurn actions) fuel s = some (pure (), { s with
      kept := s.kept ++ (vs.filter Visit.pushed).map Visit.node
      todo := []
      nextId := id
      world := w'
      pollfds := s.pollfds ++ vs.filterMap Visit.pollfd
      somethingToPoll := s.somethingToPoll || vs.any Visit.interested
      visits := s.visits ++ vs }) := by
  induction h generalizing s with
  | nil id w =>
    subst hworld
    refine ⟨1, s.nextId, (loop_succ_of_done (setUpTurn_of_nil actions htodo)).trans ?_⟩
    simp only [List.filter_nil, List.map_nil, List.filterMap_nil, List.any_nil, List.append_nil,
      Bool.or_false]
    rw [← show s.todo = [] from htodo]
  | @cons n rest id w w' vs hthrows hrest ih =>
    subst hworld
    obtain rfl : s.nextId = id := hnextId
    have hnext : s.setUpTurn actions = .next _ :=
      ((carries_setUpTurn actions htodo).resolve_right fun h ↦ by simp [hthrows] at h).2
    obtain ⟨fuel, id, hloop⟩ := ih (s := (s.pushing (n.takeUp actions s.world).visit).follow rest
      (n.takeUp actions s.world)) rfl rfl rfl
    refine ⟨fuel + 1, id, (loop_succ_of_next hnext).trans (hloop.trans ?_)⟩
    have hvisits : s.visits ++ [(n.takeUp actions s.world).visit] ++ vs =
        s.visits ++ (n.takeUp actions s.world).visit :: vs := List.append_assoc _ [_] _
    rw [kept_follow (Node.takeUp_pushed hthrows).1, List.any_cons, ← Bool.or_assoc,
      ← pollfds_pushing, ← hvisits]
    rfl

/-- A set-up loop that comes to its end has taken the turns of a survey. -/
theorem surveyed_of_loop {fuel : ℕ} (h : loop (setUpTurn actions) fuel s = some (pure (), t)) :
    ∃ vs w', Surveyed actions ⟨s.todo, s.nextId⟩ s.world vs w' := by
  induction fuel generalizing s with
  | zero => exact absurd h (by simp [loop])
  | succ fuel ih =>
    rcases hs : s.todo with - | ⟨n, rest⟩
    · exact ⟨[], s.world, .nil _ _⟩
    · rcases carries_setUpTurn actions hs with ⟨hthrows, hnext⟩ | ⟨-, x, hdone⟩
      · rw [loop_succ_of_next hnext] at h
        obtain ⟨vs, w', hsurveyed⟩ := ih h
        exact ⟨_, w', .cons hthrows hsurveyed⟩
      · rw [loop_succ_of_done hdone] at h
        exact absurd h (by simp [pure, Except.pure])

/-- A set-up loop that is left by an exception has called no callback. -/
theorem thrown_of_loop {fuel : ℕ} {e : Stop Exn} (h : s.Prepared)
    (hloop : loop (setUpTurn actions) fuel s = some (.error e, t)) :
    (∃ x, e = .throws x) ∧ ∀ v ∈ t.visits, .callback ∉ v.calls := by
  refine loop_rule Prepared (fun res ↦ ∀ e, res.1 = .error e →
    (∃ x, e = .throws x) ∧ ∀ v ∈ res.2.visits, .callback ∉ v.calls) ?_ ?_ h hloop e rfl
  · intro s t hinv hturn
    exact hinv.of_next hturn
  · intro s res hinv hturn e he
    rcases hs : s.todo with - | ⟨n, rest⟩
    · rw [setUpTurn_of_nil actions hs] at hturn
      obtain rfl := Turn.done.inj hturn
      exact absurd he (by simp [pure, Except.pure])
    rcases carries_setUpTurn actions hs with ⟨-, hnext⟩ | ⟨-, x, hdone⟩
    · exact absurd (hnext.symm.trans hturn) (by simp)
    obtain rfl := Turn.done.inj (hdone.symm.trans hturn)
    refine ⟨⟨x, (Except.error.inj he).symm⟩, fun v hv ↦ ?_⟩
    rcases List.mem_append.1 hv with hv | hv
    · exact hinv.no_callback v hv
    · obtain rfl := List.mem_singleton.1 hv
      exact (n.takeUp_visit actions s.world).2

/-! ### The result loop -/

/-- At the end of the entries the loop is left, and by a subscript out of range if there are more
rules. -/
theorem results_of_le (actions : Actions κ υ) (hidx : s.pollfds.length ≤ s.idx) (fuel : ℕ) :
    ∃ r, loop (indexedTurn actions) (fuel + 1) s = some (r, s) ∧
      ((∃ u, r = .error (.undefined u)) ↔ s.todo ≠ []) := by
  rcases hs : s.todo with - | ⟨n, rest⟩
  · refine ⟨_, loop_succ_of_done (indexedTurn_of_nil actions hs), iff_of_false ?_ (by simp)⟩
    rintro ⟨u, hu⟩
    exact absurd hu (by simp [pure, Except.pure])
  · exact ⟨_, loop_succ_of_done (indexedTurn_of_le actions hs hidx),
      iff_of_true ⟨_, rfl⟩ (by simp)⟩

/-- **The result loop takes the scheduled turns**, and then runs past the last entry exactly if
there are rules that the entries were not made for, be it from the start or because a closure has
added them, and no exception has left the loop before. -/
theorem results_eq (actions : Actions κ υ) (polled : List (Node κ × PollFd))
    {grown : List (Node κ)} {fuel : ℕ} (htodo : s.todo = polled.map Prod.fst ++ grown)
    (hentries : s.pollfds.drop s.idx = polled.map Prod.snd) (hfuel : polled.length < fuel) :
    ∃ r t, loop (indexedTurn actions) fuel s = some (r, t) ∧
      t.visits = s.visits ++ (reactions actions polled s.world).map Reaction.visit ∧
      ((∃ u, r = .error (.undefined u)) ↔
        (grown ≠ [] ∨ ∃ e ∈ reactions actions polled s.world, e.added ≠ []) ∧
          ∀ e ∈ reactions actions polled s.world, e.throws = false) := by
  induction polled generalizing s grown fuel with
  | nil =>
    obtain ⟨fuel, rfl⟩ : ∃ k, fuel = k + 1 := ⟨fuel - 1, by omega⟩
    -- the iterator is at the rules that were added, and the index is at the end of the entries
    obtain ⟨r, hloop, hiff⟩ := results_of_le actions (List.drop_eq_nil_iff.1 hentries) fuel
    refine ⟨r, s, hloop, (List.append_nil _).symm, hiff.trans ?_⟩
    rw [htodo]
    simp [reactions]
  | cons np polled ih =>
    obtain ⟨n, p⟩ := np
    obtain ⟨fuel, rfl⟩ : ∃ k, fuel = k + 1 := ⟨fuel - 1, by omega⟩
    have hp : s.pollfds[s.idx]? = some p := by
      have hhead := congrArg (·[0]?) hentries
      simpa using hhead
    rw [reactions]
    rcases carries_indexedTurn actions htodo hp with ⟨hthrows, hnext⟩ | ⟨hthrows, x, hdone⟩
    · -- what this turn has added is behind what the turns before it have added
      obtain ⟨more, hmore, hadded⟩ := EventLoop.addRules_rules
        ⟨polled.map Prod.fst ++ grown, s.nextId⟩ (n.react actions p s.world).added
      have hentries' : s.pollfds.drop (s.idx + 1) = polled.map Prod.snd := by
        rw [← List.drop_drop, hentries]
        rfl
      obtain ⟨r, t, hloop, hvisits, hiff⟩ := ih
        (s := { s.follow _ (n.react actions p s.world) with idx := s.idx + 1 })
        (hmore.trans (List.append_assoc _ _ _)) hentries' (Nat.lt_of_succ_lt_succ hfuel)
      refine ⟨r, t, (loop_succ_of_next hnext).trans hloop, ?_, hiff.trans ?_⟩
      · rw [hvisits, hthrows]
        exact List.append_assoc _ [_] _
      · have hgrown : grown ++ more ≠ [] ↔ grown ≠ [] ∨ (n.react actions p s.world).added ≠ [] := by
          rw [ne_eq, List.append_eq_nil_iff, hadded, not_and_or]
        simp only [hgrown, or_assoc, hthrows, Bool.false_eq_true, if_false, List.mem_cons,
          exists_eq_or_imp, forall_eq_or_imp, true_and]
        rfl
    · -- the loop is left before it can get to the end of the entries
      refine ⟨_, _, loop_succ_of_done hdone, ?_, iff_of_false ?_ ?_⟩
      · rw [if_pos hthrows]
        rfl
      · rintro ⟨u, hu⟩
        exact absurd hu (by simp)
      · rintro ⟨-, hnone⟩
        exact absurd (hthrows.symm.trans (hnone _ List.mem_cons_self)) (by simp)

end Pass

/-! ### The whole call -/

/-- Closures have added rules, and no exception ends the loop before it comes to them. -/
def Outgrown (es : List (Reaction κ υ)) : Prop :=
  (∃ e ∈ es, e.added ≠ []) ∧ ∀ e ∈ es, e.throws = false

theorem PollAnswer.map_report (answer : PollAnswer) (vs : List (Visit κ υ)) :
    (answer.report vs).map Prod.fst = (vs.filter Visit.pushed).map Visit.node ∧
      (answer.report vs).map Prod.snd = answer.fill (vs.filterMap Visit.pollfd) := by
  have hlength : ((vs.filter Visit.pushed).map Visit.node).length =
      (answer.fill (vs.filterMap Visit.pollfd)).length := by
    have hmap := congrArg List.length (Visit.map_pollfd_filter_pushed vs)
    rw [List.length_map, List.length_map] at hmap
    rw [List.length_map, hmap, PollAnswer.fill, List.length_mapIdx]
  exact ⟨List.map_fst_zip hlength.le, List.map_snd_zip hlength.ge⟩

namespace EventLoop

variable {answer : PollAnswer} {fuel : ℕ} {o : Outcome κ υ}

/-- **The outcome is that of the schedule** after the survey `vs`, which left the world `w'`: no
rule reacts unless the call gets past `poll`, and then all do, or all up to the first that
throws. -/
structure Outcome.Scheduled (o : Outcome κ υ) (actions : Actions κ υ) (vs : List (Visit κ υ))
    (w' : World υ) (answer : PollAnswer) : Prop where
  setUp_eq : o.setUp = vs
  returns : ¬ answer.GoesOn vs → o.results = [] ∧ ∀ u, o.result ≠ .error (.undefined u)
  results_eq : answer.GoesOn vs →
    o.results = (reactions actions (answer.report vs) w').map Reaction.visit
  undefined_iff : answer.GoesOn vs → ((∃ u, o.result = .error (.undefined u)) ↔
    Outgrown (reactions actions (answer.report vs) w'))

/-- The outcome of a call that does not get past `poll`. -/
theorem scheduled_leave (hnot : ¬ answer.GoesOn vs) {r : Result} {s : Pass κ υ} :
    (leave (pure r) s vs []).Scheduled actions vs w' answer where
  setUp_eq := rfl
  returns _ := ⟨rfl, fun u hu ↦ absurd hu (by simp [leave, pure, Except.pure])⟩
  results_eq hgoes := absurd hgoes hnot
  undefined_iff hgoes := absurd hgoes hnot

theorem map_eq_undefined {r : Eval Exn Unit} {u : Undefined} :
    r.map (fun _ ↦ Result.success) = .error (.undefined u) ↔ r = .error (.undefined u) := by
  cases r with
  | error e => simp [Except.map]
  | ok _ => simp [Except.map]

/-- More fuel does not change what a call does. -/
theorem waitNextEvent_mono {fuel' : ℕ} (hle : fuel ≤ fuel')
    (h : l.waitNextEvent actions fuel w answer = some o) :
    l.waitNextEvent actions fuel' w answer = some o := by
  obtain ⟨⟨r, s⟩, hsetUp, hrest⟩ := Option.bind_eq_some_iff.1 h
  have hsetUp' := loop_mono hle hsetUp
  rcases r with e | ⟨⟩
  · rw [waitNextEvent_of_error hsetUp] at h
    rw [waitNextEvent_of_error hsetUp', h]
  rcases hpoll : s.somethingToPoll with - | -
  · rw [waitNextEvent_of_idle hsetUp hpoll] at h
    rw [waitNextEvent_of_idle hsetUp' hpoll, h]
  rcases hanswer : pollResult answer with - | r
  · simp only [hpoll, hanswer, Bool.not_true, Bool.false_eq_true, if_false] at hrest
    obtain ⟨⟨r, t⟩, hresults, ho⟩ := Option.bind_eq_some_iff.1 hrest
    rw [waitNextEvent_of_results hsetUp' hpoll hanswer (loop_mono hle hresults)]
    exact ho
  · rw [waitNextEvent_of_poll hsetUp hpoll hanswer] at h
    rw [waitNextEvent_of_poll hsetUp' hpoll hanswer, h]

/-- The result loop, after a set-up loop that has taken the turns `vs`. -/
theorem results_of_survey (actions : Actions κ υ) {s : Pass κ υ}
    (hkept : s.kept = (vs.filter Visit.pushed).map Visit.node) (htodo : s.todo = [])
    (hpollfds : s.pollfds = vs.filterMap Visit.pollfd) (answer : PollAnswer) :
    ∃ enough r t, loop (Pass.indexedTurn actions) enough
        { s.rewind with pollfds := answer.fill s.pollfds, visits := [] } = some (r, t) ∧
      t.visits = (reactions actions (answer.report vs) s.world).map Reaction.visit ∧
      ((∃ u, r = .error (.undefined u)) ↔
        Outgrown (reactions actions (answer.report vs) s.world)) := by
  obtain ⟨hnodes, hentries⟩ := answer.map_report vs
  have hrewind : s.kept ++ s.todo = (answer.report vs).map Prod.fst ++ [] := by
    rw [hkept, htodo, hnodes]
  have hfill : answer.fill s.pollfds = (answer.report vs).map Prod.snd := by
    rw [hpollfds, hentries]
  obtain ⟨r, t, hresults, hvisits, hiff⟩ := Pass.results_eq actions (answer.report vs)
    (s := { s.rewind with pollfds := answer.fill s.pollfds, visits := [] }) hrewind hfill
    (Nat.lt_succ_self _)
  refine ⟨_, r, t, hresults, hvisits, hiff.trans ?_⟩
  rw [ne_eq, eq_self, not_true, false_or]
  rfl

/-- **The call follows the schedule**, if the survey comes to its end. -/
theorem waitNextEvent_of_surveyed (h : Surveyed actions l w vs w') (answer : PollAnswer) :
    ∃ o enough, (∀ fuel, enough ≤ fuel → l.waitNextEvent actions fuel w answer = some o) ∧
      o.Scheduled actions vs w' answer := by
  obtain ⟨enough, id, hsetUp⟩ := Pass.loop_of_surveyed (s := start l w) h rfl rfl rfl
  rcases hpoll : vs.any Visit.interested with - | -
  · have hnot : ¬ answer.GoesOn vs := fun hgoes ↦ absurd (hgoes.1.symm.trans hpoll) (by simp)
    exact ⟨_, enough, fun fuel hle ↦ waitNextEvent_of_idle (loop_mono hle hsetUp) hpoll,
      scheduled_leave hnot⟩
  rcases hanswer : pollResult answer with - | r
  · have hgoes : answer.GoesOn vs := ⟨hpoll, hanswer⟩
    obtain ⟨enough', r, t, hresults, hvisits, hiff⟩ := results_of_survey actions
      (s := ⟨(vs.filter Visit.pushed).map Visit.node, [], id, w', vs.filterMap Visit.pollfd,
        vs.any Visit.interested, 0, vs⟩) rfl rfl rfl answer
    refine ⟨leave (r.map fun _ ↦ .success) t vs t.visits, max enough enough', fun fuel hle ↦ ?_,
      rfl, fun hnot ↦ absurd hgoes hnot, fun _ ↦ hvisits, fun _ ↦ Iff.trans ?_ hiff⟩
    · -- there has to be enough fuel for either loop
      exact waitNextEvent_of_results (loop_mono (Nat.le_trans (Nat.le_max_left _ _) hle) hsetUp)
        hpoll hanswer (loop_mono (Nat.le_trans (Nat.le_max_right _ _) hle) hresults)
    · exact exists_congr fun u ↦ map_eq_undefined
  · have hnot : ¬ answer.GoesOn vs := fun hgoes ↦ absurd (hgoes.2.symm.trans hanswer) (by simp)
    exact ⟨_, enough, fun fuel hle ↦ waitNextEvent_of_poll (loop_mono hle hsetUp) hpoll hanswer,
      scheduled_leave hnot⟩

/-- A call that returns after a survey has followed the schedule of that survey. -/
theorem scheduled_of_surveyed (h : Surveyed actions l w vs w')
    (hcall : l.waitNextEvent actions fuel w answer = some o) :
    o.Scheduled actions vs w' answer := by
  obtain ⟨o', enough, henough, ho'⟩ := waitNextEvent_of_surveyed h answer
  obtain rfl : o' = o := Option.some.inj ((henough _ (Nat.le_max_left enough fuel)).symm.trans
    (waitNextEvent_mono (Nat.le_max_right enough fuel) hcall))
  exact ho'

/-- If the survey does not come to its end, the set-up loop does not either, or a closure throws in
it. -/
theorem waitNextEvent_of_not_surveyed (h : ∀ vs w', ¬ Surveyed actions l w vs w')
    (hcall : l.waitNextEvent actions fuel w answer = some o) :
    o.results = [] ∧ (∃ x, o.result = .error (.throws x)) ∧
      ∀ v ∈ o.setUp, .callback ∉ v.calls := by
  obtain ⟨⟨r, s⟩, hsetUp, -⟩ := Option.bind_eq_some_iff.1 hcall
  rcases r with e | ⟨⟩
  · obtain ⟨⟨x, rfl⟩, hcallback⟩ := Pass.thrown_of_loop (prepared_start l w) hsetUp
    rw [waitNextEvent_of_error hsetUp] at hcall
    obtain rfl := Option.some.inj hcall
    exact ⟨rfl, ⟨x, rfl⟩, hcallback⟩
  · obtain ⟨vs, w', hsurveyed⟩ := Pass.surveyed_of_loop hsetUp
    exact absurd hsurveyed (h vs w')

end EventLoop
