import Mathlib.Logic.Relation
import Sponge.EventLoop.Schedule

/-!
# What closures can do to a pass in progress

A call of `wait_next_event` samples the rules once, before `poll`, and acts on the sample
afterwards. In between and while it acts, the closures run, and they can invalidate the sample in
two ways.

* **They can add rules.** In the set-up loop this is harmless. In the result loop it is not: the
  list grows under the iterator and the vector of entries does not, so that the loop reads past the
  end of the vector. What it reads before that is right: no callback is called for the entry of
  another rule.
* **They can close or exhaust descriptors**, which rules share. Whether a descriptor is dead is
  looked at only when the rule is taken up, so a callback is called also if a closure that was
  called in the meantime has left its descriptor dead.

Both results are exact, with the closures that are to blame in terms of the schedule.
-/

open Cpp

variable {κ υ : Type}

/-! ### Adding rules -/

namespace EventLoop

variable {actions : Actions κ υ} {l : EventLoop κ} {w w' : World υ} {vs : List (Visit κ υ)}
  {answer : PollAnswer}

/-- **The entries belong to the rules**: no subscript is out of range, and a callback is called only
by the result loop, for the entry that was built for the rule in the same call. -/
structure Outcome.Indexed (o : Outcome κ υ) (answer : PollAnswer) : Prop where
  in_range : ∀ u, o.result ≠ .error (.undefined u)
  no_callback : ∀ v ∈ o.setUp, .callback ∉ v.calls
  own_entry : ∀ (i : ℕ) (v : Visit κ υ), o.results[i]? = some v → .callback ∈ v.calls →
    ∃ (u : Visit κ υ) (p : PollFd), (o.setUp.filter Visit.pushed)[i]? = some u ∧
      u.node = v.node ∧ (∃ interested, p = v.node.rule.entry u.after interested) ∧
      u.pollfd = some p ∧ v.pollfd = some { p with revents := answer.revents i }

/-- **The call overruns its entries**: after the survey it gets past `poll`, closures of the rules
that were polled add rules when these react to their entries, and no exception ends the
reactions. -/
def Overruns (actions : Actions κ υ) (l : EventLoop κ) (w : World υ) (answer : PollAnswer) : Prop :=
  ∃ vs w', Surveyed actions l w vs w' ∧ answer.GoesOn vs ∧
    Outgrown (reactions actions (answer.report vs) w')

/-- A rule that reacts does so to the entry that was built for it. -/
theorem own_entry_of_surveyed (h : Surveyed actions l w vs w') {i : ℕ} {v : Visit κ υ}
    (hv : ((reactions actions (answer.report vs) w').map Reaction.visit)[i]? = some v) :
    ∃ u p, (vs.filter Visit.pushed)[i]? = some u ∧ u.node = v.node ∧
      (∃ interested, p = v.node.rule.entry u.after interested) ∧
      u.pollfd = some p ∧ v.pollfd = some { p with revents := answer.revents i } := by
  rw [List.getElem?_map] at hv
  obtain ⟨e, he, rfl⟩ := Option.map_eq_some_iff.1 hv
  obtain ⟨n, q, w, hpolled, rfl⟩ := getElem?_reactions he
  obtain ⟨hnode, -, hpollfd⟩ := n.react_visit actions q w
  rw [hnode, hpollfd]
  obtain ⟨hkept, hentry⟩ := List.getElem?_zip_eq_some.1 hpolled
  rw [List.getElem?_map] at hkept
  obtain ⟨u, hu, hun⟩ := Option.map_eq_some_iff.1 hkept
  obtain ⟨p, hp, hentries⟩ := Visit.exists_entry_of_pushed hu
  rw [PollAnswer.fill, List.getElem?_mapIdx, hentries] at hentry
  have hown := (h.visit (List.mem_filter.1 (List.mem_of_getElem? hu)).1).2 p hp
  rw [hun] at hown
  exact ⟨u, p, hu, hun, hown, hp, hentry.symm⟩

theorem overruns_iff (h : Surveyed actions l w vs w') :
    Overruns actions l w answer ↔
      answer.GoesOn vs ∧ Outgrown (reactions actions (answer.report vs) w') := by
  constructor
  · rintro ⟨us, u, hs, hgoes, hgrown⟩
    obtain ⟨rfl, rfl⟩ := h.unique hs
    exact ⟨hgoes, hgrown⟩
  · exact fun ⟨hgoes, hgrown⟩ ↦ ⟨vs, w', h, hgoes, hgrown⟩

/-- Of what the entries have to satisfy, only that the subscripts are in range can fail. -/
theorem Outcome.Scheduled.indexed_unless {o : Outcome κ υ} (ho : o.Scheduled actions vs w' answer)
    (h : Surveyed actions l w vs w') :
    o.Indexed answer ↔ ¬ Overruns actions l w answer := by
  rw [overruns_iff h]
  constructor
  · rintro hindexed ⟨hgoes, hgrown⟩
    obtain ⟨u, hu⟩ := (ho.undefined_iff hgoes).2 hgrown
    exact hindexed.in_range u hu
  · intro hnot
    have hcallback : ∀ v ∈ o.setUp, .callback ∉ v.calls := by
      rw [ho.setUp_eq]
      exact fun v hv ↦ (h.visit hv).1
    by_cases hgoes : answer.GoesOn vs
    · refine ⟨fun u hu ↦ hnot ⟨hgoes, (ho.undefined_iff hgoes).1 ⟨u, hu⟩⟩, hcallback, ?_⟩
      rw [ho.setUp_eq, ho.results_eq hgoes]
      exact fun i v hv _ ↦ own_entry_of_surveyed h hv
    · obtain ⟨hnone, hdefined⟩ := ho.returns hgoes
      refine ⟨hdefined, hcallback, ?_⟩
      rw [hnone]
      exact fun i v hv _ ↦ absurd hv (by simp)

/-- **When the entries belong to the rules.** For every list of rules, every world, every answer of
`poll` and arbitrary closures, also ones that throw: a call comes to its end if the survey does; it
calls no callback while it sets up, however long this takes; and whatever it does, its entries
belong to its rules exactly if it does not overrun them. -/
theorem indexed_iff (actions : Actions κ υ) (l : EventLoop κ) (w : World υ) (answer : PollAnswer) :
    ((∃ vs w', Surveyed actions l w vs w') →
      ∃ o enough, ∀ fuel, enough ≤ fuel → l.waitNextEvent actions fuel w answer = some o) ∧
    (∀ s, Relation.ReflTransGen (fun s t : Pass κ υ ↦ s.setUpTurn actions = .next t) (start l w) s →
      ∀ v ∈ s.visits, .callback ∉ v.calls) ∧
    ((∀ fuel o, l.waitNextEvent actions fuel w answer = some o → o.Indexed answer) ↔
      ¬ Overruns actions l w answer) := by
  refine ⟨?_, ?_, ?_⟩
  · rintro ⟨vs, w', h⟩
    obtain ⟨o, enough, hcall, -⟩ := waitNextEvent_of_surveyed h answer
    exact ⟨o, enough, hcall⟩
  · intro s hs
    -- along the turns, also if there is no end of them
    have hprepared : s.Prepared := by
      induction hs with
      | refl => exact prepared_start l w
      | tail _ hturn ih => exact ih.of_next hturn
    exact hprepared.no_callback
  · by_cases h : ∃ vs w', Surveyed actions l w vs w'
    · obtain ⟨vs, w', h⟩ := h
      constructor
      · intro hall
        obtain ⟨o, enough, hcall, ho⟩ := waitNextEvent_of_surveyed h answer
        exact (ho.indexed_unless h).1 (hall enough o (hcall enough le_rfl))
      · intro hnot fuel o hcall
        exact ((scheduled_of_surveyed h hcall).indexed_unless h).2 hnot
    · refine iff_of_true (fun fuel o hcall ↦ ?_) fun ⟨vs, w', hs, _⟩ ↦ h ⟨vs, w', hs⟩
      -- the set-up loop has thrown, and the result loop has not run
      obtain ⟨hnone, ⟨x, hx⟩, hcallback⟩ :=
        waitNextEvent_of_not_surveyed (fun vs w' hs ↦ h ⟨vs, w', hs⟩) hcall
      refine ⟨fun u hu ↦ ?_, hcallback, ?_⟩
      · exact absurd (hx.symm.trans hu) (by simp)
      · rw [hnone]
        exact fun i v hv _ ↦ absurd hv (by simp)

/-- A closure that reads from all descriptors, and adds a rule with itself as the callback. -/
def addingActions : Actions Unit Unit where
  call _ w := ⟨.ok (), { w with fds := fun i ↦ (w.fds i).registerRead }, [⟨1, .In, (), (), ()⟩]⟩
  ask _ w := ⟨.ok true, w, []⟩

/-- One rule, whose callback adds another: the result loop goes on to that and reads the second
entry of one. -/
theorem subscript_past_end :
    (∀ c w, (addingActions.call c w).result = .ok ()) ∧
      (∀ c w, (addingActions.ask c w).result = .ok true) ∧
      ∃ o, oneRule.waitNextEvent addingActions 2 openWorld (.ready 1 fun _ ↦ POLLIN) = some o ∧
        o.result = .error (.undefined .outOfBounds) ∧ ¬ o.Indexed (.ready 1 fun _ ↦ POLLIN) := by
  refine ⟨fun _ _ ↦ rfl, fun _ _ ↦ rfl, _, rfl, rfl, fun hindexed ↦ ?_⟩
  exact hindexed.in_range .outOfBounds rfl

end EventLoop

/-! ### Closing and exhausting descriptors -/

/-- Nothing is reopened: `eof` and `closed` are only ever set. -/
def World.Keeps (w w' : World υ) : Prop :=
  ∀ i, ((w.fds i).eof = true → (w'.fds i).eof = true) ∧
    ((w.fds i).closed = true → (w'.fds i).closed = true)

theorem World.Keeps.refl (w : World υ) : w.Keeps w := fun _ ↦ ⟨id, id⟩

theorem World.Keeps.trans {w₁ w₂ w₃ : World υ} (h : w₁.Keeps w₂) (h' : w₂.Keeps w₃) :
    w₁.Keeps w₃ :=
  fun i ↦ ⟨fun heof ↦ (h' i).1 ((h i).1 heof), fun hclosed ↦ (h' i).2 ((h i).2 hclosed)⟩

/-- Closures that act on descriptors only by reading, writing and closing, which never reset the
flags. -/
structure Actions.KeepFlags (actions : Actions κ υ) : Prop where
  call : ∀ (c : κ) (w : World υ), w.Keeps (actions.call c w).world
  ask : ∀ (c : κ) (w : World υ), w.Keeps (actions.ask c w).world

variable {actions : Actions κ υ} {l : EventLoop κ} {w w' : World υ} {vs : List (Visit κ υ)}

/-- What is dead stays dead. -/
theorem Node.Dead.mono {n : Node κ} (h : n.Dead w) (hkeeps : w.Keeps w') : n.Dead w' :=
  h.imp (fun hin ↦ ⟨hin.1, (hkeeps _).1 hin.2⟩) fun hclosed ↦ (hkeeps _).2 hclosed

/-- What the closures of a rule do reopens nothing. -/
theorem Rule.Replay.keeps (hkeep : actions.KeepFlags) {r : Rule κ} {calls : List Call}
    (h : r.Replay actions calls w w') : w.Keeps w' := by
  induction calls generalizing w with
  | nil =>
    obtain rfl : w' = w := h
    exact .refl w'
  | cons c calls ih =>
    cases c with
    | interest answer => exact (hkeep.ask _ _).trans (ih h.2)
    | callback => exact (hkeep.call _ _).trans (ih h)
    | cancel => exact (hkeep.call _ _).trans (ih h)

/-- Turns that follow each other reopen nothing. -/
theorem Follow.keeps (hkeep : actions.KeepFlags) (h : Follow (Visit.Performed actions) w vs w') :
    w.Keeps w' := by
  induction vs generalizing w with
  | nil =>
    obtain rfl : w' = w := h
    exact .refl w'
  | cons v vs ih =>
    obtain ⟨rfl, hv, hrest⟩ := h
    exact (Rule.Replay.keeps hkeep hv).trans (ih hrest)

/-- The last of some turns leaves the world that they lead to. -/
theorem Follow.exists_last {P : Visit κ υ → Prop} {u : Visit κ υ} (h : Follow P w (u :: vs) w') :
    ∃ x ∈ u :: vs, x.after = w' := by
  induction vs generalizing w u with
  | nil => exact ⟨u, List.mem_singleton_self u, h.2.2.symm⟩
  | cons v vs ih =>
    obtain ⟨x, hx, hafter⟩ := ih h.2.2
    exact ⟨x, List.mem_cons_of_mem u hx, hafter⟩

/-- From the set-up turn of a rule on, no turn before that of its callback leaves its descriptor
dead. -/
def Undisturbed (vs : List (Visit κ υ)) : Prop :=
  ∀ before u between v after, vs = before ++ u :: between ++ v :: after → u.node = v.node →
    .callback ∈ v.calls → ∀ x ∈ u :: between, ¬ v.node.Dead x.after

/-- **What dies on the way is dead on arrival**, and only that, for rules that were taken up
before. -/
theorem Follow.undisturbed_iff (hkeep : actions.KeepFlags)
    (h : Follow (Visit.Performed actions) w vs w')
    (hown : ∀ before v after, vs = before ++ v :: after → .callback ∈ v.calls →
      ∃ u ∈ before, u.node = v.node) :
    Undisturbed vs ↔ ∀ v ∈ vs, .callback ∈ v.calls → ¬ v.node.Dead v.before := by
  constructor
  · intro hundisturbed v hv hcallback
    obtain ⟨before, after, rfl⟩ := List.append_of_mem hv
    obtain ⟨u, hu, hnode⟩ := hown before v after rfl hcallback
    obtain ⟨before, between, rfl⟩ := List.append_of_mem hu
    obtain ⟨w₁, hfirst, hsecond⟩ := follow_append.1 h
    obtain ⟨w₂, -, hbetween⟩ := follow_append.1 hfirst
    -- the turn before that of the callback leaves the world in which the callback is called
    obtain ⟨x, hx, hafter⟩ := hbetween.exists_last
    rw [hsecond.1, ← hafter]
    exact hundisturbed before u between v after rfl hnode hcallback x hx
  · intro halive before u between v after hvs _ hcallback x hx hdead
    have hv : v ∈ vs := by
      rw [hvs]
      exact List.mem_append_right _ List.mem_cons_self
    obtain ⟨first, second, hsplit⟩ := List.append_of_mem hx
    rw [hvs, hsplit] at h
    obtain ⟨w₁, hfirst, hsecond⟩ := follow_append.1 h
    obtain ⟨w₂, -, hbetween⟩ := follow_append.1 hfirst
    obtain ⟨w₃, -, hx'⟩ := follow_append.1 hbetween
    -- it stays dead until the callback is called
    refine halive v hv hcallback ?_
    rw [hsecond.1]
    exact hdead.mono (Follow.keeps hkeep hx'.2.2)

theorem Surveyed.follow (h : Surveyed actions l w vs w') :
    Follow (Visit.Performed actions) w vs w' := by
  induction h with
  | nil => rfl
  | @cons n _ _ w _ _ _ _ ih =>
    obtain ⟨hbefore, hperformed⟩ := n.takeUp_performed actions w
    exact ⟨hbefore, hperformed, ih⟩

theorem follow_reactions (actions : Actions κ υ) (polled : List (Node κ × PollFd)) (w : World υ) :
    ∃ w', Follow (Visit.Performed actions) w
      ((reactions actions polled w).map Reaction.visit) w' := by
  induction polled generalizing w with
  | nil => exact ⟨w, rfl⟩
  | cons np polled ih =>
    obtain ⟨n, p⟩ := np
    obtain ⟨hbefore, hperformed⟩ := n.react_performed actions p w
    rw [reactions]
    split
    · exact ⟨_, hbefore, hperformed, rfl⟩
    · obtain ⟨w', hrest⟩ := ih (n.react actions p w).visit.after
      exact ⟨w', hbefore, hperformed, hrest⟩

namespace EventLoop

/-- **No callback runs on a dead descriptor.** A callback is called in the world in which its turn
begins. -/
def Outcome.CallbacksAlive (o : Outcome κ υ) : Prop :=
  ∀ v ∈ o.setUp ++ o.results, .callback ∈ v.calls → ¬ v.node.Dead v.before

instance (o : Outcome κ υ) : Decidable o.CallbacksAlive :=
  inferInstanceAs (Decidable (∀ v ∈ o.setUp ++ o.results, _ → ¬ _))

/-- **The closures spare the callbacks**: in the schedule of the call, no closure that is called
from the set-up turn of a rule on leaves its descriptor dead before its callback. -/
def SparesCallbacks (actions : Actions κ υ) (l : EventLoop κ) (w : World υ) (answer : PollAnswer) :
    Prop :=
  ∀ vs w', Surveyed actions l w vs w' → answer.GoesOn vs →
    Undisturbed (vs ++ (reactions actions (answer.report vs) w').map Reaction.visit)

/-- A rule that is called back was taken up before. -/
theorem exists_setUp_turn (h : Surveyed actions l w vs w') {answer : PollAnswer}
    {before after : List (Visit κ υ)} {v : Visit κ υ}
    (hv : vs ++ (reactions actions (answer.report vs) w').map Reaction.visit =
      before ++ v :: after) (hcallback : .callback ∈ v.calls) : ∃ u ∈ before, u.node = v.node := by
  have hk : (vs ++ (reactions actions (answer.report vs) w').map
      Reaction.visit)[before.length]? = some v := by
    rw [hv, List.getElem?_append_right le_rfl, Nat.sub_self]
    rfl
  rcases Nat.lt_or_ge before.length vs.length with hlt | hge
  · rw [List.getElem?_append_left hlt] at hk
    exact absurd hcallback (h.visit (List.mem_of_getElem? hk)).1
  · -- the turn is one of the result loop, and the set-up loop has kept its rule
    rw [List.getElem?_append_right hge] at hk
    obtain ⟨u, p, hu, hnode, -⟩ := own_entry_of_surveyed h hk
    have hbefore : vs <+: before := List.prefix_of_prefix_length_le (List.prefix_append vs _)
      (hv ▸ List.prefix_append before _) hge
    exact ⟨u, hbefore.subset (List.mem_filter.1 (List.mem_of_getElem? hu)).1, hnode⟩

theorem undisturbed_of_surveyed (hkeep : actions.KeepFlags) (h : Surveyed actions l w vs w')
    (answer : PollAnswer) :
    Undisturbed (vs ++ (reactions actions (answer.report vs) w').map Reaction.visit) ↔
      ∀ v ∈ vs ++ (reactions actions (answer.report vs) w').map Reaction.visit,
        .callback ∈ v.calls → ¬ v.node.Dead v.before := by
  obtain ⟨u, hreactions⟩ := follow_reactions actions (answer.report vs) w'
  exact (follow_append.2 ⟨w', h.follow, hreactions⟩).undisturbed_iff hkeep
    fun _ _ _ hsplit ↦ exists_setUp_turn h hsplit

theorem sparesCallbacks_iff (h : Surveyed actions l w vs w') {answer : PollAnswer} :
    SparesCallbacks actions l w answer ↔ (answer.GoesOn vs →
      Undisturbed (vs ++ (reactions actions (answer.report vs) w').map Reaction.visit)) := by
  constructor
  · exact fun hspares ↦ hspares vs w' h
  · intro hspares us u hs
    obtain ⟨rfl, rfl⟩ := h.unique hs
    exact hspares

theorem Outcome.Scheduled.alive_iff {o : Outcome κ υ} {answer : PollAnswer}
    (ho : o.Scheduled actions vs w' answer) (hkeep : actions.KeepFlags)
    (h : Surveyed actions l w vs w') :
    o.CallbacksAlive ↔ SparesCallbacks actions l w answer := by
  rw [sparesCallbacks_iff h]
  by_cases hgoes : answer.GoesOn vs
  · rw [CallbacksAlive, ho.setUp_eq, ho.results_eq hgoes, ← undisturbed_of_surveyed hkeep h]
    exact ⟨fun hall _ ↦ hall, fun hall ↦ hall hgoes⟩
  · refine iff_of_true (fun v hv hcallback ↦ ?_) fun hg ↦ absurd hg hgoes
    rw [ho.setUp_eq, (ho.returns hgoes).1, List.append_nil] at hv
    exact absurd hcallback (h.visit hv).1

/-- **When the callbacks find their descriptors alive.** For every list of rules, which may share
descriptors, every world, every answer of `poll`, and closures that neither throw nor add rules and
reopen nothing: the call returns, and no callback runs on a dead descriptor exactly if no closure
that is called from the set-up turn of its rule on has left it dead. -/
theorem callbacksAlive_iff (hplain : actions.Plain) (hkeep : actions.KeepFlags) (l : EventLoop κ)
    (w : World υ) (answer : PollAnswer) {fuel : ℕ} (hfuel : l.rules.length < fuel) :
    ∃ o, l.waitNextEvent actions fuel w answer = some o ∧
      (o.CallbacksAlive ↔ SparesCallbacks actions l w answer) := by
  obtain ⟨s, hsetUp, -, -, hcases⟩ := waitNextEvent_cases hplain l w answer hfuel
  obtain ⟨vs, w', h⟩ := Pass.surveyed_of_loop hsetUp
  obtain ⟨o, ho⟩ : ∃ o, l.waitNextEvent actions fuel w answer = some o := by
    rcases hcases with ⟨r, -, hret⟩ | ⟨r, t, -, -, -, hret⟩
    · exact ⟨_, hret⟩
    · exact ⟨_, hret⟩
  exact ⟨o, ho, (scheduled_of_surveyed h ho).alive_iff hkeep h⟩

/-- Closures that read from the descriptor of their number, to its end or not. -/
def descriptorActions (eof : Bool) : Actions ℕ Unit where
  call i w := ⟨.ok (), { w with fds := fun j ↦
    if j = i then { (w.fds j).registerRead with eof := (w.fds j).eof || eof } else w.fds j }, []⟩
  ask _ w := ⟨.ok true, w, []⟩

/-- Two rules for reading that share a descriptor. -/
def sharedRules : EventLoop ℕ := ⟨[⟨0, ⟨0, .In, 0, 0, 0⟩⟩, ⟨1, ⟨0, .In, 0, 0, 0⟩⟩], 2⟩

theorem descriptorActions_plain (eof : Bool) : (descriptorActions eof).Plain :=
  ⟨fun _ _ ↦ rfl, fun _ _ ↦ rfl, fun _ _ ↦ ⟨true, rfl⟩, fun _ _ ↦ rfl⟩

theorem descriptorActions_keepFlags (eof : Bool) : (descriptorActions eof).KeepFlags where
  call i w j := by
    show ((w.fds j).eof = true → (ite _ _ _ : FDWrapper).eof = true) ∧
      ((w.fds j).closed = true → (ite _ _ _ : FDWrapper).closed = true)
    split
    · exact ⟨fun heof ↦ by simp [heof], id⟩
    · exact ⟨id, id⟩
  ask _ w := .refl w

/-- The callback of the first rule reads to the end of what there is, and that of the second is
called all the same. -/
theorem callback_on_dead :
    (descriptorActions true).Plain ∧ (descriptorActions true).KeepFlags ∧
      ∃ o, sharedRules.waitNextEvent (descriptorActions true) 3 openWorld
          (.ready 2 fun _ ↦ POLLIN) = some o ∧
        o.result = pure .success ∧ ¬ o.CallbacksAlive :=
  ⟨descriptorActions_plain true, descriptorActions_keepFlags true, _, rfl, rfl, by decide⟩

/-- The callback of the first rule reads only a part. -/
theorem callbacksAlive_shared :
    ∃ o, sharedRules.waitNextEvent (descriptorActions false) 3 openWorld
        (.ready 2 fun _ ↦ POLLIN) = some o ∧
      o.CallbacksAlive ∧
      SparesCallbacks (descriptorActions false) sharedRules openWorld
        (.ready 2 fun _ ↦ POLLIN) := by
  obtain ⟨o, ho, hiff⟩ := callbacksAlive_iff (descriptorActions_plain false)
    (descriptorActions_keepFlags false) sharedRules openWorld (.ready 2 fun _ ↦ POLLIN)
    (show 2 < 3 by decide)
  have halive : decide o.CallbacksAlive = true :=
    Option.some.inj ((congrArg (Option.map fun o : Outcome ℕ Unit ↦ decide o.CallbacksAlive)
      ho).symm.trans rfl)
  exact ⟨o, ho, of_decide_eq_true halive, hiff.1 (of_decide_eq_true halive)⟩

end EventLoop
