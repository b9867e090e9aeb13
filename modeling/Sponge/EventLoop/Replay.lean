import Sponge.EventLoop.Turns

/-!
# The history can be replayed

Every turn of the two loops records which closures it has called, and writes this down apart from
the calls. Here the record is checked against what the closures do, whatever that is: if the calls
that are recorded are made again, in their order and from the world in which the call of
`wait_next_event` began, then each interest answers what is recorded of it, and at the end the world
is the one in which the call has ended. So **no call is recorded that was not made, and none is made
that is not recorded**.
-/

open Cpp

variable {κ υ : Type}

/-! ### Replaying turns -/

/-- The closures of a rule, called in the given order, answer as recorded and turn `w` into `w'`. -/
def Rule.Replay (r : Rule κ) (actions : Actions κ υ) : List Call → World υ → World υ → Prop
  | [], w, w' => w' = w
  | .interest answer :: calls, w, w' =>
    (actions.ask r.interest w).result = answer ∧
      r.Replay actions calls (actions.ask r.interest w).world w'
  | .callback :: calls, w, w' => r.Replay actions calls (actions.call r.callback w).world w'
  | .cancel :: calls, w, w' => r.Replay actions calls (actions.call r.cancel w).world w'

/-- What the turn did to the world is what its calls do. -/
def Visit.Performed (actions : Actions κ υ) (v : Visit κ υ) : Prop :=
  v.node.rule.Replay actions v.calls v.before v.after

/-- The turns follow each other and lead from the world `w` to the last one, and each of them has
the property `P`. -/
def Follow (P : Visit κ υ → Prop) (w : World υ) : List (Visit κ υ) → World υ → Prop
  | [], w' => w' = w
  | v :: vs, w' => v.before = w ∧ P v ∧ Follow P v.after vs w'

section Follow

variable {P : Visit κ υ → Prop} {w w' : World υ} {vs us : List (Visit κ υ)} {v : Visit κ υ}

theorem follow_append :
    Follow P w (vs ++ us) w' ↔ ∃ u, Follow P w vs u ∧ Follow P u us w' := by
  induction vs generalizing w with
  | nil =>
    constructor
    · exact fun h ↦ ⟨w, rfl, h⟩
    · rintro ⟨u, rfl, h⟩
      exact h
  | cons v vs ih =>
    constructor
    · rintro ⟨hbefore, hv, hrest⟩
      obtain ⟨u, hvs, hus⟩ := ih.1 hrest
      exact ⟨u, ⟨hbefore, hv, hvs⟩, hus⟩
    · rintro ⟨u, ⟨hbefore, hv, hvs⟩, hus⟩
      exact ⟨hbefore, hv, ih.2 ⟨u, hvs, hus⟩⟩

/-- One more turn. -/
theorem Follow.concat (h : Follow P w vs w') (hbefore : v.before = w') (hv : P v) :
    Follow P w (vs ++ [v]) v.after :=
  follow_append.2 ⟨w', h, hbefore, hv, rfl⟩

end Follow

namespace Node

theorem takeUp_performed (actions : Actions κ υ) (n : Node κ) (w : World υ) :
    (n.takeUp actions w).visit.before = w ∧ (n.takeUp actions w).visit.Performed actions := by
  rw [takeUp]
  split
  · exact ⟨rfl, rfl⟩
  · exact ⟨rfl, rfl, rfl⟩

theorem react_performed (actions : Actions κ υ) (n : Node κ) (p : PollFd) (w : World υ) :
    (n.react actions p w).visit.before = w ∧ (n.react actions p w).visit.Performed actions := by
  refine ⟨(n.react_visit actions p w).2.1, ?_⟩
  simp only [react, drop]
  split_ifs
  · exact rfl
  · exact rfl
  · exact ⟨rfl, rfl⟩
  · exact rfl
  · exact rfl

end Node

/-! ### The two loops -/

namespace Pass

variable {actions : Actions κ υ} {s t : Pass κ υ} {w : World υ} {fuel : ℕ}

/-- The turns so far have led from the world `w` to the present one. -/
def Replays (actions : Actions κ υ) (w : World υ) (s : Pass κ υ) : Prop :=
  Follow (Visit.Performed actions) w s.visits s.world

/-- The reaction of a turn is added to the history. -/
theorem Replays.carried {e : Reaction κ υ} (h : s.Replays actions w)
    (he : e.visit.before = s.world ∧ e.visit.Performed actions)
    (hvisits : t.visits = s.visits ++ [e.visit]) (hworld : t.world = e.visit.after) :
    t.Replays actions w := by
  rw [Replays, hvisits, hworld]
  exact Follow.concat h he.1 he.2

/-- So they have after one more turn, however it ends. -/
def ReplaysTurn (actions : Actions κ υ) (w : World υ) :
    Turn (Pass κ υ) (Eval Exn Unit × Pass κ υ) → Prop
  | .next t => t.Replays actions w
  | .done (_, t) => t.Replays actions w

theorem Replays.setUpTurn (h : s.Replays actions w) :
    ReplaysTurn actions w (s.setUpTurn actions) := by
  rcases hs : s.todo with - | ⟨n, rest⟩
  · rw [setUpTurn_of_nil actions hs]
    exact h
  have he := n.takeUp_performed actions s.world
  rcases carries_setUpTurn actions hs with ⟨-, hturn⟩ | ⟨-, x, hturn⟩
  · rw [hturn]
    exact h.carried he rfl rfl
  · rw [hturn]
    exact h.carried he rfl rfl

theorem Replays.indexedTurn (h : s.Replays actions w) :
    ReplaysTurn actions w (s.indexedTurn actions) := by
  rcases hs : s.todo with - | ⟨n, rest⟩
  · rw [indexedTurn_of_nil actions hs]
    exact h
  rcases hp : s.pollfds[s.idx]? with - | p
  · -- the subscript is out of range, and no closure is called
    rw [indexedTurn_of_le actions hs (List.getElem?_eq_none_iff.1 hp)]
    exact h
  have he := n.react_performed actions p s.world
  rcases carries_indexedTurn actions hs hp with ⟨-, hturn⟩ | ⟨-, x, hturn⟩
  · rw [hturn]
    exact h.carried he rfl rfl
  · rw [hturn]
    exact h.carried he rfl rfl

/-- **All turns of a loop.** -/
theorem Replays.of_loop {body : Pass κ υ → Turn (Pass κ υ) (Eval Exn Unit × Pass κ υ)}
    (h : s.Replays actions w)
    (hbody : ∀ s : Pass κ υ, s.Replays actions w → ReplaysTurn actions w (body s))
    {r : Eval Exn Unit} (hloop : loop body fuel s = some (r, t)) :
    t.Replays actions w := by
  refine loop_rule (Replays actions w) (fun res ↦ res.2.Replays actions w) ?_ ?_ h hloop
  · intro s t hs hturn
    have hnext := hbody s hs
    rwa [hturn] at hnext
  · intro s res hs hturn
    have hdone := hbody s hs
    rwa [hturn] at hdone

end Pass

/-! ### The whole call -/

namespace EventLoop

variable {actions : Actions κ υ} {l : EventLoop κ} {w : World υ} {answer : PollAnswer} {fuel : ℕ}
  {o : Outcome κ υ}

/-- **The history can be replayed**: from the world `w`, in which the call began. -/
def Outcome.Replayable (o : Outcome κ υ) (actions : Actions κ υ) (w : World υ) : Prop :=
  Follow (Visit.Performed actions) w (o.setUp ++ o.results) o.world

/-- **Whatever the closures do**, and however the call ends. -/
theorem waitNextEvent_replayable (hcall : l.waitNextEvent actions fuel w answer = some o) :
    o.Replayable actions w := by
  obtain ⟨⟨r, s⟩, hsetUp, hrest⟩ := Option.bind_eq_some_iff.1 hcall
  have hstart : (start l w).Replays actions w := rfl
  have hs : s.Replays actions w := hstart.of_loop (fun _ h ↦ h.setUpTurn) hsetUp
  have hreturn : ∀ result, (leave result s s.visits []).Replayable actions w := by
    intro result
    show Follow _ w (s.visits ++ []) s.world
    rw [List.append_nil]
    exact hs
  rcases r with e | ⟨⟩
  · obtain rfl := Option.some.inj ((waitNextEvent_of_error hsetUp).symm.trans hcall)
    exact hreturn _
  rcases hpoll : s.somethingToPoll with - | -
  · obtain rfl := Option.some.inj ((waitNextEvent_of_idle hsetUp hpoll).symm.trans hcall)
    exact hreturn _
  rcases hanswer : pollResult answer with - | r
  · simp only [hpoll, hanswer, Bool.not_true, Bool.false_eq_true, if_false] at hrest
    obtain ⟨⟨r, t⟩, hresults, ho⟩ := Option.bind_eq_some_iff.1 hrest
    obtain rfl := Option.some.inj ho
    -- the result loop has a history of its own, which begins where the other ends
    have hrewind : Pass.Replays actions s.world
        { s.rewind with pollfds := answer.fill s.pollfds, visits := [] } := rfl
    have ht : t.Replays actions s.world :=
      hrewind.of_loop (fun _ h ↦ h.indexedTurn) hresults
    exact follow_append.2 ⟨s.world, hs, ht⟩
  · obtain rfl := Option.some.inj ((waitNextEvent_of_poll hsetUp hpoll hanswer).symm.trans hcall)
    exact hreturn _

end EventLoop
