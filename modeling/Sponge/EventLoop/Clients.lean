import Mathlib.Data.List.Forall2
import Sponge.EventLoop.Turns

/-!
# A rule for clients of the event loop

What has to be shown about the closures of a client, one rule at a time, and what follows about
every call of `wait_next_event`. The closures do not throw and do not add rules, but otherwise they
may do anything to the world.

* `Inv` holds between any two turns, of the rules that are left and of the world.
* `Asked` is why a rule has asked for its events, or has asked for none. The set-up loop establishes
  it for the rule it is at, and the turns of the others have to leave it alone; if the rule has
  asked for something, until the result loop comes to it.
* `Told` is what `poll` says by its `revents`. It is true when `poll` returns, and must stay so
  until the result loop comes to the rule.
* `done` is what has been done so far. No turn undoes anything, and a turn of the result loop that
  finds an event that was asked for, or a mere hangup, does something.

The obligations are about `Node.takeUp` and `Node.react`, so neither the list that is being walked
nor the index occurs in them.
-/

open Cpp

variable {κ υ : Type}

/-- The rules before the iterator, after the reaction `e`. -/
def Reaction.left (e : Reaction κ υ) (kept : List (Node κ)) : List (Node κ) :=
  if e.visit.cancelled then kept else kept ++ [e.visit.node]

/-- A client's view of its rules. -/
structure Client (κ υ : Type) where
  Inv : List (Node κ) → World υ → Prop
  /-- Why the rule has asked for the events. -/
  Asked : World υ → Node κ → Short → Prop
  /-- What the events that `poll` returns say. -/
  Told : World υ → Node κ → Short → Prop
  /-- What has been done so far. -/
  done : List (Node κ) → World υ → ℕ

namespace Client

variable (c : Client κ υ)

/-- An entry that the result loop has still to look at. -/
structure Pending (w : World υ) (n : Node κ) (p : PollFd) : Prop where
  asked : p.events ≠ 0 → c.Asked w n p.events
  told : c.Told w n p.revents

/-- A reaction of the rule `n` of the list `kept ++ n :: rest` keeps the invariant. -/
structure Keeps (kept rest : List (Node κ)) (n : Node κ) (w : World υ) (e : Reaction κ υ) :
    Prop where
  throws_eq : e.throws = false
  added_eq : e.added = []
  inv : c.Inv (e.left kept ++ rest) e.visit.after
  le : c.done (kept ++ n :: rest) w ≤ c.done (e.left kept ++ rest) e.visit.after

/-- What a turn of the set-up loop has to come to. -/
structure Asks (kept rest : List (Node κ)) (n : Node κ) (w : World υ) (e : Reaction κ υ) :
    Prop where
  keeps : c.Keeps kept rest n w e
  asked : ∀ p, e.visit.pollfd = some p → c.Asked e.visit.after n p.events
  others : ∀ m ∈ kept, ∀ events, c.Asked w m events → c.Asked e.visit.after m events

/-- What a turn of the result loop has to come to. -/
structure Reacts (kept rest : List (Node κ)) (n : Node κ) (w : World υ) (p : PollFd)
    (e : Reaction κ υ) : Prop where
  keeps : c.Keeps kept rest n w e
  lt : p.Ready ∨ p.Defunct →
    c.done (kept ++ n :: rest) w < c.done (e.left kept ++ rest) e.visit.after
  others : ∀ m ∈ rest, ∀ q, c.Pending w m q → c.Pending e.visit.after m q

/-- **The obligations** of a client. -/
structure Sound (actions : Actions κ υ) : Prop where
  takeUp : ∀ {kept rest n w}, c.Inv (kept ++ n :: rest) w →
    c.Asks kept rest n w (n.takeUp actions w)
  react : ∀ {kept rest n w p}, c.Inv (kept ++ n :: rest) w → c.Pending w n p →
    c.Reacts kept rest n w p (n.react actions p w)

variable {c} {actions : Actions κ υ} {s : Pass κ υ} {fuel : ℕ}

/-! ### Turns that meet the obligations -/

section Turns

variable {kept rest : List (Node κ)} {n : Node κ} {w w' : World υ} {p : PollFd}

/-- An entry that asks for nothing, or that has no event, is passed over. -/
theorem react_of_quiet (actions : Actions κ υ)
    (herror : p.revents &&& (POLLERR ||| POLLNVAL) = 0) (hready : ¬ p.Ready)
    (hdefunct : ¬ p.Defunct) :
    n.react actions p w = ⟨⟨n, w, w, some p, []⟩, [], false⟩ := by
  rw [Node.react, if_neg (not_not_intro herror), if_neg hdefunct, if_neg hready]

/-- A callback that is counted is not taken for a busy wait. -/
theorem react_of_ready (herror : p.revents &&& (POLLERR ||| POLLNVAL) = 0) (hready : p.Ready)
    (hcall : actions.call n.rule.callback w = ⟨.ok (), w', []⟩)
    (hcount : n.rule.serviceCount w ≠ n.rule.serviceCount w') :
    n.react actions p w = ⟨⟨n, w, w', some p, [.callback]⟩, [], false⟩ := by
  rw [Node.react, if_neg (not_not_intro herror), if_neg (fun h ↦ h.2.2 hready), if_pos hready,
    hcall]
  exact if_neg fun h ↦ hcount h.2

theorem react_of_defunct (herror : p.revents &&& (POLLERR ||| POLLNVAL) = 0) (hdefunct : p.Defunct)
    (hcall : actions.call n.rule.cancel w = ⟨.ok (), w', []⟩) :
    n.react actions p w = ⟨⟨n, w, w', some p, [.cancel]⟩, [], false⟩ := by
  rw [Node.react, if_neg (not_not_intro herror), if_pos hdefunct, Node.drop, hcall]
  rfl

theorem not_ready_of_events (h : p.events = 0) : ¬ p.Ready ∧ ¬ p.Defunct :=
  ⟨fun hready ↦ hready.ne_zero.1 h, fun hdefunct ↦ hdefunct.1 h⟩

/-- A reaction that keeps the rule keeps the list. -/
theorem left_append {e : Reaction κ υ} (hnode : e.visit.node = n)
    (hcancelled : e.visit.cancelled = false) : e.left kept ++ rest = kept ++ n :: rest := by
  rw [Reaction.left, hcancelled, if_neg (by simp), hnode, List.append_assoc, List.singleton_append]

theorem Keeps.of_stay {e : Reaction κ υ} (hthrows : e.throws = false) (hadded : e.added = [])
    (hnode : e.visit.node = n) (hcancelled : e.visit.cancelled = false)
    (hinv : c.Inv (kept ++ n :: rest) e.visit.after)
    (hle : c.done (kept ++ n :: rest) w ≤ c.done (kept ++ n :: rest) e.visit.after) :
    c.Keeps kept rest n w e := by
  have hleft : e.left kept ++ rest = kept ++ n :: rest := left_append hnode hcancelled
  exact ⟨hthrows, hadded, by rw [hleft]; exact hinv, by rw [hleft]; exact hle⟩

theorem Reacts.of_quiet (hinv : c.Inv (kept ++ n :: rest) w) (hready : ¬ p.Ready)
    (hdefunct : ¬ p.Defunct) : c.Reacts kept rest n w p ⟨⟨n, w, w, some p, []⟩, [], false⟩ :=
  ⟨Keeps.of_stay rfl rfl rfl rfl hinv le_rfl,
    fun hevent ↦ absurd hevent (not_or.2 ⟨hready, hdefunct⟩), fun _ _ _ hq ↦ hq⟩

/-- A callback that keeps the rule and does something. -/
theorem Reacts.of_callback (hinv : c.Inv (kept ++ n :: rest) w')
    (hlt : c.done (kept ++ n :: rest) w < c.done (kept ++ n :: rest) w')
    (hothers : ∀ m ∈ rest, ∀ q, c.Pending w m q → c.Pending w' m q) :
    c.Reacts kept rest n w p ⟨⟨n, w, w', some p, [.callback]⟩, [], false⟩ := by
  refine ⟨Keeps.of_stay rfl rfl rfl rfl hinv hlt.le, fun _ ↦ ?_, hothers⟩
  rw [left_append (n := n) rfl rfl]
  exact hlt

end Turns

/-! ### The set-up loop -/

/-- The state of the set-up loop: each rule before the iterator has an entry. -/
structure Asking (c : Client κ υ) (s : Pass κ υ) : Prop where
  inv : c.Inv (s.kept ++ s.todo) s.world
  asked : List.Forall₂ (fun n p ↦ c.Asked s.world n p.events) s.kept s.pollfds
  idle : s.somethingToPoll = false → ∀ p ∈ s.pollfds, p.events = 0

/-- An entry of a rule that is not interested asks for nothing. -/
theorem events_of_not_interested {n : Node κ} {w : World υ}
    (hthrows : (n.takeUp actions w).throws = false)
    (hnot : (n.takeUp actions w).visit.interested = false) {p : PollFd}
    (hp : (n.takeUp actions w).visit.pollfd = some p) : p.events = 0 := by
  by_cases hdead : n.Dead w
  · rw [Node.takeUp_of_dead hdead] at hp
    exact absurd hp (by simp [Node.drop])
  · obtain ⟨interested, hresult⟩ := Node.exists_answer hdead hthrows
    rw [Node.takeUp_of_ok hdead hresult] at hp hnot
    obtain rfl : interested = false := by simpa [Visit.interested] using hnot
    rw [← Option.some.inj hp]
    rfl

/-- One turn of the set-up loop. -/
theorem Sound.asking_turn (hc : c.Sound actions) {n : Node κ} {rest : List (Node κ)}
    (htodo : s.todo = n :: rest) (h : Asking c s) :
    ∃ t, s.setUpTurn actions = .next t ∧ t.todo = rest ∧ t.kept.length ≤ s.kept.length + 1 ∧
      Asking c t ∧ c.done (s.kept ++ s.todo) s.world ≤ c.done (t.kept ++ t.todo) t.world := by
  have hinv := h.inv
  rw [htodo] at hinv ⊢
  obtain ⟨hkeeps, hself, hothers⟩ := hc.takeUp hinv
  have hnext := ((Pass.carries_setUpTurn actions htodo).resolve_right
    fun h ↦ absurd (hkeeps.throws_eq.symm.trans h.1) (by simp)).2
  have hnode := (Node.takeUp_visit actions n s.world).1
  have hpushed := (Node.takeUp_pushed hkeeps.throws_eq).1
  have hevents : (n.takeUp actions s.world).visit.interested = false →
      ∀ p, (n.takeUp actions s.world).visit.pollfd = some p → p.events = 0 :=
    fun hnot p hp ↦ events_of_not_interested hkeeps.throws_eq hnot hp
  have hadded := hkeeps.added_eq
  have hinv' := hkeeps.inv
  have hle := hkeeps.le
  -- from here on it only matters that the turn meets its obligations
  generalize n.takeUp actions s.world = e at *
  have htodo' : ((s.pushing e.visit).follow rest e).todo = rest := by
    rw [Pass.follow, hadded]
    rfl
  refine ⟨_, hnext, htodo', ?_, ⟨?_, ?_, ?_⟩, ?_⟩
  · show (e.left s.kept).length ≤ _
    rw [Reaction.left]
    split
    · exact Nat.le_succ _
    · rw [List.length_append, List.length_singleton]
  · rw [htodo']
    exact hinv'
  · have hold : List.Forall₂ (fun m p ↦ c.Asked e.visit.after m p.events) s.kept s.pollfds :=
      List.forall₂_iff_get.2 ⟨h.asked.length_eq, fun i hi hi' ↦
        hothers _ (List.get_mem _ _) _ (h.asked.get hi hi')⟩
    show List.Forall₂ _ (if e.visit.cancelled then s.kept else s.kept ++ [e.visit.node])
      (s.pollfds ++ e.visit.pollfd.toList)
    -- a rule is cancelled if and only if no entry is pushed for it
    rcases hp : e.visit.pollfd with - | p
    · have hcancelled : e.visit.cancelled = true := by rw [hpushed, Visit.pushed, hp]; rfl
      rw [if_pos hcancelled, Option.toList_none, List.append_nil]
      exact hold
    · have hcancelled : e.visit.cancelled = false := by rw [hpushed, Visit.pushed, hp]; rfl
      rw [hcancelled, if_neg (by simp), hnode]
      exact List.rel_append hold (.cons (hself p hp) .nil)
  · intro hidle p hp
    have hidle' : (s.somethingToPoll || e.visit.interested) = false := hidle
    rw [Bool.or_eq_false_iff] at hidle'
    have hp' : p ∈ s.pollfds ++ e.visit.pollfd.toList := hp
    rcases List.mem_append.1 hp' with hp' | hp'
    · exact h.idle hidle'.1 p hp'
    · exact hevents hidle'.2 p (Option.mem_toList.1 hp')
  · rw [htodo']
    exact hle

/-- **The set-up loop** goes through all rules, and leaves an entry for each that it keeps. -/
theorem Sound.setUp (hc : c.Sound actions) (h : Asking c s) (hfuel : s.todo.length < fuel) :
    ∃ t, loop (Pass.setUpTurn actions) fuel s = some (pure (), t) ∧ t.todo = [] ∧
      t.kept.length ≤ s.kept.length + s.todo.length ∧ Asking c t ∧
      c.done (s.kept ++ s.todo) s.world ≤ c.done t.kept t.world := by
  induction fuel generalizing s with
  | zero => exact absurd hfuel (by omega)
  | succ fuel ih =>
    rcases htodo : s.todo with - | ⟨n, rest⟩
    · refine ⟨s, loop_succ_of_done (Pass.setUpTurn_of_nil _ htodo), htodo, Nat.le_add_right _ _, h,
        ?_⟩
      rw [List.append_nil]
    · obtain ⟨t, hnext, ht, hlength, hasking, hle⟩ := hc.asking_turn htodo h
      have hcons : s.todo.length = t.todo.length + 1 := by rw [htodo, ht, List.length_cons]
      obtain ⟨u, hloop, hu, hlength', hasking', hle'⟩ := ih hasking (by omega)
      rw [← htodo]
      exact ⟨u, (loop_succ_of_next hnext).trans hloop, hu, by omega, hasking', hle.trans hle'⟩

/-! ### The result loop -/

/-- Closures are called only for an event that was asked for, or for a mere hangup. -/
theorem react_calls {n : Node κ} {p : PollFd} {w : World υ}
    (hcalls : (n.react actions p w).visit.calls ≠ []) : p.Ready ∨ p.Defunct := by
  by_contra hnone
  rw [not_or] at hnone
  rw [Node.react] at hcalls
  split at hcalls
  · exact hcalls rfl
  · rw [if_neg hnone.2, if_neg hnone.1] at hcalls
    exact hcalls rfl

/-- **The result loop**: every rule gets its turn, and if a closure is called then something is
done. -/
theorem Sound.results (hc : c.Sound actions) {polled : List (Node κ × PollFd)}
    (htodo : s.todo = polled.map Prod.fst) (hentries : s.pollfds.drop s.idx = polled.map Prod.snd)
    (hfuel : polled.length < fuel) (hinv : c.Inv (s.kept ++ s.todo) s.world)
    (hpending : ∀ np ∈ polled, c.Pending s.world np.1 np.2) :
    ∃ t vs, loop (Pass.indexedTurn actions) fuel s = some (pure (), t) ∧ t.todo = [] ∧
      c.Inv t.kept t.world ∧ c.done (s.kept ++ s.todo) s.world ≤ c.done t.kept t.world ∧
      t.visits = s.visits ++ vs ∧
      (∀ v ∈ vs, v.calls ≠ [] → ∃ np ∈ polled, np.2.Ready ∨ np.2.Defunct) ∧
      ((∃ np ∈ polled, np.2.Ready ∨ np.2.Defunct) →
        c.done (s.kept ++ s.todo) s.world < c.done t.kept t.world) := by
  induction polled generalizing s fuel with
  | nil =>
    obtain ⟨fuel, rfl⟩ : ∃ k, fuel = k + 1 := ⟨fuel - 1, by omega⟩
    have hnil : s.todo = [] := htodo
    rw [hnil, List.append_nil] at hinv ⊢
    exact ⟨s, [], loop_succ_of_done (Pass.indexedTurn_of_nil _ htodo), hnil, hinv, le_rfl,
      (List.append_nil _).symm, fun _ hv ↦ absurd hv List.not_mem_nil,
      fun hsome ↦ absurd hsome (by simp)⟩
  | cons np polled ih =>
    obtain ⟨n, p⟩ := np
    obtain ⟨fuel, rfl⟩ : ∃ k, fuel = k + 1 := ⟨fuel - 1, by omega⟩
    have hp : s.pollfds[s.idx]? = some p := by
      have hhead := congrArg (·[0]?) hentries
      simpa using hhead
    have hentries' : s.pollfds.drop (s.idx + 1) = polled.map Prod.snd := by
      rw [← List.drop_drop, hentries]
      rfl
    rw [htodo, List.map_cons] at hinv ⊢
    obtain ⟨hkeeps, hlt, hothers⟩ := hc.react hinv (hpending _ List.mem_cons_self)
    have hnext := ((Pass.carries_indexedTurn actions htodo hp).resolve_right
      fun h ↦ absurd (hkeeps.throws_eq.symm.trans h.1) (by simp)).2
    have hnode := (n.react_visit actions p s.world).1
    have hcalls : (n.react actions p s.world).visit.calls ≠ [] → p.Ready ∨ p.Defunct := react_calls
    have hadded := hkeeps.added_eq
    have hinv' := hkeeps.inv
    have hle := hkeeps.le
    generalize n.react actions p s.world = e at *
    -- the callback has added nothing, so the iterator goes on to the rule of the next entry
    have htodo' : (s.follow (polled.map Prod.fst) e).todo = polled.map Prod.fst := by
      rw [Pass.follow, hadded]
      rfl
    have hkept' : (s.follow (polled.map Prod.fst) e).kept = e.left s.kept := rfl
    have hworld' : (s.follow (polled.map Prod.fst) e).world = e.visit.after := rfl
    obtain ⟨t, vs, hloop, hnil, ht, hle', hvisits, hcalls', hlt'⟩ := ih
      (s := { s.follow (polled.map Prod.fst) e with idx := s.idx + 1 }) htodo' hentries'
      (Nat.lt_of_succ_lt_succ hfuel) (by rw [htodo']; exact hinv') fun np hnp ↦
        hothers np.1 (List.mem_map_of_mem hnp) _ (hpending np (List.mem_cons_of_mem _ hnp))
    dsimp only at hle' hlt'
    rw [htodo', hkept', hworld'] at hle' hlt'
    refine ⟨t, e.visit :: vs, (loop_succ_of_next hnext).trans hloop, hnil, ht, hle.trans hle', ?_,
      ?_, ?_⟩
    · rw [hvisits]
      exact List.append_assoc s.visits [e.visit] vs
    · intro v hv hne
      rcases List.mem_cons.1 hv with rfl | hv
      · exact ⟨_, List.mem_cons_self, hcalls hne⟩
      · obtain ⟨np, hnp, hevent⟩ := hcalls' v hv hne
        exact ⟨np, List.mem_cons_of_mem _ hnp, hevent⟩
    · rintro ⟨np, hnp, hevent⟩
      rcases List.mem_cons.1 hnp with rfl | hnp
      · exact (hlt hevent).trans_le hle'
      · exact hle.trans_lt (hlt' ⟨np, hnp, hevent⟩)

/-! ### The whole call -/

/-- The answer of `poll` to the entries that the set-up loop has made: it does not fail, and it
tells the truth about each. -/
def Honest (c : Client κ υ) (actions : Actions κ υ) (l : EventLoop κ) (w : World υ) :
    PollAnswer → Prop
  | .failed _ => False
  | .ready _ revents =>
    match loop (Pass.setUpTurn actions) (l.rules.length + 1) (EventLoop.start l w) with
    | none => True
    | some (_, s) => ∀ i, ∀ h : i < s.kept.length, c.Told s.world (s.kept.get ⟨i, h⟩) (revents i)

instance (c : Client κ υ) [∀ w n revents, Decidable (c.Told w n revents)] (actions : Actions κ υ)
    (l : EventLoop κ) (w : World υ) (answer : PollAnswer) :
    Decidable (c.Honest actions l w answer) :=
  match answer with
  | .failed _ => isFalse id
  | .ready _ revents =>
    match h : loop (Pass.setUpTurn actions) (l.rules.length + 1) (EventLoop.start l w) with
    | none => isTrue (by rw [Honest, h]; trivial)
    | some (r, s) => decidable_of_iff
        (∀ i, ∀ h : i < s.kept.length, c.Told s.world (s.kept.get ⟨i, h⟩) (revents i))
        (by rw [Honest, h])

/-- A positive count means that there is an event that was asked for, or a mere hangup. -/
def Eventful (actions : Actions κ υ) (l : EventLoop κ) (w : World υ) (answer : PollAnswer) : Prop :=
  0 < answer.returnValue → ∃ s, loop (Pass.setUpTurn actions) (l.rules.length + 1)
    (EventLoop.start l w) = some (pure (), s) ∧ ∃ p ∈ answer.fill s.pollfds, p.Ready ∨ p.Defunct

/-- What a call of `wait_next_event` comes to. -/
structure Waited (c : Client κ υ) (actions : Actions κ υ) (l : EventLoop κ) (w : World υ)
    (answer : PollAnswer) (o : EventLoop.Outcome κ υ) (r : EventLoop.Result) : Prop where
  result_eq : o.result = .ok r
  inv : c.Inv o.loop.rules o.world
  le : c.done l.rules w ≤ c.done o.loop.rules o.world
  /-- A call that calls a closure for what `poll` says gets something done. -/
  lt : (∃ v ∈ o.results, v.calls ≠ []) → c.done l.rules w < c.done o.loop.rules o.world
  success : r = .success → Eventful actions l w answer →
    c.done l.rules w < c.done o.loop.rules o.world
  /-- At the end there is nothing that a rule could ask for. -/
  exit : r = .exit → ∀ n ∈ o.loop.rules, c.Asked o.world n 0

/-- The rules with their entries after `poll`. -/
theorem map_zip_fill (answer : PollAnswer) (h : s.kept.length = s.pollfds.length) :
    (s.kept.zip (answer.fill s.pollfds)).map Prod.fst = s.kept ∧
      (s.kept.zip (answer.fill s.pollfds)).map Prod.snd = answer.fill s.pollfds := by
  have hlength : s.kept.length = (answer.fill s.pollfds).length := by
    rw [h, PollAnswer.fill, List.length_mapIdx]
  exact ⟨List.map_fst_zip hlength.le, List.map_snd_zip hlength.ge⟩

/-- What the rules have asked for and what `poll` says, when the result loop begins. -/
theorem Asking.pending (h : Asking c s) {count : ℕ} {revents : ℕ → Short}
    (htold : ∀ i, ∀ h : i < s.kept.length, c.Told s.world (s.kept.get ⟨i, h⟩) (revents i)) :
    ∀ np ∈ s.kept.zip (PollAnswer.fill (.ready count revents) s.pollfds),
      c.Pending s.world np.1 np.2 := by
  intro np hnp
  obtain ⟨i, hi, rfl⟩ := List.mem_iff_getElem.1 hnp
  rw [List.length_zip, PollAnswer.fill, List.length_mapIdx] at hi
  have hkept : i < s.kept.length := by omega
  have hentry : i < s.pollfds.length := by omega
  rw [List.getElem_zip]
  simp only [PollAnswer.fill, List.getElem_mapIdx]
  exact ⟨fun _ ↦ h.asked.get hkept hentry, htold i hkept⟩

/-- A call that returns after the set-up loop. -/
theorem Asking.leave {l : EventLoop κ} {w : World υ} {answer : PollAnswer} (h : Asking c s)
    (htodo : s.todo = []) (hle : c.done l.rules w ≤ c.done s.kept s.world) {r : EventLoop.Result}
    (hr : r ≠ .success) (hexit : r = .exit → s.somethingToPoll = false) (vs : List (Visit κ υ)) :
    c.Waited actions l w answer (EventLoop.leave (pure r) s vs []) r := by
  have hrules : s.kept ++ s.todo = s.kept := by rw [htodo, List.append_nil]
  refine ⟨rfl, h.inv, ?_, fun ⟨v, hv, _⟩ ↦ absurd hv List.not_mem_nil,
    fun hsuccess ↦ absurd hsuccess hr, fun hr n hn ↦ ?_⟩
  · show _ ≤ c.done (s.kept ++ s.todo) s.world
    rwa [hrules]
  · have hn' : n ∈ s.kept ++ s.todo := hn
    rw [hrules] at hn'
    obtain ⟨i, hi, rfl⟩ := List.mem_iff_getElem.1 hn'
    have hi' : i < s.pollfds.length := h.asked.length_eq ▸ hi
    have hasked := h.asked.get hi hi'
    rw [h.idle (hexit hr) _ (List.get_mem _ _)] at hasked
    exact hasked

/-- **One call** of `wait_next_event`. -/
theorem Sound.waitNextEvent (hc : c.Sound actions) {l : EventLoop κ} {w : World υ}
    (hinv : c.Inv l.rules w) {answer : PollAnswer} (hanswer : c.Honest actions l w answer) :
    ∃ o r, l.waitNextEvent actions (l.rules.length + 1) w answer = some o ∧
      c.Waited actions l w answer o r := by
  have hstart : Asking c (EventLoop.start l w) :=
    ⟨hinv, .nil, fun _ _ hp ↦ absurd hp List.not_mem_nil⟩
  have hfuel : (EventLoop.start l w).todo.length < l.rules.length + 1 := Nat.lt_succ_self _
  obtain ⟨s, hsetUp, htodo, hlength, hs, hle⟩ := hc.setUp hstart hfuel
  have hle' : c.done l.rules w ≤ c.done s.kept s.world := hle
  -- nobody is interested: `Exit`, before `poll` is called
  rcases hpoll : s.somethingToPoll with - | -
  · exact ⟨_, .exit, EventLoop.waitNextEvent_of_idle hsetUp hpoll,
      hs.leave htodo hle' (by simp) (fun _ ↦ hpoll) _⟩
  rcases answer with ⟨count, revents⟩ | errno
  swap
  · exact absurd hanswer id
  rcases Nat.eq_zero_or_pos count with rfl | hpos
  · exact ⟨_, .timeout, EventLoop.waitNextEvent_of_poll hsetUp hpoll rfl,
      hs.leave htodo hle' (by simp) (fun hexit ↦ absurd hexit (by simp)) _⟩
  have hresult : EventLoop.pollResult (.ready count revents) = none := by
    have hcall : systemCall "poll" (PollAnswer.ready count revents).returnValue
        (PollAnswer.ready count revents).errno = .ok (count : ℤ) :=
      systemCall_of_nonneg _ _ (by show (0 : ℤ) ≤ count; omega)
    rw [EventLoop.pollResult, hcall]
    exact if_neg (by omega)
  have htold : ∀ i, ∀ h : i < s.kept.length, c.Told s.world (s.kept.get ⟨i, h⟩) (revents i) := by
    rwa [Honest, hsetUp] at hanswer
  obtain ⟨hfst, hsnd⟩ := map_zip_fill (.ready count revents) hs.asked.length_eq
  have hrules : s.kept ++ s.todo = s.kept := by rw [htodo, List.append_nil]
  have hlength' : (s.kept.zip (PollAnswer.fill (.ready count revents) s.pollfds)).length <
      l.rules.length + 1 := by
    have hle : s.kept.length ≤ 0 + l.rules.length := hlength
    rw [List.length_zip]
    omega
  have hinv' : c.Inv ([] ++ (s.kept ++ s.todo)) s.world := hs.inv
  obtain ⟨t, vs, hloop, hnil, ht, hmore, hvisits, hcalls, hlt⟩ := hc.results
    (s := { s.rewind with
      pollfds := PollAnswer.fill (.ready count revents) s.pollfds, visits := [] })
    (hrules.trans hfst.symm) hsnd.symm hlength' hinv' (hs.pending htold)
  have hsame : (s.rewind.kept ++ s.rewind.todo) = s.kept := hrules
  dsimp only at hmore hlt hvisits
  rw [hsame] at hmore hlt
  have hrules' : t.kept ++ t.todo = t.kept := by rw [hnil, List.append_nil]
  refine ⟨_, .success, EventLoop.waitNextEvent_of_results hsetUp hpoll hresult hloop, rfl, ?_, ?_,
    ?_, fun _ hevent ↦ ?_, fun hexit ↦ absurd hexit (by simp)⟩
  · show c.Inv (t.kept ++ t.todo) t.world
    rwa [hrules']
  · show _ ≤ c.done (t.kept ++ t.todo) t.world
    rw [hrules']
    exact hle'.trans hmore
  · rintro ⟨v, hv, hne⟩
    show _ < c.done (t.kept ++ t.todo) t.world
    rw [hrules']
    have hv' : v ∈ vs := by
      rw [List.nil_append] at hvisits
      exact hvisits ▸ hv
    exact hle'.trans_lt (hlt (hcalls v hv' hne))
  · obtain ⟨s', hs', p, hp, hevent⟩ := hevent (by show (0 : ℤ) < count; omega)
    obtain rfl : s = s' := (Prod.mk.inj (Option.some.inj (hsetUp.symm.trans hs'))).2
    rw [← hsnd] at hp
    obtain ⟨np, hnp, rfl⟩ := List.mem_map.1 hp
    show _ < c.done (t.kept ++ t.todo) t.world
    rw [hrules']
    exact hle'.trans_lt (hlt ⟨np, hnp, hevent⟩)

end Client
