import Sponge.EventLoop.Replay

/-!
# One pass of the event loop

What one call of `wait_next_event` does to each rule, when the closures neither throw nor add rules.
The index into the `pollfd`s is advanced separately from the iterator, and both loops erase while
they walk; that each rule is nevertheless judged by its own entry is an invariant of two lists,
`SettingUp` for the loop that pushes the entries and `Judging` for the loop that reads them. Both
loops are driven by one inversion lemma each, `setUpTurn_cases` and `indexedTurn_cases`, which say
everything that a turn can do.
-/

open Cpp

variable {κ υ : Type}

/-! ### What is promised of a turn -/

namespace Visit

/-- A turn of the set-up loop: a rule whose descriptor is dead when it is visited is cancelled, and
only that; any other rule is asked for its interest once, and an entry with its own descriptor
number is pushed, which asks for its direction or for nothing. -/
def SetUp (v : Visit κ υ) : Prop :=
  (v.node.Dead v.before → v.calls = [.cancel] ∧ v.pollfd = none) ∧
  (¬ v.node.Dead v.before → ∃ interested, v.calls = [.interest (.ok interested)] ∧
    v.pollfd = some (v.node.rule.entry v.after interested))

/-- A turn of the result loop that goes on, with the entry `p`: the callback is called once if there
is an event that was asked for, and if then the interest is asked for, it has gone; the rule is
cancelled, and only that, if there is none but a hangup; otherwise nothing happens. -/
def Judged (v : Visit κ υ) (p : PollFd) : Prop :=
  p.revents &&& (POLLERR ||| POLLNVAL) = 0 ∧
  (p.Ready → v.calls = [.callback] ∨ v.calls = [.callback, .interest (.ok false)]) ∧
  (p.Defunct → v.calls = [.cancel]) ∧
  (¬ p.Ready → ¬ p.Defunct → v.calls = [] ∧ v.after = v.before)

end Visit

namespace Pass

/-! ### Turns -/

variable {actions : Actions κ υ} {s t : Pass κ υ} {n : Node κ} {rest : List (Node κ)}

/-- The turn `v` at the node `n` has taken the walk from `s` to `t`: the node is erased if it was
cancelled, and otherwise left behind. -/
structure Moved (s : Pass κ υ) (n : Node κ) (rest : List (Node κ)) (v : Visit κ υ) (t : Pass κ υ) :
    Prop where
  node_eq : v.node = n
  visits_eq : t.visits = s.visits ++ [v]
  todo_eq : t.todo = rest
  kept_eq : t.kept = if v.cancelled then s.kept else s.kept ++ [n]
  nextId_eq : t.nextId = s.nextId
  calls_eq : v.cancelled = true → v.calls = [.cancel]

/-- The turn `v` at the node `n` has ended the walk, with the list as it was. -/
structure Stopped (s : Pass κ υ) (n : Node κ) (v : Visit κ υ) (t : Pass κ υ) : Prop where
  node_eq : v.node = n
  visits_eq : t.visits = s.visits ++ [v]
  not_cancelled : v.cancelled = false
  todo_eq : t.todo = s.todo
  kept_eq : t.kept = s.kept
  nextId_eq : t.nextId = s.nextId

/-- A loop goes on only where there is a rule. -/
theorem todo_of_setUpTurn_next (hturn : s.setUpTurn actions = .next t) :
    ∃ n rest, s.todo = n :: rest := by
  rcases hs : s.todo with - | ⟨n, rest⟩
  · rw [setUpTurn_of_nil actions hs] at hturn
    exact absurd hturn (by simp)
  · exact ⟨n, rest, rfl⟩

theorem todo_of_indexedTurn_next (hturn : s.indexedTurn actions = .next t) :
    ∃ n rest, s.todo = n :: rest := by
  rcases hs : s.todo with - | ⟨n, rest⟩
  · rw [indexedTurn_of_nil actions hs] at hturn
    exact absurd hturn (by simp)
  · exact ⟨n, rest, rfl⟩

/-- The walk goes on; `t` is `s` with what the turn has pushed. -/
theorem moved_follow {e : Reaction κ υ} (hnode : e.visit.node = n) (hadded : e.added = [])
    (hcalls : e.visit.cancelled = true → e.visit.calls = [.cancel]) (hvisits : t.visits = s.visits)
    (hkept : t.kept = s.kept) (hnextId : t.nextId = s.nextId) :
    s.Moved n rest e.visit (t.follow rest e) where
  node_eq := hnode
  visits_eq := by rw [follow, hvisits]
  todo_eq := by rw [follow, hadded]; rfl
  kept_eq := by rw [follow, hnode, hkept]
  nextId_eq := by rw [follow, hadded, ← hnextId]; rfl
  calls_eq := hcalls

theorem stopped_halt {e : Reaction κ υ} (hnode : e.visit.node = n) (hadded : e.added = [])
    (hcancelled : e.visit.cancelled = false) : s.Stopped n e.visit (s.halt e) where
  node_eq := hnode
  visits_eq := rfl
  not_cancelled := hcancelled
  todo_eq := by rw [halt, hadded]; rfl
  kept_eq := rfl
  nextId_eq := by rw [halt, hadded]; rfl

end Pass

namespace Node

variable {actions : Actions κ υ}

theorem drop_plain (hplain : actions.Plain) (n : Node κ) (pollfd : Option PollFd) (w : World υ) :
    (n.drop actions pollfd w).added = [] ∧ (n.drop actions pollfd w).throws = false := by
  rw [drop, hplain.call_ok]
  exact ⟨hplain.call_added _ _, rfl⟩

/-- **The reaction of the set-up loop.** -/
theorem takeUp_plain (hplain : actions.Plain) (n : Node κ) (w : World υ) :
    (n.takeUp actions w).added = [] ∧ (n.takeUp actions w).throws = false ∧
      (n.takeUp actions w).visit.SetUp ∧
      ((n.takeUp actions w).visit.cancelled = true →
        (n.takeUp actions w).visit.calls = [.cancel]) := by
  by_cases hdead : n.Dead w
  · obtain ⟨hadded, hthrows⟩ := n.drop_plain hplain none w
    rw [takeUp_of_dead hdead]
    exact ⟨hadded, hthrows, ⟨fun _ ↦ ⟨rfl, rfl⟩, fun halive ↦ absurd hdead halive⟩, fun _ ↦ rfl⟩
  · obtain ⟨interested, hanswer⟩ := hplain.ask_ok n.rule.interest w
    rw [takeUp_of_ok hdead hanswer]
    exact ⟨hplain.ask_added _ _, rfl,
      ⟨fun h ↦ absurd h hdead, fun _ ↦ ⟨interested, rfl, rfl⟩⟩,
      fun h ↦ absurd h (by simp [Visit.cancelled])⟩

/-- **The reaction of the result loop.** -/
theorem react_plain (hplain : actions.Plain) (n : Node κ) (p : PollFd) (w : World υ) :
    (n.react actions p w).added = [] ∧
      ((n.react actions p w).visit.cancelled = true →
        (n.react actions p w).visit.calls = [.cancel] ∧ (n.react actions p w).throws = false) ∧
      ((n.react actions p w).throws = false → (n.react actions p w).visit.Judged p) := by
  by_cases herror : p.revents &&& (POLLERR ||| POLLNVAL) ≠ 0
  · rw [react, if_pos herror]
    exact ⟨rfl, fun h ↦ absurd h (by simp [Visit.cancelled]), fun h ↦ absurd h (by simp)⟩
  have hclean : p.revents &&& (POLLERR ||| POLLNVAL) = 0 := not_not.1 herror
  by_cases hdefunct : p.Defunct
  · obtain ⟨hadded, hthrows⟩ := n.drop_plain hplain (some p) w
    rw [react, if_neg herror, if_pos hdefunct]
    exact ⟨hadded, fun _ ↦ ⟨rfl, hthrows⟩, fun _ ↦ ⟨hclean,
      fun hready ↦ absurd hready hdefunct.2.2, fun _ ↦ rfl, fun _ hnot ↦ absurd hdefunct hnot⟩⟩
  by_cases hready : p.Ready
  · have hjudged : ∀ v : Visit κ υ,
        (v.calls = [.callback] ∨ v.calls = [.callback, .interest (.ok false)]) → v.Judged p :=
      fun v hcalls ↦ ⟨hclean, fun _ ↦ hcalls, fun h ↦ absurd h hdefunct, fun h ↦ absurd hready h⟩
    rw [react, if_neg herror, if_neg hdefunct, if_pos hready]
    dsimp only
    split
    · refine ⟨?_, fun h ↦ absurd h (by simp [Visit.cancelled]), fun hthrows ↦ ?_⟩
      · rw [hplain.call_added, hplain.ask_added, List.append_nil]
      · have hanswer := not_not.1 (of_decide_eq_false hthrows)
        exact hjudged _ (Or.inr (by rw [hanswer]))
    · exact ⟨hplain.call_added _ _, fun h ↦ absurd h (by simp [Visit.cancelled]), fun _ ↦
        hjudged _ (Or.inl rfl)⟩
  · rw [react, if_neg herror, if_neg hdefunct, if_neg hready]
    exact ⟨rfl, fun h ↦ absurd h (by simp [Visit.cancelled]), fun _ ↦
      ⟨hclean, fun h ↦ absurd h hready, fun h ↦ absurd h hdefunct, fun _ _ ↦ ⟨rfl, rfl⟩⟩⟩

end Node

namespace Pass

variable {actions : Actions κ υ} {s t : Pass κ υ} {n : Node κ} {rest : List (Node κ)}

/-- **Everything a turn of the set-up loop does.** -/
theorem setUpTurn_cases (hplain : actions.Plain) (hs : s.todo = n :: rest) :
    ∃ t v, s.setUpTurn actions = .next t ∧ s.Moved n rest v t ∧ v.SetUp ∧
      t.pollfds = s.pollfds ++ v.pollfd.toList ∧ v.cancelled = !v.pushed := by
  obtain ⟨hadded, hthrows, hv, hcalls⟩ := n.takeUp_plain hplain s.world
  rcases carries_setUpTurn actions hs with ⟨-, hturn⟩ | ⟨hyes, -⟩
  · have hnode := (n.takeUp_visit actions s.world).1
    exact ⟨_, _, hturn, moved_follow hnode hadded hcalls rfl rfl rfl, hv, rfl,
      (Node.takeUp_pushed hthrows).1⟩
  · exact absurd (hthrows.symm.trans hyes) (by simp)

/-- **Everything a turn of the result loop does**, if the subscript is in range. -/
theorem indexedTurn_cases (hplain : actions.Plain) (hs : s.todo = n :: rest) {p : PollFd}
    (hp : s.pollfds[s.idx]? = some p) :
    (∃ t v e, s.indexedTurn actions = .done (.error (.throws e), t) ∧ s.Stopped n v t) ∨
    ∃ t v, s.indexedTurn actions = .next t ∧ s.Moved n rest v t ∧ v.pollfd = some p ∧
      v.Judged p ∧ t.pollfds = s.pollfds ∧ t.idx = s.idx + 1 := by
  obtain ⟨hnode, -, hpollfd⟩ := n.react_visit actions p s.world
  obtain ⟨hadded, hcancelled, hjudged⟩ := n.react_plain hplain p s.world
  rcases carries_indexedTurn actions hs hp with ⟨hthrows, hturn⟩ | ⟨hthrows, x, hturn⟩
  · have hmoved : s.Moved n rest _ (s.follow rest (n.react actions p s.world)) :=
      moved_follow hnode hadded (fun h ↦ (hcancelled h).1) rfl rfl rfl
    exact Or.inr ⟨_, _, hturn, ⟨hmoved.node_eq, hmoved.visits_eq, hmoved.todo_eq, hmoved.kept_eq,
      hmoved.nextId_eq, hmoved.calls_eq⟩, hpollfd, hjudged hthrows, rfl, rfl⟩
  · refine Or.inl ⟨_, _, x, hturn, stopped_halt hnode hadded ?_⟩
    by_contra hyes
    have hno := (hcancelled (by simpa using hyes)).2
    exact absurd (hno.symm.trans hthrows) (by simp)

/-! ### The set-up loop -/

/-- The invariant of the set-up loop, over the list of rules at the start. -/
structure SettingUp (rules : List (Node κ)) (s : Pass κ υ) : Prop where
  nodes_eq : s.visits.map Visit.node ++ s.todo = rules
  setUp : ∀ v ∈ s.visits, v.SetUp
  kept_eq : s.kept = (s.visits.filter Visit.pushed).map Visit.node
  pollfds_eq : s.pollfds = s.visits.filterMap Visit.pollfd

variable {rules : List (Node κ)} {v : Visit κ υ}

theorem SettingUp.moved (h : s.SettingUp rules) (hs : s.todo = n :: rest)
    (hmoved : s.Moved n rest v t) (hv : v.SetUp)
    (hpollfds : t.pollfds = s.pollfds ++ v.pollfd.toList) (hcancel : v.cancelled = !v.pushed) :
    t.SettingUp rules where
  nodes_eq := by
    rw [hmoved.visits_eq, hmoved.todo_eq, List.map_append, List.append_assoc, ← h.nodes_eq, hs,
      ← hmoved.node_eq]
    rfl
  setUp := by
    intro u hu
    rw [hmoved.visits_eq] at hu
    rcases List.mem_append.1 hu with hu | hu
    · exact h.setUp u hu
    · obtain rfl := List.mem_singleton.1 hu
      exact hv
  kept_eq := by
    rw [hmoved.kept_eq, hmoved.visits_eq, List.filter_append, List.map_append, ← h.kept_eq, hcancel]
    cases hpushed : v.pushed with
    | false => rw [List.filter_singleton, hpushed]; exact (List.append_nil _).symm
    | true => rw [List.filter_singleton, hpushed, ← hmoved.node_eq]; rfl
  pollfds_eq := by
    rw [hpollfds, hmoved.visits_eq, List.filterMap_append, ← h.pollfds_eq]
    rfl

/-- A turn after which the set-up loop goes on. -/
theorem SettingUp.of_next (hplain : actions.Plain) (h : s.SettingUp rules)
    (hturn : s.setUpTurn actions = .next t) :
    t.SettingUp rules ∧ ∃ n rest v, s.todo = n :: rest ∧ s.Moved n rest v t := by
  obtain ⟨n, rest, hs⟩ := todo_of_setUpTurn_next hturn
  obtain ⟨t', v, ht, hmoved, hv, hpollfds, hcancel⟩ := setUpTurn_cases hplain hs
  obtain rfl := Turn.next.inj (ht.symm.trans hturn)
  exact ⟨h.moved hs hmoved hv hpollfds hcancel, n, rest, v, hs, hmoved⟩

/-- The set-up loop is left only at the end of the list. -/
theorem setUpTurn_done (hplain : actions.Plain) {res : Eval Exn Unit × Pass κ υ}
    (hturn : s.setUpTurn actions = .done res) : s.todo = [] ∧ res = (pure (), s) := by
  cases hs : s.todo with
  | nil =>
    rw [setUpTurn_of_nil actions hs] at hturn
    exact ⟨rfl, (Turn.done.inj hturn).symm⟩
  | cons n rest =>
    obtain ⟨t, v, ht, -⟩ := setUpTurn_cases hplain hs
    rw [ht] at hturn
    cases hturn

/-- **The set-up loop** visits every rule and ends. -/
theorem setUp_total (hplain : actions.Plain) {fuel : ℕ} (h : s.SettingUp rules)
    (hfuel : s.todo.length < fuel) :
    ∃ t, loop (setUpTurn actions) fuel s = some (pure (), t) ∧ t.SettingUp rules ∧ t.todo = [] := by
  have htotal : ∃ res, loop (setUpTurn actions) fuel s = some res ∧
      res.1 = pure () ∧ res.2.SettingUp rules ∧ res.2.todo = [] := by
    refine loop_total (SettingUp rules) _ (fun s ↦ s.todo.length) ?_ ?_ h hfuel
    · intro s t hinv hturn
      obtain ⟨hinv', n, rest, v, hs, hmoved⟩ := hinv.of_next hplain hturn
      refine ⟨hinv', ?_⟩
      rw [hs, hmoved.todo_eq]
      exact Nat.lt_succ_self _
    · intro s res hinv hturn
      obtain ⟨htodo, rfl⟩ := setUpTurn_done hplain hturn
      exact ⟨rfl, hinv, htodo⟩
  obtain ⟨⟨r, t⟩, hloop, rfl, hinv, htodo⟩ := htotal
  exact ⟨t, hloop, hinv, htodo⟩

/-! ### The result loop -/

/-- The invariant of the result loop, over the nodes and the entries at its start. -/
structure Judging (nodes : List (Node κ)) (entries : List PollFd) (s : Pass κ υ) : Prop where
  nodes_eq : s.visits.map Visit.node ++ s.todo = nodes
  /-- The index has kept up with the iterator. -/
  idx_eq : s.idx = s.visits.length
  pollfds_eq : s.pollfds = entries
  /-- The entries read so far, in order. -/
  read_eq : s.visits.map Visit.pollfd = (entries.take s.visits.length).map some
  judged : ∀ v ∈ s.visits, ∀ p, v.pollfd = some p → v.Judged p
  kept_eq : s.kept = (s.visits.filter fun v ↦ !v.cancelled).map Visit.node

variable {nodes : List (Node κ)} {entries : List PollFd}

/-- The next entry is there. -/
theorem Judging.exists_entry (h : s.Judging nodes entries) (hlen : nodes.length = entries.length)
    (hs : s.todo = n :: rest) : ∃ p, s.pollfds[s.idx]? = some p := by
  have hlt : s.idx < s.pollfds.length := by
    rw [h.idx_eq, h.pollfds_eq, ← hlen, ← h.nodes_eq, hs, List.length_append, List.length_map,
      List.length_cons]
    omega
  exact ⟨_, List.getElem?_eq_getElem hlt⟩

theorem Judging.moved (h : s.Judging nodes entries) (hs : s.todo = n :: rest)
    (hmoved : s.Moved n rest v t) {p : PollFd} (hp : s.pollfds[s.idx]? = some p)
    (hpollfd : v.pollfd = some p) (hjudged : v.Judged p) (hpollfds : t.pollfds = s.pollfds)
    (hidx : t.idx = s.idx + 1) : t.Judging nodes entries where
  nodes_eq := by
    rw [hmoved.visits_eq, hmoved.todo_eq, List.map_append, List.append_assoc, ← h.nodes_eq, hs,
      ← hmoved.node_eq]
    rfl
  idx_eq := by rw [hidx, h.idx_eq, hmoved.visits_eq, List.length_append, List.length_singleton]
  pollfds_eq := hpollfds.trans h.pollfds_eq
  read_eq := by
    have hentry : entries[s.visits.length]? = some p := by rw [← h.pollfds_eq, ← h.idx_eq, hp]
    rw [hmoved.visits_eq, List.map_append, h.read_eq, List.length_append, List.length_singleton,
      List.take_add_one, hentry, List.map_append, List.map_singleton, hpollfd]
    rfl
  judged := by
    intro u hu q hq
    rw [hmoved.visits_eq] at hu
    rcases List.mem_append.1 hu with hu | hu
    · exact h.judged u hu q hq
    · obtain rfl := List.mem_singleton.1 hu
      obtain rfl := Option.some.inj (hpollfd.symm.trans hq)
      exact hjudged
  kept_eq := by
    rw [hmoved.kept_eq, hmoved.visits_eq, List.filter_append, List.map_append, ← h.kept_eq]
    cases hcancelled : v.cancelled with
    | false => rw [List.filter_singleton, hcancelled, ← hmoved.node_eq]; rfl
    | true => rw [List.filter_singleton, hcancelled]; exact (List.append_nil _).symm

/-- A turn after which the result loop goes on. -/
theorem Judging.of_next (hplain : actions.Plain) (h : s.Judging nodes entries)
    (hlen : nodes.length = entries.length) (hturn : s.indexedTurn actions = .next t) :
    t.Judging nodes entries ∧ ∃ n rest v, s.todo = n :: rest ∧ s.Moved n rest v t := by
  obtain ⟨n, rest, hs⟩ := todo_of_indexedTurn_next hturn
  obtain ⟨p, hp⟩ := h.exists_entry hlen hs
  rcases indexedTurn_cases hplain hs hp with ⟨t', v, e, ht, -⟩ |
    ⟨t', v, ht, hmoved, hpollfd, hjudged, hpollfds, hidx⟩
  · exact absurd (ht.symm.trans hturn) (by simp)
  · obtain rfl := Turn.next.inj (ht.symm.trans hturn)
    exact ⟨h.moved hs hmoved hp hpollfd hjudged hpollfds hidx, n, rest, v, hs, hmoved⟩

/-- The result loop is left at the end of the list, or by an exception. -/
theorem Judging.of_done (hplain : actions.Plain) (h : s.Judging nodes entries)
    (hlen : nodes.length = entries.length) {res : Eval Exn Unit × Pass κ υ}
    (hturn : s.indexedTurn actions = .done res) :
    (s.todo = [] ∧ res = (pure (), s)) ∨
    ∃ n rest v e, s.todo = n :: rest ∧ res.1 = .error (.throws e) ∧ s.Stopped n v res.2 := by
  cases hs : s.todo with
  | nil =>
    rw [indexedTurn_of_nil actions hs] at hturn
    exact Or.inl ⟨rfl, (Turn.done.inj hturn).symm⟩
  | cons n rest =>
    obtain ⟨p, hp⟩ := h.exists_entry hlen hs
    rcases indexedTurn_cases hplain hs hp with ⟨t, v, e, ht, hstopped⟩ | ⟨t, v, ht, -⟩
    · obtain rfl := Turn.done.inj (ht.symm.trans hturn)
      exact Or.inr ⟨n, rest, v, e, rfl, rfl, hstopped⟩
    · rw [ht] at hturn
      cases hturn

/-- **The result loop** ends, and never subscripts out of range; if it is not left by an exception,
it has judged every rule by its own entry. -/
theorem results_total (hplain : actions.Plain) {fuel : ℕ} (h : s.Judging nodes entries)
    (hlen : nodes.length = entries.length) (hfuel : s.todo.length < fuel) :
    ∃ res, loop (indexedTurn actions) fuel s = some res ∧
      (∀ u, res.1 ≠ .error (.undefined u)) ∧
      (res.1 = pure () → res.2.Judging nodes entries ∧ res.2.todo = []) := by
  refine loop_total (Judging nodes entries) _ (fun s ↦ s.todo.length) ?_ ?_ h hfuel
  · intro s t hinv hturn
    obtain ⟨hinv', n, rest, v, hs, hmoved⟩ := hinv.of_next hplain hlen hturn
    refine ⟨hinv', ?_⟩
    rw [hs, hmoved.todo_eq]
    exact Nat.lt_succ_self _
  · intro s res hinv hturn
    rcases hinv.of_done hplain hlen hturn with ⟨htodo, rfl⟩ | ⟨n, rest, v, e, -, hthrows, -⟩
    · exact ⟨fun u hu ↦ (nomatch hu), fun _ ↦ ⟨hinv, htodo⟩⟩
    · rw [hthrows]
      exact ⟨fun u hu ↦ (nomatch hu), fun hok ↦ (nomatch hok)⟩

end Pass

/-! ### The whole call -/

namespace Visit

/-- A rule is kept exactly if its descriptor is not dead when it is visited. -/
theorem SetUp.pushed_eq {v : Visit κ υ} (h : v.SetUp) :
    v.pushed = !decide (v.node.Dead v.before) := by
  by_cases hdead : v.node.Dead v.before
  · rw [pushed, (h.1 hdead).2, decide_eq_true hdead]
    rfl
  · obtain ⟨interested, -, hpollfd⟩ := h.2 hdead
    rw [pushed, hpollfd, decide_eq_false hdead]
    rfl

/-- The entries of the turns that pushed one. -/
theorem map_pollfd_filter_pushed (vs : List (Visit κ υ)) :
    (vs.filter pushed).map pollfd = (vs.filterMap pollfd).map some := by
  induction vs with
  | nil => rfl
  | cons v vs ih =>
    cases hpollfd : v.pollfd with
    | none =>
      have hpushed : ¬ v.pushed = true := by rw [pushed, hpollfd]; decide
      rw [List.filter_cons_of_neg hpushed, List.filterMap_cons_none hpollfd, ih]
    | some p =>
      have hpushed : v.pushed = true := by rw [pushed, hpollfd]; rfl
      rw [List.filter_cons_of_pos hpushed, List.filterMap_cons_some hpollfd, List.map_cons,
        List.map_cons, ih, hpollfd]

theorem exists_entry_of_pushed {vs : List (Visit κ υ)} {i : ℕ} {v : Visit κ υ}
    (hv : (vs.filter pushed)[i]? = some v) :
    ∃ p, v.pollfd = some p ∧ (vs.filterMap pollfd)[i]? = some p := by
  have hi := congrArg (·[i]?) (map_pollfd_filter_pushed vs)
  simp only [List.getElem?_map, hv, Option.map_some] at hi
  obtain ⟨p, hp, hsome⟩ := Option.map_eq_some_iff.1 hi.symm
  exact ⟨p, hsome.symm, hp⟩

end Visit

namespace EventLoop

/-- The turns of the set-up loop at rules whose descriptor was not dead when they were visited. -/
def Outcome.live (o : Outcome κ υ) : List (Visit κ υ) :=
  o.setUp.filter fun v ↦ !decide (v.node.Dead v.before)

/-- **What one pass promises.** -/
structure Dispatched (l : EventLoop κ) (answer : PollAnswer) (o : Outcome κ υ) : Prop where
  /-- The set-up loop visits every rule in order. -/
  visited : o.setUp.map Visit.node = l.rules
  setUp : ∀ v ∈ o.setUp, v.SetUp
  /-- The result loop visits the rules that were kept, in order. -/
  nodes_eq : o.results.map Visit.node = o.live.map Visit.node
  /-- Each of them is judged by the entry pushed for it, with the `revents` at the same index. -/
  own_entry : ∀ (i : ℕ) (r : Visit κ υ), o.results[i]? = some r →
    ∃ (v : Visit κ υ) (p : PollFd), o.live[i]? = some v ∧ r.node = v.node ∧ v.pollfd = some p ∧
      r.pollfd = some { p with revents := answer.revents i }
  judged : ∀ r ∈ o.results, ∀ p, r.pollfd = some p → r.Judged p
  /-- The rules that are left are those not cancelled, in order. -/
  rules_eq : o.loop.rules = (o.results.filter fun r ↦ !r.cancelled).map Visit.node

variable {l : EventLoop κ} {answer : PollAnswer}

/-- The result loop starts with the rules that the set-up loop kept, and the entries of `poll`. -/
theorem judging_rewind {s : Pass κ υ} (h : s.SettingUp l.rules) (htodo : s.todo = [])
    (answer : PollAnswer) :
    Pass.Judging ((s.visits.filter Visit.pushed).map Visit.node) (answer.fill s.pollfds)
      { s.rewind with pollfds := answer.fill s.pollfds, visits := [] } where
  nodes_eq := by
    show s.kept ++ s.todo = _
    rw [htodo, List.append_nil, h.kept_eq]
  idx_eq := rfl
  pollfds_eq := rfl
  read_eq := rfl
  judged _ hv := absurd hv List.not_mem_nil
  kept_eq := rfl

theorem length_fill {s : Pass κ υ} (h : s.SettingUp l.rules) (answer : PollAnswer) :
    ((s.visits.filter Visit.pushed).map Visit.node).length = (answer.fill s.pollfds).length := by
  have hmap := congrArg List.length (Visit.map_pollfd_filter_pushed s.visits)
  rw [List.length_map, List.length_map] at hmap
  rw [List.length_map, hmap, PollAnswer.fill, List.length_mapIdx, h.pollfds_eq]

/-- **The index never slips**: the `i`-th turn of the result loop reads the entry that was pushed
for the `i`-th rule that was kept. -/
theorem entry_of_judging {s t : Pass κ υ} (h : s.SettingUp l.rules)
    (hj : t.Judging ((s.visits.filter Visit.pushed).map Visit.node) (answer.fill s.pollfds))
    (htodo : t.todo = []) {i : ℕ} {r : Visit κ υ} (hr : t.visits[i]? = some r) :
    ∃ v p, (s.visits.filter Visit.pushed)[i]? = some v ∧ r.node = v.node ∧ v.pollfd = some p ∧
      r.pollfd = some { p with revents := answer.revents i } := by
  have hnodes : t.visits.map Visit.node = (s.visits.filter Visit.pushed).map Visit.node := by
    rw [← hj.nodes_eq, htodo, List.append_nil]
  -- the visit at which the rule was kept
  obtain ⟨v, hv, hnode⟩ : ∃ v, (s.visits.filter Visit.pushed)[i]? = some v ∧ v.node = r.node := by
    have hi := congrArg (·[i]?) hnodes
    simp only [List.getElem?_map, hr, Option.map_some] at hi
    exact Option.map_eq_some_iff.1 hi.symm
  -- the entry it pushed
  obtain ⟨p, hpollfd, hp⟩ := Visit.exists_entry_of_pushed hv
  rw [← h.pollfds_eq] at hp
  refine ⟨v, p, hv, hnode.symm, hpollfd, ?_⟩
  -- and the entry at the same index after `poll`
  have hlength : t.visits.length = (answer.fill s.pollfds).length := by
    rw [← length_fill h answer, ← hnodes, List.length_map]
  have hi := congrArg (·[i]?) hj.read_eq
  rw [hlength, List.take_length] at hi
  simp only [List.getElem?_map, hr, Option.map_some, PollAnswer.fill, List.getElem?_mapIdx, hp]
    at hi
  exact Option.some.inj hi

/-- A result loop that was not left by an exception has kept the promise. -/
theorem dispatched_of_judging {s t : Pass κ υ} {result : Eval Exn Result} (h : s.SettingUp l.rules)
    (htodo : s.todo = [])
    (hj : t.Judging ((s.visits.filter Visit.pushed).map Visit.node) (answer.fill s.pollfds))
    (htodo' : t.todo = []) : Dispatched l answer (leave result t s.visits t.visits) := by
  have hlive : (leave result t s.visits t.visits).live = s.visits.filter Visit.pushed :=
    List.filter_congr fun v hv ↦ ((h.setUp v hv).pushed_eq).symm
  have hnodes : t.visits.map Visit.node = (s.visits.filter Visit.pushed).map Visit.node := by
    rw [← hj.nodes_eq, htodo', List.append_nil]
  constructor
  · show s.visits.map Visit.node = l.rules
    rw [← h.nodes_eq, htodo, List.append_nil]
  · exact h.setUp
  · rw [hlive]
    exact hnodes
  · intro i r hr
    rw [hlive]
    exact entry_of_judging h hj htodo' hr
  · exact hj.judged
  · show t.kept ++ t.todo = _
    rw [htodo', List.append_nil, hj.kept_eq]
    rfl

/-- `poll` by itself never makes the call return `Success`. -/
theorem pollResult_ne_success {r : Result} (h : pollResult answer = some r) : r ≠ .success := by
  rintro rfl
  rw [pollResult] at h
  split at h
  · split at h <;> cases h
  · split at h <;> cases h
  · cases h

/-- There are no more rules to judge than there were rules. -/
theorem length_rewind_le {s : Pass κ υ} (h : s.SettingUp l.rules) :
    s.rewind.todo.length ≤ l.rules.length := by
  have hkept : s.kept.length ≤ s.visits.length := by
    rw [h.kept_eq, List.length_map]
    exact List.length_filter_le _ _
  rw [← h.nodes_eq, List.length_append, List.length_map]
  show (s.kept ++ s.todo).length ≤ _
  rw [List.length_append]
  omega

theorem settingUp_start (l : EventLoop κ) (w : World υ) : (start l w).SettingUp l.rules :=
  ⟨rfl, fun _ hv ↦ absurd hv List.not_mem_nil, rfl, rfl⟩

/-- **Everything a call can do**: it returns after the set-up loop, but not `Success`; or it leaves
with what the result loop leaves with. -/
theorem waitNextEvent_cases {actions : Actions κ υ} (hplain : actions.Plain) (l : EventLoop κ)
    (w : World υ) (answer : PollAnswer) {fuel : ℕ} (hfuel : l.rules.length < fuel) :
    ∃ s, loop (Pass.setUpTurn actions) fuel (start l w) = some (pure (), s) ∧
      s.SettingUp l.rules ∧ s.todo = [] ∧
      ((∃ r, r ≠ .success ∧
        l.waitNextEvent actions fuel w answer = some (leave (pure r) s s.visits [])) ∨
      ∃ r t, loop (Pass.indexedTurn actions) fuel
          { s.rewind with pollfds := answer.fill s.pollfds, visits := [] } = some (r, t) ∧
        (∀ u, r ≠ .error (.undefined u)) ∧
        (r = pure () → t.Judging ((s.visits.filter Visit.pushed).map Visit.node)
          (answer.fill s.pollfds) ∧ t.todo = []) ∧
        l.waitNextEvent actions fuel w answer =
          some (leave (r.map fun _ ↦ .success) t s.visits t.visits)) := by
  obtain ⟨s, hsetUp, hs, htodo⟩ := Pass.setUp_total hplain (settingUp_start l w) hfuel
  refine ⟨s, hsetUp, hs, htodo, ?_⟩
  rcases hpoll : s.somethingToPoll with - | -
  · exact Or.inl ⟨.exit, by decide, waitNextEvent_of_idle hsetUp hpoll⟩
  rcases hanswer : pollResult answer with - | r
  · obtain ⟨⟨r, t⟩, hloop, hdefined, hjudged⟩ := Pass.results_total hplain
      (judging_rewind hs htodo answer) (length_fill hs answer)
      (Nat.lt_of_le_of_lt (length_rewind_le hs) hfuel)
    exact Or.inr ⟨r, t, hloop, hdefined, hjudged,
      waitNextEvent_of_results hsetUp hpoll hanswer hloop⟩
  · exact Or.inl ⟨r, pollResult_ne_success hanswer, waitNextEvent_of_poll hsetUp hpoll hanswer⟩

/-- **One pass dispatches every rule by its own poll result.** With closures that neither throw nor
add rules, whatever they do to the world, and whatever `poll` answers: the call returns if each loop
may take one turn more than there are rules, no subscript is out of range, the calls that are
recorded are those that were made, and if it returns `Success` the promise `Dispatched` holds. -/
theorem waitNextEvent_dispatched (actions : Actions κ υ) (hplain : actions.Plain) (l : EventLoop κ)
    (w : World υ) (answer : PollAnswer) (fuel : ℕ) (hfuel : l.rules.length < fuel) :
    ∃ o, l.waitNextEvent actions fuel w answer = some o ∧ (∀ u, o.result ≠ .error (.undefined u)) ∧
      o.Replayable actions w ∧ (o.result = pure .success → Dispatched l answer o) := by
  obtain ⟨s, -, hs, htodo, ⟨r, hr, hcall⟩ | ⟨r, t, -, hdefined, hjudged, hcall⟩⟩ :=
    waitNextEvent_cases hplain l w answer hfuel
  · exact ⟨_, hcall, fun u hu ↦ (nomatch hu), waitNextEvent_replayable hcall,
      fun hsuccess ↦ absurd (Except.ok.inj hsuccess) hr⟩
  · refine ⟨_, hcall, ?_, waitNextEvent_replayable hcall, ?_⟩
    · cases r with
      | error e => exact fun u hu ↦ hdefined u (congrArg Except.error (Except.error.inj hu))
      | ok _ => exact fun u hu ↦ nomatch hu
    · cases r with
      | error e => exact fun hsuccess ↦ nomatch hsuccess
      | ok _ =>
        intro _
        obtain ⟨hj, htodo'⟩ := hjudged rfl
        exact dispatched_of_judging hs htodo hj htodo'

/-- Closures for which calling means reading from all descriptors, and which are always
interested. -/
def readingActions : Actions Unit Unit where
  call _ w := ⟨.ok (), { w with fds := fun i ↦ (w.fds i).registerRead }, []⟩
  ask _ w := ⟨.ok true, w, []⟩

/-- Three rules for reading, on three descriptors. -/
def threeRules : EventLoop Unit :=
  ⟨[⟨0, ⟨0, .In, (), (), ()⟩⟩, ⟨1, ⟨1, .In, (), (), ()⟩⟩, ⟨2, ⟨2, .In, (), (), ()⟩⟩], 3⟩

/-- The first of them at end of file, the second hung up, and the third readable: only the last rule
stays. -/
theorem waitNextEvent_dispatched_three :
    readingActions.Plain ∧ ∃ o, threeRules.waitNextEvent readingActions 4
        ⟨fun i ↦ ⟨i, i == 0, false, 0, 0⟩, ()⟩
        (.ready 2 fun i ↦ if i = 0 then POLLHUP else POLLIN) = some o ∧
      o.result = .ok .success ∧ o.loop.rules.map Node.id = [2] ∧
      Dispatched threeRules (.ready 2 fun i ↦ if i = 0 then POLLHUP else POLLIN) o := by
  have hplain : readingActions.Plain :=
    ⟨fun _ _ ↦ rfl, fun _ _ ↦ rfl, fun _ _ ↦ ⟨true, rfl⟩, fun _ _ ↦ rfl⟩
  obtain ⟨o, ho, -, -, hsuccess⟩ := waitNextEvent_dispatched readingActions hplain threeRules
    ⟨fun i ↦ ⟨i, i == 0, false, 0, 0⟩, ()⟩ (.ready 2 fun i ↦ if i = 0 then POLLHUP else POLLIN) 4
    (by decide)
  have hresult : o.result = .ok .success :=
    Option.some.inj ((congrArg (Option.map Outcome.result) ho).symm.trans rfl)
  have hrules : o.loop.rules.map Node.id = [2] :=
    Option.some.inj ((congrArg (Option.map fun o : Outcome Unit Unit ↦ o.loop.rules.map Node.id)
      ho).symm.trans rfl)
  exact ⟨hplain, o, ho, hresult, hrules, hsuccess hresult⟩

end EventLoop
