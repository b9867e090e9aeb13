import Sponge.FileDescriptor.Basic

/-!
# The event loop

`EventLoop` holds a linked list of rules. One call of `wait_next_event` walks the list twice: a
first loop cancels the rules of dead descriptors and builds a `pollfd` for every other rule, and
after `poll(2)` a second loop walks the list again, advancing an index into the `pollfd`s by hand,
and dispatches each rule by the entry at the index. Both loops erase from the list they walk.

**The client's closures** may do anything to the world: to the flags and counters of any descriptor,
and to the client's own state, on which their later answers depend. They may throw, and they may
call `add_rule`, which appends to the list that is being walked. The only thing excluded is that
they call `wait_next_event` again. A closure is a code of type `κ`, and `Actions` gives the codes
their meaning.

**The history.** A rule is known by its list node, so that two equal rules are still two. Every turn
of either loop records a `Visit`: the node, the world when the iterator got there and when the turn
ended, the `pollfd` entry that belongs to the turn, and which closures of the rule were called. No
modelled function reads it.

Neither loop has a bound, since closures may add rules for ever; they are run as `loop`, with fuel.
-/

open Cpp

/-! ### Descriptors, rules and closures -/

/-- `Direction`. -/
inductive Direction where
  | In
  | Out
  deriving DecidableEq, Repr

/-- The type of the fields of `pollfd`. -/
abbrev Short := BitVec 16

def POLLIN : Short := 0x001
def POLLOUT : Short := 0x004
def POLLERR : Short := 0x008
def POLLHUP : Short := 0x010
def POLLNVAL : Short := 0x020

/-- The value of the enumerator. -/
def Direction.toShort : Direction → Short
  | In => POLLIN
  | Out => POLLOUT

/-- `pollfd`. -/
structure PollFd where
  fd : ℤ
  events : Short
  revents : Short
  deriving DecidableEq, Repr

/-- What the closures act on: the wrappers shared by the descriptors, and the client's own state. -/
structure World (υ : Type) where
  fds : ℕ → FDWrapper
  user : υ

/-- `Rule`. -/
structure Rule (κ : Type) where
  /-- The wrapper that the rule's duplicate shares. -/
  fd : ℕ
  direction : Direction
  callback : κ
  interest : κ
  cancel : κ

/-- A node of the list of rules. -/
structure Node (κ : Type) where
  id : ℕ
  rule : Rule κ

/-- The private field of the class, with a counter that tells nodes apart. -/
structure EventLoop (κ : Type) where
  rules : List (Node κ)
  nextId : ℕ

/-- What a call of a closure does. -/
structure Effect (κ υ α : Type) where
  /-- The value it returns, or the exception it throws. -/
  result : Except Exn α
  world : World υ
  /-- The rules it adds, in order. -/
  added : List (Rule κ)

/-- The meaning of the closures. -/
structure Actions (κ υ : Type) where
  /-- Calling a `CallbackT`. -/
  call : κ → World υ → Effect κ υ Unit
  /-- Calling an `InterestT`. -/
  ask : κ → World υ → Effect κ υ Bool

/-- Closures that neither throw nor add rules. -/
structure Actions.Plain {κ υ : Type} (actions : Actions κ υ) : Prop where
  call_ok : ∀ c w, (actions.call c w).result = .ok ()
  call_added : ∀ c w, (actions.call c w).added = []
  ask_ok : ∀ c w, ∃ answer, (actions.ask c w).result = .ok answer
  ask_added : ∀ c w, (actions.ask c w).added = []

/-- Which closure of a rule was called. -/
inductive Call where
  | interest (answer : Except Exn Bool)
  | callback
  | cancel
  deriving DecidableEq

/-- One turn of one of the loops, at one rule. -/
structure Visit (κ υ : Type) where
  node : Node κ
  /-- The world when the iterator got to the node. -/
  before : World υ
  /-- The world when the turn ended. -/
  after : World υ
  /-- The entry that the set-up loop pushed, or that the result loop read. -/
  pollfd : Option PollFd
  calls : List Call

variable {κ υ : Type}

namespace Rule

/-- `service_count()`. -/
def serviceCount (r : Rule κ) (w : World υ) : UInt32 :=
  if r.direction = .In then (w.fds r.fd).readCount else (w.fds r.fd).writeCount

/-- The entry that is pushed for the rule: if it is not interested, a placeholder that asks for
nothing. -/
def entry (r : Rule κ) (w : World υ) (interested : Bool) : PollFd :=
  ⟨(w.fds r.fd).fd, if interested then r.direction.toShort else 0, 0⟩

end Rule

/-- `add_rule`. -/
def EventLoop.addRule (l : EventLoop κ) (r : Rule κ) : EventLoop κ :=
  ⟨l.rules ++ [⟨l.nextId, r⟩], l.nextId + 1⟩

/-! ### The variables of a call -/

/-- The list with the position of the iterator, and the local variables. -/
structure Pass (κ υ : Type) where
  /-- The nodes before the iterator. -/
  kept : List (Node κ)
  /-- The nodes from the iterator on. -/
  todo : List (Node κ)
  nextId : ℕ
  world : World υ
  pollfds : List PollFd
  somethingToPoll : Bool
  /-- The index of the result loop. -/
  idx : ℕ
  visits : List (Visit κ υ)

namespace Pass

/-- `add_rule`, while the list is being walked. -/
def addRule (s : Pass κ υ) (r : Rule κ) : Pass κ υ :=
  { s with todo := s.todo ++ [⟨s.nextId, r⟩], nextId := s.nextId + 1 }

/-- Call a closure. -/
def perform {α : Type} (s : Pass κ υ) (e : Effect κ υ α) : Except Exn α × Pass κ υ :=
  (e.result, e.added.foldl addRule { s with world := e.world })

/-- Record the turn at `n` that started in the world `before`. -/
def visit (s : Pass κ υ) (n : Node κ) (before : World υ) (pollfd : Option PollFd)
    (calls : List Call) : Pass κ υ :=
  { s with visits := s.visits ++ [⟨n, before, s.world, pollfd, calls⟩] }

/-- `++it`. -/
def advance (s : Pass κ υ) : Pass κ υ :=
  match s.todo with
  | [] => s
  | n :: rest => { s with kept := s.kept ++ [n], todo := rest }

/-- `it = _rules.erase(it)`. -/
def erase (s : Pass κ υ) : Pass κ υ := { s with todo := s.todo.tail }

/-- `this_rule.cancel(); it = _rules.erase(it); continue;` -/
def cancel (actions : Actions κ υ) (s : Pass κ υ) (n : Node κ) (pollfd : Option PollFd) :
    Turn (Pass κ υ) (Eval Exn Unit × Pass κ υ) :=
  let (result, t) := s.perform (actions.call n.rule.cancel s.world)
  let t := t.visit n s.world pollfd [.cancel]
  match result with
  | .error e => .done (.error (.throws e), t)
  | .ok _ => .next t.erase

/-! ### The set-up loop -/

/-- Push an entry; `something_to_poll` is set if it is not a placeholder. -/
def push (s : Pass κ υ) (pollfd : PollFd) (interested : Bool) : Pass κ υ :=
  { s with
    pollfds := s.pollfds ++ [pollfd]
    somethingToPoll := s.somethingToPoll || interested }

/-- One turn of the loop that sets up the `pollfd`s. -/
def setUpTurn (actions : Actions κ υ) (s : Pass κ υ) :
    Turn (Pass κ υ) (Eval Exn Unit × Pass κ υ) :=
  match s.todo with
  | [] => .done (pure (), s)
  | n :: _ =>
    if n.rule.direction = .In ∧ (s.world.fds n.rule.fd).eof then s.cancel actions n none
    else if (s.world.fds n.rule.fd).closed then s.cancel actions n none
    else
      let (answer, t) := s.perform (actions.ask n.rule.interest s.world)
      match answer with
      | .error e => .done (.error (.throws e), t.visit n s.world none [.interest answer])
      | .ok interested =>
        let pollfd := n.rule.entry t.world interested
        let t := t.push pollfd interested
        .next (t.visit n s.world (some pollfd) [.interest answer]).advance

/-! ### The result loop -/

/-- The rest of a turn for a rule that is ready: call the callback, and detect a busy wait. -/
def dispatch (actions : Actions κ υ) (s : Pass κ υ) (n : Node κ) (pollfd : PollFd) :
    Turn (Pass κ υ) (Eval Exn Unit × Pass κ υ) :=
  let countBefore := n.rule.serviceCount s.world
  let (result, t) := s.perform (actions.call n.rule.callback s.world)
  match result with
  | .error e => .done (.error (.throws e), t.visit n s.world (some pollfd) [.callback])
  | .ok _ =>
    if countBefore = n.rule.serviceCount t.world then
      let (answer, t) := t.perform (actions.ask n.rule.interest t.world)
      let t := t.visit n s.world (some pollfd) [.callback, .interest answer]
      match answer with
      | .error e => .done (.error (.throws e), t)
      | .ok true =>
        .done (.error (.throws (.runtimeError
          "EventLoop: busy wait detected: callback did not read/write fd and is still interested")),
          t)
      | .ok false => .next t.advance
    else .next (t.visit n s.world (some pollfd) [.callback]).advance

/-- One turn of the loop that goes through the poll results, without the increment of the index. -/
def resultTurn (actions : Actions κ υ) (s : Pass κ υ) (n : Node κ) (pollfd : PollFd) :
    Turn (Pass κ υ) (Eval Exn Unit × Pass κ υ) :=
  let pollError := pollfd.revents &&& (POLLERR ||| POLLNVAL) ≠ 0
  if pollError then
    .done (.error (.throws (.runtimeError "EventLoop: error on polled file descriptor")),
      s.visit n s.world (some pollfd) [])
  else
    let pollReady := pollfd.revents &&& pollfd.events ≠ 0
    let pollHup := pollfd.revents &&& POLLHUP ≠ 0
    if pollHup ∧ pollfd.events ≠ 0 ∧ ¬ pollReady then s.cancel actions n (some pollfd)
    else if pollReady then s.dispatch actions n pollfd
    else .next (s.visit n s.world (some pollfd) []).advance

/-- One turn of the loop that goes through the poll results. The subscript is unchecked. -/
def indexedTurn (actions : Actions κ υ) (s : Pass κ υ) :
    Turn (Pass κ υ) (Eval Exn Unit × Pass κ υ) :=
  match s.todo with
  | [] => .done (pure (), s)
  | n :: _ =>
    match load s.pollfds s.idx with
    | .error u => .done (.error u, s)
    | .ok pollfd =>
      match s.resultTurn actions n pollfd with
      | .next t => .next { t with idx := t.idx + 1 }
      | .done r => .done r

/-- The iterator is back at the beginning of the list. -/
def rewind (s : Pass κ υ) : Pass κ υ := { s with kept := [], todo := s.kept ++ s.todo, idx := 0 }

end Pass

/-! ### `wait_next_event` -/

/-- `EINTR`. -/
def eintr : ℤ := 4

/-- What `poll(2)` answers. -/
inductive PollAnswer where
  /-- The call returns `count` and fills in the `revents`, here by the index of the entry. -/
  | ready (count : ℕ) (revents : ℕ → Short)
  /-- The call returns `-1`, sets `errno` and fills in nothing. -/
  | failed (errno : ℤ)

namespace PollAnswer

def returnValue : PollAnswer → ℤ
  | ready count _ => count
  | failed _ => -1

def errno : PollAnswer → ℤ
  | ready _ _ => 0
  | failed e => e

/-- The `revents` of an entry after the call. -/
def revents : PollAnswer → ℕ → Short
  | ready _ f => f
  | failed _ => fun _ ↦ 0

/-- The entries after the call. -/
def fill (answer : PollAnswer) (pollfds : List PollFd) : List PollFd :=
  pollfds.mapIdx fun i p ↦ { p with revents := answer.revents i }

end PollAnswer

namespace EventLoop

/-- `Result`. -/
inductive Result where
  | success
  | timeout
  | exit
  deriving DecidableEq, Repr

/-- What a call of `wait_next_event` leaves behind. -/
structure Outcome (κ υ : Type) where
  result : Eval Exn Result
  loop : EventLoop κ
  world : World υ
  /-- The turns of the set-up loop. -/
  setUp : List (Visit κ υ)
  /-- The turns of the result loop. -/
  results : List (Visit κ υ)

/-- The variables at the start of a call. -/
def start (l : EventLoop κ) (w : World υ) : Pass κ υ where
  kept := []
  todo := l.rules
  nextId := l.nextId
  world := w
  pollfds := []
  somethingToPoll := false
  idx := 0
  visits := []

/-- Leave the call. -/
def leave (result : Eval Exn Result) (s : Pass κ υ) (setUp results : List (Visit κ υ)) :
    Outcome κ υ where
  result := result
  loop := ⟨s.kept ++ s.todo, s.nextId⟩
  world := s.world
  setUp := setUp
  results := results

/-- The call of `poll` in its `try` block: the result to return at once, if there is one. An
exception is looked at only for `EINTR`; **any other error falls through**. -/
def pollResult (answer : PollAnswer) : Option Result :=
  match systemCall "poll" answer.returnValue answer.errno with
  | .ok r => if r = 0 then some .timeout else none
  | .error (.unixError _ errno) => if errno = eintr then some .exit else none
  | .error _ => none

/-- `wait_next_event`, with the number of turns that each loop may take. -/
def waitNextEvent (actions : Actions κ υ) (fuel : ℕ) (l : EventLoop κ) (w : World υ)
    (answer : PollAnswer) : Option (Outcome κ υ) := do
  let (setUp, s) ← loop (Pass.setUpTurn actions) fuel (start l w)
  match setUp with
  | .error e => pure (leave (.error e) s s.visits [])
  | .ok _ =>
    if !s.somethingToPoll then pure (leave (pure .exit) s s.visits [])
    else
      match pollResult answer with
      | some r => pure (leave (pure r) s s.visits [])
      | none =>
        let (results, t) ← loop (Pass.indexedTurn actions) fuel
          { s.rewind with pollfds := answer.fill s.pollfds, visits := [] }
        pure (leave (results.map fun _ ↦ .success) t s.visits t.visits)

end EventLoop
