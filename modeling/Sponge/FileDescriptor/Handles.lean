import Sponge.FileDescriptor.Ownership

/-!
# No descriptor is leaked

The other half of ownership: a number that is open belongs to a wrapper that some handle still
shares, so it will be closed when the last of them goes. This holds in every run, also in those that
close foreign numbers, since a `::close` too many takes numbers away but never leaves one behind.

It has to hold for the classes built on `FileDescriptor` too. Their constructors start with a
descriptor, which they open or are given, and go on to calls that may fail: a `Socket` that is made
from a descriptor asks the kernel for its domain and type and throws if they are not the expected
ones, and a `TunTapFD` has to configure its device. An exception thrown there leaves through the
base class, whose part has been constructed and so is destroyed, and with it the handle. For a
descriptor that was given to the constructor this means that **it is lost to the caller**, who has
moved it away, and that its number is closed unless there are duplicates.
-/

open Machine

/-! ### The constructors -/

/-- What `getsockopt` answers for an option that is an `int`. -/
structure SockoptAnswer where
  returnValue : ℤ
  errno : ℤ
  actualValue : ℤ
  len : ℤ
  deriving DecidableEq, Repr

namespace SocketClass

def afUnix : ℤ := 1

def sockStream : ℤ := 1

def sockDgram : ℤ := 2

/-- `sizeof(int)`. -/
def sizeofInt : ℤ := 4

/-- The body of `Socket(FileDescriptor &&fd, const int domain, const int type)`. -/
def verify (domain type : ℤ) (domainAnswer typeAnswer : SockoptAnswer) : Except Exn Unit := do
  let _ ← systemCall "getsockopt" domainAnswer.returnValue domainAnswer.errno
  if domainAnswer.len ≠ sizeofInt ∨ domainAnswer.actualValue ≠ domain then
    throw (.runtimeError "socket domain mismatch")
  let _ ← systemCall "getsockopt" typeAnswer.returnValue typeAnswer.errno
  if typeAnswer.len ≠ sizeofInt ∨ typeAnswer.actualValue ≠ type then
    throw (.runtimeError "socket type mismatch")

end SocketClass

namespace TunTapFD

/-- `IFNAMSIZ`. -/
def ifnamsiz : ℕ := 16

/-- `ifreq`, as far as it is set. -/
structure Ifreq where
  name : Bytes
  flags : ℤ
  deriving DecidableEq, Repr

/-- `strncpy(dst, src, n)`, for a `dst` of zeros: the bytes up to the first zero, at most `n`. -/
def strncpy (src : Bytes) (n : ℕ) : Bytes :=
  let copied := (cStr src).take n
  copied ++ List.replicate (n - copied.length) 0

/-- The request: `IFF_TUN` or `IFF_TAP`, with `IFF_NO_PI`, and the name with its terminator. -/
def request (devname : Bytes) (isTun : Bool) : Ifreq where
  name := strncpy devname (ifnamsiz - 1) ++ [0]
  flags := (if isTun then 1 else 2) + 0x1000

/-- The body of `TunTapFD(const string &devname, const bool is_tun)`. -/
def configure (devname : Bytes) (isTun : Bool) (ioctl : Ifreq → ℤ × ℤ) : Except Exn Unit := do
  let (returnValue, errno) := ioctl (request devname isTun)
  let _ ← systemCall "ioctl" returnValue errno

end TunTapFD

namespace Descriptors

/-! ### Moving handles -/

/-- The wrapper that a handle shares. A handle that was destroyed or moved from has none. -/
def holds (s : Descriptors) (h : ℕ) : Option ℕ := (s.handles[h]?).join

/-- `FileDescriptor(FileDescriptor &&other)`: a new handle takes the wrapper over, if there is
one. -/
def moveConstruct (s : Descriptors) (h : ℕ) : Option Descriptors := do
  let shared ← s.handles[h]?
  pure { s.drop h with handles := (s.drop h).handles ++ [shared] }

/-- The handle `k` lets go of its wrapper, if it has one. -/
def letGo (s : Descriptors) (k : ℕ) (report : Option ℤ) : Option Descriptors :=
  match s.handles[k]? with
  | none => none
  | some none => some s
  | some (some _) => s.step (.destroy k report)

/-- `operator=(FileDescriptor &&other)`: the handle `k` lets go of its own wrapper and takes over
that of `h`. Nothing happens if they are the same. -/
def moveAssign (s : Descriptors) (k h : ℕ) (report : Option ℤ) : Option Descriptors :=
  if k = h then some s
  else do
    let shared ← s.handles[h]?
    let s ← s.letGo k report
    pure { s.drop h with handles := (s.drop h).handles.set k shared }

/-! ### Constructors -/

/-- A constructor of a derived class, with the answers to the calls it makes after the base class
has its descriptor. -/
inductive Construction where
  /-- `TCPSocket()` and `UDPSocket()`. -/
  | socket
  /-- `Socket(FileDescriptor &&fd, const int domain, const int type)`, on the handle `h`. -/
  | adopt (h : ℕ) (domain type : ℤ) (domainAnswer typeAnswer : SockoptAnswer)
  /-- `TCPSocket::accept()`, by the handle `h`. -/
  | accept (h : ℕ) (domainAnswer typeAnswer : SockoptAnswer)
  | tunTap (devname : Bytes) (isTun : Bool) (ioctl : TunTapFD.Ifreq → ℤ × ℤ)

/-- `LocalStreamSocket(FileDescriptor &&fd)`. -/
def Construction.localStream (h : ℕ) (domainAnswer typeAnswer : SockoptAnswer) : Construction :=
  adopt h SocketClass.afUnix SocketClass.sockStream domainAnswer typeAnswer

/-- `UDPSocket(FileDescriptor &&fd)`. -/
def Construction.udp (h : ℕ) (domainAnswer typeAnswer : SockoptAnswer) : Construction :=
  adopt h afInet SocketClass.sockDgram domainAnswer typeAnswer

/-- The body of the constructor. -/
def Construction.check : Construction → Except Exn Unit
  | socket => pure ()
  | adopt _ domain type d t => SocketClass.verify domain type d t
  | accept _ d t => SocketClass.verify afInet SocketClass.sockStream d t
  | tunTap devname isTun ioctl => TunTapFD.configure devname isTun ioctl

/-- `FileDescriptor(fd)` on the number that a call gives, unless the call fails. The result is the
handle. -/
def wrapNumber (s : Descriptors) : Except Exn ℤ → Option (Except Exn ℕ × Descriptors)
  | .error e => some (.error e, s)
  | .ok n =>
    match FDWrapper.ofFd n with
    | .error e => some (.error e, s)
    | .ok _ => do
      let t ← s.step (.wrap n)
      pure (.ok s.handles.length, t)

/-- `register_read()`, by a handle. -/
def registerRead (s : Descriptors) (h : ℕ) : Option Descriptors := do
  let (i, w) ← s.wrapperOf h
  pure { s with wrappers := s.wrappers.set i w.registerRead }

/-- Construct the base class, with the return value and `errno` of the call that gives the number,
if there is one. -/
def constructBase (s : Descriptors) (answer : ℤ × ℤ) :
    Construction → Option (Except Exn ℕ × Descriptors)
  | .socket => s.wrapNumber (systemCall "socket" answer.1 answer.2)
  | .tunTap _ _ _ => s.wrapNumber (systemCall "open" answer.1 answer.2)
  | .adopt h _ _ _ _ => do
    -- the body asks for the number, so there has to be a wrapper
    let _ ← s.wrapperOf h
    let t ← s.moveConstruct h
    pure (.ok s.handles.length, t)
  | .accept h _ _ => do
    let s ← s.registerRead h
    let (r, t) ← s.wrapNumber (systemCall "accept" answer.1 answer.2)
    match r with
    | .error e => pure (.error e, t)
    | .ok temporary =>
      -- the number is wrapped in a temporary, and the base class is moved from that
      let u ← t.moveConstruct temporary
      pure (.ok t.handles.length, u)

/-- Run a constructor. If its body throws then the base class is destroyed, and `report` is what a
`::close` reports that is made then. The result is the handle. -/
def construct (s : Descriptors) (c : Construction) (answer : ℤ × ℤ) (report : Option ℤ) :
    Option (Except Exn ℕ × Descriptors) := do
  let (r, t) ← s.constructBase answer c
  match r with
  | .error e => pure (.error e, t)
  | .ok k =>
    match c.check with
    | .ok _ => pure (.ok k, t)
    | .error e =>
      let t ← t.step (.destroy k report)
      pure (.error e, t)

/-- The steps of a program that uses the classes. -/
inductive ProgramOp where
  | plain (op : Op)
  | moveConstruct (h : ℕ)
  | moveAssign (k h : ℕ) (report : Option ℤ)
  | construct (c : Construction) (answer : ℤ × ℤ) (report : Option ℤ)

def programStep (s : Descriptors) : ProgramOp → Option Descriptors
  | .plain op => s.step op
  | .moveConstruct h => s.moveConstruct h
  | .moveAssign k h report => s.moveAssign k h report
  | .construct c answer report => (s.construct c answer report).map Prod.snd

/-! ### What is promised of a constructor -/

/-- From `s` to `t` a number was opened and a new handle `k` was made for it. The other numbers and
handles are as before. -/
def Opens (s : Descriptors) (k : ℕ) (t : Descriptors) : Prop :=
  ∃ n i, s.owner n = none ∧ t.owner = Function.update s.owner n (some i) ∧
    (∀ j, s.holds j ≠ some i) ∧ s.holds k = none ∧ t.holds k = some i ∧
    ∀ j, j ≠ k → t.holds j = s.holds j

/-- From `s` to `t` the wrapper of the handle `h` was moved to a new handle `k`. The numbers and the
other handles are as before. -/
def TakesOver (s : Descriptors) (h k : ℕ) (t : Descriptors) : Prop :=
  ∃ i, s.holds h = some i ∧ s.holds k = none ∧ t.holds k = some i ∧ t.holds h = none ∧
    (∀ j, j ≠ k → j ≠ h → t.holds j = s.holds j) ∧ t.owner = s.owner

namespace Construction

/-- What a constructor that succeeds makes of `s`. -/
def Succeeds (s : Descriptors) (k : ℕ) (t : Descriptors) : Construction → Prop
  | adopt h _ _ _ _ => s.TakesOver h k t
  | socket | accept _ _ _ | tunTap _ _ _ => s.Opens k t

/-- What a constructor that throws leaves of `s`. One that opens a number leaves the same numbers
open, and every handle with the wrapper that it had. One that takes a handle over has moved from it,
and leaves what the destruction of that handle leaves. -/
def Undone (s : Descriptors) (report : Option ℤ) (t : Descriptors) : Construction → Prop
  | adopt h _ _ _ _ => ∃ u, s.step (.destroy h report) = some u ∧
      t = { u with handles := u.handles ++ [none] }
  | socket | accept _ _ _ | tunTap _ _ _ => t.owner = s.owner ∧ ∀ j, t.holds j = s.holds j

end Construction

/-! ### The invariant -/

/-- **Every open number has a handle**, through the wrapper it was opened for. -/
structure Held (s : Descriptors) : Prop where
  handle_lt : ∀ i, some i ∈ s.handles → i < s.wrappers.length
  wrapper : ∀ n i, s.owner n = some i →
    ∃ w, s.wrappers[i]? = some w ∧ w.fd = n ∧ w.closed = false
  handle : ∀ n i, s.owner n = some i → some i ∈ s.handles

theorem held_init : init.Held where
  handle_lt _ h := absurd h List.not_mem_nil
  wrapper _ _ h := absurd h (by simp [init])
  handle _ _ h := absurd h (by simp [init])

variable {s s' : Descriptors} {op : Op} {h i : ℕ} {w : FDWrapper} {report : Option ℤ}

theorem getElem?_of_wrapperOf (hw : s.wrapperOf h = some (i, w)) :
    s.handles[h]? = some (some i) ∧ s.wrappers[i]? = some w := by
  refine ⟨?_, wrapperOf_eq hw⟩
  obtain ⟨j, hj, hrest⟩ := Option.bind_eq_some_iff.1 hw
  obtain ⟨v, -, heq⟩ := Option.bind_eq_some_iff.1 hrest
  obtain ⟨rfl, -⟩ := Prod.mk.inj (Option.some.inj heq)
  exact Option.join_eq_some_iff.1 hj

/-- Dropping a handle leaves those of the other wrappers. -/
theorem mem_drop_of_ne {shared : Option ℕ} (hh : s.handles[h]? = some shared) {j : ℕ}
    (hne : some j ≠ shared) (hj : some j ∈ s.handles) : some j ∈ (s.drop h).handles := by
  obtain ⟨k, hk⟩ := List.mem_iff_getElem?.1 hj
  have hkh : h ≠ k := by
    rintro rfl
    exact hne (Option.some.inj (hk.symm.trans hh))
  exact List.mem_iff_getElem?.2 ⟨k, (List.getElem?_set_ne hkh).trans hk⟩

theorem mem_of_mem_drop {j : ℕ} (hj : some j ∈ (s.drop h).handles) : some j ∈ s.handles :=
  (List.mem_or_eq_of_mem_set hj).resolve_right (by simp)

/-- **A `::close` by one wrapper** leaves the handles of the numbers that stay open. -/
theorem Held.release (hs : s.Held) (hw : s.wrappers[i]? = some w) {w' : FDWrapper}
    (ho : s'.owner = Function.update s.owner w.fd none) (hws : s'.wrappers = s.wrappers.set i w')
    (hlt : ∀ j, some j ∈ s'.handles → some j ∈ s.handles)
    (hkeep : ∀ j, j ≠ i → some j ∈ s.handles → some j ∈ s'.handles) : s'.Held := by
  -- a number that is still open is not that of this wrapper
  have hother : ∀ n j, s'.owner n = some j → s.owner n = some j ∧ j ≠ i := by
    intro n j hn
    rw [ho] at hn
    rcases owner_of_update hn with ⟨-, hnone⟩ | ⟨hfd, hj⟩
    · exact absurd hnone (by simp)
    · refine ⟨hj, ?_⟩
      rintro rfl
      obtain ⟨v, hv, hvfd, -⟩ := hs.wrapper n j hj
      obtain rfl := Option.some.inj (hw.symm.trans hv)
      exact hfd hvfd.symm
  constructor
  · intro j hj
    rw [hws, List.length_set]
    exact hs.handle_lt j (hlt j hj)
  · intro n j hn
    obtain ⟨hold, hne⟩ := hother n j hn
    obtain ⟨v, hv, hrest⟩ := hs.wrapper n j hold
    exact ⟨v, by rw [hws, List.getElem?_set_ne hne.symm, hv], hrest⟩
  · intro n j hn
    obtain ⟨hold, hne⟩ := hother n j hn
    exact hkeep j hne (hs.handle n j hold)

/-- A new wrapper comes with a handle. -/
theorem Held.wrap (hs : s.Held) (hclosed : w.closed = false) :
    Held { s with
      owner := Function.update s.owner w.fd (some s.wrappers.length)
      wrappers := s.wrappers ++ [w]
      handles := s.handles ++ [some s.wrappers.length] } where
  handle_lt := by
    intro j hj
    rw [List.length_append, List.length_singleton]
    rcases List.mem_append.1 hj with hj | hj
    · exact Nat.lt_succ_of_lt (hs.handle_lt j hj)
    · obtain rfl := Option.some.inj (List.mem_singleton.1 hj)
      exact Nat.lt_succ_self _
  wrapper := by
    intro n j hn
    rcases owner_of_update hn with ⟨rfl, hnew⟩ | ⟨-, hold⟩
    · obtain rfl := Option.some.inj hnew
      exact ⟨w, List.getElem?_concat_length, rfl, hclosed⟩
    · obtain ⟨v, hv, hrest⟩ := hs.wrapper n j hold
      exact ⟨v, (List.getElem?_append_left (List.getElem?_eq_some_iff.1 hv).1).trans hv, hrest⟩
  handle := by
    intro n j hn
    rcases owner_of_update hn with ⟨-, hnew⟩ | ⟨-, hold⟩
    · obtain rfl := Option.some.inj hnew
      exact List.mem_append_right _ List.mem_cons_self
    · exact List.mem_append_left _ (hs.handle n j hold)

/-- The invariant does not look at counters. -/
theorem Held.congr (hs : s.Held) (ho : s'.owner = s.owner) (hh : s'.handles = s.handles)
    (hw : s.wrappers[i]? = some w) {w' : FDWrapper} (hws : s'.wrappers = s.wrappers.set i w')
    (hfd : w'.fd = w.fd) (hclosed : w'.closed = w.closed) : s'.Held where
  handle_lt := by
    rw [hh, hws, List.length_set]
    exact hs.handle_lt
  wrapper := by
    intro n j hn
    rw [ho] at hn
    obtain ⟨v, hv, hvfd, hvclosed⟩ := hs.wrapper n j hn
    rw [hws]
    rcases eq_or_ne i j with rfl | hne
    · obtain rfl := Option.some.inj (hw.symm.trans hv)
      exact ⟨w', by rw [List.getElem?_set_self (List.getElem?_eq_some_iff.1 hw).1],
        hfd.trans hvfd, hclosed.trans hvclosed⟩
    · exact ⟨v, by rw [List.getElem?_set_ne hne, hv], hvfd, hvclosed⟩
  handle := by
    rw [ho, hh]
    exact hs.handle

theorem step_destroy (hw : s.wrapperOf h = some (i, w)) (report : Option ℤ) :
    s.step (.destroy h report) = some (if some i ∈ (s.drop h).handles ∨ w.closed then s.drop h
      else ((s.drop h).closeWrapper i w report).2) := by
  rw [Descriptors.step, hw, Option.bind_eq_bind, Option.bind_some]
  dsimp only
  split <;> rfl

/-- **Everything the destruction of a handle can do**: there is another one or the wrapper is closed
already, and only the handle goes; or the wrapper is closed now. -/
theorem destroy_cases (hstep : s.step (.destroy h report) = some s') :
    ∃ i w, s.wrapperOf h = some (i, w) ∧
      ((some i ∈ (s.drop h).handles ∨ w.closed) ∧ s' = s.drop h ∨
        s' = ((s.drop h).closeWrapper i w report).2) := by
  obtain ⟨⟨i, w⟩, hw, -⟩ := Option.bind_eq_some_iff.1 hstep
  rw [step_destroy hw] at hstep
  obtain rfl := Option.some.inj hstep
  refine ⟨i, w, hw, ?_⟩
  split
  · rename_i hkeep
    exact Or.inl ⟨hkeep, rfl⟩
  · exact Or.inr rfl

theorem Held.destroy (hs : s.Held) (hstep : s.step (.destroy h report) = some s') : s'.Held := by
  obtain ⟨i, w, hw, hcases⟩ := destroy_cases hstep
  have hothers : ∀ j, j ≠ i → some j ∈ s.handles → some j ∈ (s.drop h).handles := fun j hne ↦
    mem_drop_of_ne (getElem?_of_wrapperOf hw).1 fun heq ↦ hne (Option.some.inj heq)
  rcases hcases with ⟨hkeep, rfl⟩ | rfl
  · refine ⟨fun j hj ↦ hs.handle_lt j (mem_of_mem_drop hj), hs.wrapper, fun n j hn ↦ ?_⟩
    rcases eq_or_ne j i with rfl | hne
    · -- the number is open, so its wrapper is not closed, and there is another handle
      obtain ⟨v, hv, -, hvclosed⟩ := hs.wrapper n j hn
      obtain rfl := Option.some.inj ((wrapperOf_eq hw).symm.trans hv)
      exact hkeep.resolve_right (by rw [hvclosed]; exact Bool.false_ne_true)
    · exact hothers j hne (hs.handle n j hn)
  · have hwrapper : (s.drop h).wrappers[i]? = some w := wrapperOf_eq (s := s) hw
    obtain ⟨w', -, hclose⟩ := closeWrapper_eq hwrapper report
    rw [hclose]
    exact hs.release (wrapperOf_eq hw) rfl rfl (fun _ hj ↦ mem_of_mem_drop hj) hothers

/-- **The invariant survives a step.** -/
theorem Held.step (hs : s.Held) (hstep : s.step op = some s') : s'.Held := by
  cases op with
  | wrap n =>
    rw [Descriptors.step] at hstep
    split at hstep
    · obtain rfl := Option.some.inj hstep
      exact hs
    · rename_i w hw
      obtain ⟨rfl, hclosed⟩ := ofFd_eq hw
      split at hstep
      · exact absurd hstep (by simp)
      · obtain rfl := Option.some.inj hstep
        exact hs.wrap hclosed
  | duplicate k =>
    obtain ⟨⟨i, w⟩, hw, heq⟩ := Option.bind_eq_some_iff.1 hstep
    obtain rfl := Option.some.inj heq
    have hi : some i ∈ s.handles := List.mem_of_getElem? (getElem?_of_wrapperOf hw).1
    refine ⟨fun j hj ↦ ?_, hs.wrapper, fun n j hn ↦ List.mem_append_left _ (hs.handle n j hn)⟩
    rcases List.mem_append.1 hj with hj | hj
    · exact hs.handle_lt j hj
    · obtain rfl := Option.some.inj (List.mem_singleton.1 hj)
      exact hs.handle_lt _ hi
  | close k report =>
    obtain ⟨⟨i, w⟩, hw, heq⟩ := Option.bind_eq_some_iff.1 hstep
    obtain rfl := Option.some.inj heq
    obtain ⟨w', -, hclose⟩ := closeWrapper_eq (wrapperOf_eq hw) report
    show ((s.closeWrapper i w report).2).Held
    rw [hclose]
    exact hs.release (wrapperOf_eq hw) rfl rfl (fun _ hj ↦ hj) fun _ _ hj ↦ hj
  | destroy k report => exact hs.destroy hstep

/-! ### Moves -/

variable {t : Descriptors} {k : ℕ}

theorem holds_of_wrapperOf (hw : s.wrapperOf h = some (i, w)) : s.holds h = some i :=
  Option.join_eq_some_iff.2 (getElem?_of_wrapperOf hw).1

theorem holds_concat (hh : t.handles = s.handles ++ [some i]) (j : ℕ) :
    t.holds j = if j = s.handles.length then some i else s.holds j := by
  rw [holds, hh]
  split
  · rename_i hj
    rw [hj, List.getElem?_concat_length]
    rfl
  · rename_i hj
    rcases Nat.lt_or_gt_of_ne hj with hlt | hgt
    · rw [List.getElem?_append_left hlt]
      rfl
    · rw [holds, List.getElem?_eq_none (by rw [List.length_append, List.length_singleton]; omega),
        List.getElem?_eq_none (by omega)]

theorem holds_length (s : Descriptors) : s.holds s.handles.length = none := by
  rw [holds, List.getElem?_eq_none le_rfl]
  rfl

theorem holds_drop (s : Descriptors) (h j : ℕ) :
    (s.drop h).holds j = if j = h then none else s.holds j := by
  rw [holds, drop]
  split
  · rename_i hj
    subst hj
    rw [List.getElem?_set_self']
    rcases s.handles[j]? <;> rfl
  · rename_i hj
    rw [List.getElem?_set_ne (Ne.symm hj)]
    rfl

theorem mem_handles_iff : some i ∈ s.handles ↔ ∃ h, s.holds h = some i := by
  rw [List.mem_iff_getElem?]
  exact exists_congr fun _ ↦ Option.join_eq_some_iff.symm

/-- Handing a wrapper from one handle to another leaves it with a handle. -/
theorem Held.of_handles (hs : s.Held) (ho : s'.owner = s.owner) (hws : s'.wrappers = s.wrappers)
    (hh : ∀ j, some j ∈ s'.handles ↔ some j ∈ s.handles) : s'.Held where
  handle_lt := fun j hj ↦ hws ▸ hs.handle_lt j ((hh j).1 hj)
  wrapper := by
    rw [ho, hws]
    exact hs.wrapper
  handle := fun n j hn ↦ (hh j).2 (hs.handle n j (ho ▸ hn))

theorem moveConstruct_eq (ht : s.moveConstruct h = some t) : ∃ shared, s.handles[h]? = some shared ∧
    t = { s.drop h with handles := (s.drop h).handles ++ [shared] } := by
  obtain ⟨shared, hh, heq⟩ := Option.bind_eq_some_iff.1 ht
  exact ⟨shared, hh, (Option.some.inj heq).symm⟩

theorem Held.moveConstruct (hs : s.Held) (ht : s.moveConstruct h = some t) : t.Held := by
  obtain ⟨shared, hh, rfl⟩ := moveConstruct_eq ht
  refine hs.of_handles rfl rfl fun j ↦ ?_
  show some j ∈ (s.drop h).handles ++ [shared] ↔ _
  rw [List.mem_append, List.mem_singleton]
  constructor
  · rintro (hj | hj)
    · exact mem_of_mem_drop hj
    · rw [hj]
      exact List.mem_of_getElem? hh
  · intro hj
    rcases eq_or_ne (some j) shared with heq | hne
    · exact Or.inr heq
    · exact Or.inl (mem_drop_of_ne hh hne hj)

theorem takesOver_moveConstruct (hh : s.holds h = some i) (ht : s.moveConstruct h = some t) :
    s.TakesOver h s.handles.length t := by
  obtain ⟨shared, hshared, rfl⟩ := moveConstruct_eq ht
  obtain rfl := Option.some.inj (hshared.symm.trans (Option.join_eq_some_iff.1 hh))
  have hlength : (s.drop h).handles.length = s.handles.length := List.length_set
  have hne : h ≠ s.handles.length := by
    rintro rfl
    exact absurd ((holds_length s).symm.trans hh) (by simp)
  have hholds (j : ℕ) : Descriptors.holds
      { s.drop h with handles := (s.drop h).handles ++ [some i] } j =
        if j = s.handles.length then some i else if j = h then none else s.holds j := by
    rw [holds_concat (s := s.drop h) rfl, hlength, holds_drop]
  refine ⟨i, hh, holds_length s, ?_, ?_, fun j hk hj ↦ ?_, rfl⟩
  · rw [hholds, if_pos rfl]
  · rw [hholds, if_neg hne, if_pos rfl]
  · rw [hholds, if_neg hk, if_neg hj]

theorem handles_closeWrapper (s : Descriptors) (i : ℕ) (w : FDWrapper) (report : Option ℤ) :
    (s.closeWrapper i w report).2.handles = s.handles := by
  rw [closeWrapper]
  dsimp only
  split <;> rfl

theorem handles_destroy (ht : s.step (.destroy k report) = some t) :
    t.handles = s.handles.set k none := by
  obtain ⟨i, w, -, ⟨-, rfl⟩ | rfl⟩ := destroy_cases ht
  · rfl
  · exact handles_closeWrapper _ i w report

theorem Held.letGo (hs : s.Held) (ht : s.letGo k report = some t) :
    t.Held ∧ k < s.handles.length ∧ t.handles = s.handles.set k none := by
  rw [Descriptors.letGo] at ht
  split at ht
  · exact absurd ht (by simp)
  · rename_i hnone
    obtain rfl := Option.some.inj ht
    obtain ⟨hk, hget⟩ := List.getElem?_eq_some_iff.1 hnone
    exact ⟨hs, hk, by rw [← hget, List.set_getElem_self]⟩
  · rename_i hsome
    exact ⟨hs.step ht, (List.getElem?_eq_some_iff.1 hsome).1, handles_destroy ht⟩

theorem Held.moveAssign (hs : s.Held) (ht : s.moveAssign k h report = some t) : t.Held := by
  rw [Descriptors.moveAssign] at ht
  split at ht
  · obtain rfl := Option.some.inj ht
    exact hs
  rename_i hkh
  obtain ⟨shared, hshared, ht⟩ := Option.bind_eq_some_iff.1 ht
  obtain ⟨u, hu, ht⟩ := Option.bind_eq_some_iff.1 ht
  obtain rfl := Option.some.inj ht
  obtain ⟨hheld, hk, hhandles⟩ := hs.letGo hu
  -- the handle moved from is as it was, and the other has no wrapper
  have hh : u.handles[h]? = some shared := by
    rw [hhandles, List.getElem?_set_ne hkh, hshared]
  have hk' : u.handles[k]? = some none := by rw [hhandles, List.getElem?_set_self hk]
  refine hheld.of_handles rfl rfl fun j ↦ ?_
  show some j ∈ (u.drop h).handles.set k shared ↔ _
  constructor
  · intro hj
    rcases List.mem_or_eq_of_mem_set hj with hj | hj
    · exact mem_of_mem_drop hj
    · rw [hj]
      exact List.mem_of_getElem? hh
  · intro hj
    rcases eq_or_ne (some j) shared with rfl | hne
    · refine List.mem_iff_getElem?.2 ⟨k, List.getElem?_set_self ?_⟩
      rwa [drop, List.length_set, hhandles, List.length_set]
    · obtain ⟨p, hp⟩ := List.mem_iff_getElem?.1 (mem_drop_of_ne hh hne hj)
      have hpk : k ≠ p := by
        rintro rfl
        rw [drop, List.getElem?_set_ne (Ne.symm hkh), hk'] at hp
        exact absurd hp (by simp)
      exact List.mem_iff_getElem?.2 ⟨p, (List.getElem?_set_ne hpk).trans hp⟩

/-! ### Constructors -/

variable {c : Construction} {answer : ℤ × ℤ} {r : Except Exn ℕ}

theorem Held.registerRead (hs : s.Held) (ht : s.registerRead h = some t) :
    t.Held ∧ t.owner = s.owner ∧ ∀ j, t.holds j = s.holds j := by
  obtain ⟨⟨i, w⟩, hw, heq⟩ := Option.bind_eq_some_iff.1 ht
  obtain rfl := Option.some.inj heq
  exact ⟨hs.congr rfl rfl (wrapperOf_eq hw) rfl rfl rfl, rfl, fun _ ↦ rfl⟩

/-- **What `FileDescriptor(n)` does** with a number that the kernel has just opened. -/
theorem Held.opens_wrap (hs : s.Held) {n : ℤ} (hw : FDWrapper.ofFd n = .ok w)
    (ht : s.step (.wrap n) = some t) : s.Opens s.handles.length t := by
  rw [Descriptors.step, hw] at ht
  dsimp only at ht
  split at ht
  · exact absurd ht (by simp)
  rename_i hopen
  obtain rfl := Option.some.inj ht
  refine ⟨n, s.wrappers.length, Option.not_isSome_iff_eq_none.1 hopen, rfl, fun j hj ↦ ?_,
    holds_length s, ?_, fun j hj ↦ ?_⟩
  · exact Nat.lt_irrefl _ (hs.handle_lt _ (mem_handles_iff.2 ⟨j, hj⟩))
  · rw [holds_concat (s := s) rfl, if_pos rfl]
  · rw [holds_concat (s := s) rfl, if_neg hj]

/-- The call fails or gives an invalid number, or the number is wrapped. -/
theorem Held.wrapNumber (hs : s.Held) {number : Except Exn ℤ}
    (h : s.wrapNumber number = some (r, t)) :
    t.Held ∧ ((∃ e, r = .error e ∧ t = s) ∨ ∃ k, r = .ok k ∧ s.Opens k t) := by
  cases number with
  | error e =>
    obtain ⟨rfl, rfl⟩ := Prod.mk.inj (Option.some.inj h)
    exact ⟨hs, Or.inl ⟨e, rfl, rfl⟩⟩
  | ok n =>
    rw [Descriptors.wrapNumber] at h
    rcases hw : FDWrapper.ofFd n with e | w
    · simp only [hw] at h
      obtain ⟨rfl, rfl⟩ := Prod.mk.inj (Option.some.inj h)
      exact ⟨hs, Or.inl ⟨e, rfl, rfl⟩⟩
    · simp only [hw] at h
      obtain ⟨u, hu, heq⟩ := Option.bind_eq_some_iff.1 h
      obtain ⟨rfl, rfl⟩ := Prod.mk.inj (Option.some.inj heq)
      exact ⟨hs.step hu, Or.inr ⟨_, rfl, hs.opens_wrap hw hu⟩⟩

theorem Opens.of_holds (h : s'.Opens k t) (ho : s'.owner = s.owner)
    (hh : ∀ j, s'.holds j = s.holds j) : s.Opens k t := by
  obtain ⟨n, i, hnone, howner, hnew, hk, hhandle, hothers⟩ := h
  refine ⟨n, i, ho ▸ hnone, ho ▸ howner, fun j ↦ hh j ▸ hnew j, hh k ▸ hk, hhandle, fun j hj ↦ ?_⟩
  rw [hothers j hj, hh]

/-- A number is opened for a temporary handle, which is then moved from. -/
theorem Opens.moveConstruct {u : Descriptors} (h : s.Opens i t)
    (hu : t.moveConstruct i = some u) : s.Opens t.handles.length u := by
  obtain ⟨n, j, hnone, howner, hnew, htemporary, hheld, hothers⟩ := h
  obtain ⟨j', hj', hk, hhandle, hempty, hrest, howner'⟩ := takesOver_moveConstruct hheld hu
  obtain rfl := Option.some.inj (hheld.symm.trans hj')
  have hne : t.handles.length ≠ i := by
    rintro rfl
    exact absurd (hk.symm.trans hheld) (by simp)
  refine ⟨n, j, hnone, howner'.trans howner, hnew, (hothers _ hne).symm.trans hk, hhandle, ?_⟩
  intro l hl
  rcases eq_or_ne l i with rfl | hli
  · exact hempty.trans htemporary.symm
  · exact (hrest l hl hli).trans (hothers l hli)

/-- **Everything the construction of the base class can do**: it throws and has changed nothing, or
there is a handle. -/
theorem Held.constructBase (hs : s.Held) (hbase : s.constructBase answer c = some (r, t)) :
    t.Held ∧ ((∃ e, r = .error e ∧ ∀ report, c.Undone s report t) ∨
      ∃ k, r = .ok k ∧ c.Succeeds s k t) := by
  cases c with
  | socket | tunTap =>
    obtain ⟨hheld, ⟨e, rfl, rfl⟩ | ⟨k, rfl, hopens⟩⟩ := hs.wrapNumber hbase
    · exact ⟨hheld, Or.inl ⟨e, rfl, fun _ ↦ ⟨rfl, fun _ ↦ rfl⟩⟩⟩
    · exact ⟨hheld, Or.inr ⟨k, rfl, hopens⟩⟩
  | adopt h =>
    obtain ⟨⟨i, w⟩, hw, hrest⟩ := Option.bind_eq_some_iff.1 hbase
    obtain ⟨u, hu, heq⟩ := Option.bind_eq_some_iff.1 hrest
    obtain ⟨rfl, rfl⟩ := Prod.mk.inj (Option.some.inj heq)
    have hover := takesOver_moveConstruct (holds_of_wrapperOf hw) hu
    exact ⟨hs.moveConstruct hu, Or.inr ⟨_, rfl, hover⟩⟩
  | accept h =>
    obtain ⟨s₁, hread, hrest⟩ := Option.bind_eq_some_iff.1 hbase
    obtain ⟨⟨r', u⟩, hwrap, hmove⟩ := Option.bind_eq_some_iff.1 hrest
    obtain ⟨hs₁, howner, hholds⟩ := hs.registerRead hread
    obtain ⟨hheld, ⟨e, rfl, rfl⟩ | ⟨k, rfl, hopens⟩⟩ := hs₁.wrapNumber hwrap
    · obtain ⟨rfl, rfl⟩ := Prod.mk.inj (Option.some.inj hmove)
      exact ⟨hheld, Or.inl ⟨e, rfl, fun _ ↦ ⟨howner, hholds⟩⟩⟩
    · obtain ⟨v, hv, heq⟩ := Option.bind_eq_some_iff.1 hmove
      obtain ⟨rfl, rfl⟩ := Prod.mk.inj (Option.some.inj heq)
      have hover := hopens.moveConstruct hv
      exact ⟨hheld.moveConstruct hv, Or.inr ⟨_, rfl, hover.of_holds howner hholds⟩⟩

/-! ### Constructors that throw -/

/-- A handle that was made for a number is destroyed: it is the only one, so the number is closed
again. -/
theorem Opens.undone {u : Descriptors} (h : s.Opens k t) (ht : t.Held)
    (hu : t.step (.destroy k report) = some u) :
    u.owner = s.owner ∧ ∀ j, u.holds j = s.holds j := by
  obtain ⟨n, i, hnone, howner, hnew, hk, hhandle, hothers⟩ := h
  have hn : t.owner n = some i := by rw [howner, Function.update_self]
  obtain ⟨w, hwrapper, hfd, hclosed⟩ := ht.wrapper n i hn
  have hw : t.wrapperOf k = some (i, w) := by
    rw [wrapperOf, show (t.handles[k]?).join = some i from hhandle, Option.bind_eq_bind,
      Option.bind_some, hwrapper]
    rfl
  have hdrop : ∀ j, (t.drop k).holds j = s.holds j := by
    intro j
    rw [holds_drop]
    split
    · rename_i hj
      rw [hj, hk]
    · rename_i hj
      exact hothers j hj
  have hlast : ¬ (some i ∈ (t.drop k).handles ∨ w.closed = true) := by
    rintro (hmem | hyes)
    · obtain ⟨j, hj⟩ := mem_handles_iff.1 hmem
      exact hnew j ((hdrop j).symm.trans hj)
    · exact absurd (hclosed.symm.trans hyes) (by simp)
  rw [step_destroy hw, if_neg hlast] at hu
  obtain rfl := Option.some.inj hu
  obtain ⟨w', -, hclose⟩ := closeWrapper_eq (s := t.drop k) hwrapper report
  rw [hclose]
  refine ⟨?_, hdrop⟩
  show Function.update t.owner w.fd none = s.owner
  rw [howner, hfd, Function.update_idem, ← hnone, Function.update_eq_self]

/-- `close()` does not look at the handles. -/
theorem closeWrapper_handles (s : Descriptors) (handles : List (Option ℕ)) (i : ℕ) (w : FDWrapper)
    (report : Option ℤ) : (closeWrapper { s with handles } i w report).2 =
      { (s.closeWrapper i w report).2 with handles } := by
  have hanswer : closeAnswer { s with handles } w.fd report = s.closeAnswer w.fd report := rfl
  rw [closeWrapper, closeWrapper, hanswer]
  dsimp only
  rcases systemCall "close" (s.closeAnswer w.fd report).1 (s.closeAnswer w.fd report).2 <;> rfl

/-- A handle that was moved to is destroyed, instead of the one that was moved from. -/
theorem destroy_moveConstruct {u : Descriptors} (hw : s.wrapperOf h = some (i, w))
    (ht : s.moveConstruct h = some t) (hu : t.step (.destroy s.handles.length report) = some u) :
    ∃ v, s.step (.destroy h report) = some v ∧ u = { v with handles := v.handles ++ [none] } := by
  obtain ⟨shared, hshared, rfl⟩ := moveConstruct_eq ht
  obtain rfl := Option.some.inj (hshared.symm.trans (getElem?_of_wrapperOf hw).1)
  have hlength : (s.drop h).handles.length = s.handles.length := List.length_set
  have hw' : wrapperOf { s.drop h with handles := (s.drop h).handles ++ [some i] }
      s.handles.length = some (i, w) := by
    rw [wrapperOf, ← hlength, List.getElem?_concat_length, Option.join_some, Option.bind_eq_bind,
      Option.bind_some, show (s.drop h).wrappers[i]? = some w from wrapperOf_eq (s := s) hw]
    rfl
  have hdrop : drop { s.drop h with handles := (s.drop h).handles ++ [some i] }
      s.handles.length = { s.drop h with handles := (s.drop h).handles ++ [none] } := by
    rw [drop, ← hlength, List.set_append_right _ _ le_rfl, Nat.sub_self]
    rfl
  have hmem : some i ∈ (s.drop h).handles ++ [none] ↔ some i ∈ (s.drop h).handles := by simp
  rw [step_destroy hw', hdrop] at hu
  refine ⟨_, step_destroy hw report, ?_⟩
  obtain rfl := Option.some.inj hu
  simp only [hmem]
  split
  · rfl
  · rw [closeWrapper_handles, handles_closeWrapper]

/-- **Everything a constructor can do.** -/
theorem Held.construct (hs : s.Held) (h : s.construct c answer report = some (r, t)) :
    t.Held ∧ ((∃ e, r = .error e ∧ c.Undone s report t) ∨
      ∃ k, r = .ok k ∧ c.check = .ok () ∧ c.Succeeds s k t) := by
  obtain ⟨⟨r', u⟩, hbase, hrest⟩ := Option.bind_eq_some_iff.1 h
  obtain ⟨hu, ⟨e, rfl, hundone⟩ | ⟨k, rfl, hsucceeds⟩⟩ := hs.constructBase hbase
  · obtain ⟨rfl, rfl⟩ := Prod.mk.inj (Option.some.inj hrest)
    exact ⟨hu, Or.inl ⟨e, rfl, hundone report⟩⟩
  rcases hcheck : c.check with e | ⟨⟩
  · simp only [hcheck] at hrest
    obtain ⟨v, hv, heq⟩ := Option.bind_eq_some_iff.1 hrest
    obtain ⟨rfl, rfl⟩ := Prod.mk.inj (Option.some.inj heq)
    refine ⟨hu.step hv, Or.inl ⟨e, rfl, ?_⟩⟩
    cases c with
    | socket | accept | tunTap => exact Opens.undone hsucceeds hu hv
    | adopt h =>
      obtain ⟨⟨i, w⟩, hw, hmove⟩ := Option.bind_eq_some_iff.1 hbase
      obtain ⟨x, hx, heq⟩ := Option.bind_eq_some_iff.1 hmove
      obtain ⟨hk, rfl⟩ := Prod.mk.inj (Option.some.inj heq)
      obtain rfl := Except.ok.inj hk
      exact destroy_moveConstruct hw hx hv
  · simp only [hcheck] at hrest
    obtain ⟨rfl, rfl⟩ := Prod.mk.inj (Option.some.inj hrest)
    exact ⟨hu, Or.inr ⟨k, rfl, rfl, hsucceeds⟩⟩

/-! ### Runs -/

theorem Held.programStep (hs : s.Held) {op : ProgramOp} (h : s.programStep op = some s') :
    s'.Held := by
  cases op with
  | plain op => exact hs.step h
  | moveConstruct => exact hs.moveConstruct h
  | moveAssign => exact hs.moveAssign h
  | construct c answer report =>
    obtain ⟨⟨r, t⟩, ht, rfl⟩ := Option.map_eq_some_iff.1 h
    exact (hs.construct ht).1

/-- **No descriptor is leaked**, in every run of a program that uses the classes and moves their
objects, with every answer of the kernel: an open number has a handle, so that none is open when all
handles are gone; and a constructor gives its caller a new handle and has checked what it is for, or
it throws and leaves nothing behind. -/
theorem program_held (ops : List ProgramOp) (s : Descriptors)
    (h : exec programStep ops init = some s) :
    (∀ n i, s.owner n = some i → ∃ k, s.holds k = some i) ∧
    ((∀ k, s.holds k = none) → ∀ n, s.owner n = none) ∧
    ∀ c answer report r t, s.construct c answer report = some (r, t) →
      (∀ e, r = .error e → c.Undone s report t) ∧
      ∀ k, r = .ok k → c.check = .ok () ∧ c.Succeeds s k t := by
  have hs : s.Held := exec_inv (fun _ _ _ hs hstep ↦ hs.programStep hstep) held_init h
  have hhandle : ∀ n i, s.owner n = some i → ∃ k, s.holds k = some i :=
    fun n i hn ↦ mem_handles_iff.1 (hs.handle n i hn)
  refine ⟨hhandle, fun hnone n ↦ ?_, fun c answer report r t ht ↦ ?_⟩
  · rcases howner : s.owner n with - | i
    · rfl
    · obtain ⟨k, hk⟩ := hhandle n i howner
      exact absurd ((hnone k).symm.trans hk) (by simp)
  · rcases (hs.construct ht).2 with ⟨e, rfl, hundone⟩ | ⟨k, rfl, hcheck, hsucceeds⟩
    · exact ⟨fun _ _ ↦ hundone, fun _ hok ↦ nomatch hok⟩
    · refine ⟨fun _ herror ↦ (nomatch herror), fun k' hok ↦ ⟨hcheck, ?_⟩⟩
      obtain rfl := Except.ok.inj hok
      exact hsucceeds

/-- A listening socket accepts a connection of another domain, and is then itself moved into a
socket of that domain: both constructors throw, and no number is open. -/
theorem program_held_accept :
    let inet : SockoptAnswer := ⟨0, 0, afInet, 4⟩
    let other : SockoptAnswer := ⟨0, 0, SocketClass.afUnix, 4⟩
    ∃ s, exec programStep [.construct .socket (3, 0) none,
        .construct (.accept 0 other other) (4, 0) none,
        .construct (.localStream 0 inet inet) (0, 0) none] init = some s ∧
      (∀ k, s.holds k = none) ∧ ∀ n, s.owner n = none := by
  intro inet other
  obtain ⟨s, hs, hhandles⟩ : ∃ s, exec programStep [.construct .socket (3, 0) none,
      .construct (.accept 0 other other) (4, 0) none,
      .construct (.localStream 0 inet inet) (0, 0) none] init = some s ∧
      s.handles = [none, none, none, none] := ⟨_, rfl, rfl⟩
  have hnone : ∀ k, s.holds k = none := by
    intro k
    rcases hk : s.holds k with - | i
    · rfl
    · have hmem := mem_handles_iff.2 ⟨k, hk⟩
      simp [hhandles] at hmem
  exact ⟨s, hs, hnone, (program_held _ s hs).2.1 hnone⟩

end Descriptors
