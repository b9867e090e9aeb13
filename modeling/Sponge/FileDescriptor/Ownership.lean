import Mathlib.Logic.Function.Basic
import Sponge.FileDescriptor.Basic
import Sponge.Lib.Machine

/-!
# Who closes a descriptor number

The life of descriptor numbers under any interleaving of wrapping, `duplicate()`, `close()` and the
destruction of handles. The kernel reuses the numbers it gets back, so a `::close` too many does not
only fail: if the number has been given out again in the meantime, it takes it away from whoever has
it now.

The destructor asks `_closed` before it closes; **`close()` does not**, and it sets `_closed` only
after a `::close` that reported success, although the kernel has released the number either way. So
there are two ways to a second `::close` by the same wrapper: calling `close()` again, through the
same handle or a duplicate, and destroying the last handle after a `close()` that threw.

The state keeps a history of the calls of `::close`, each with the wrapper that the number belonged
to at the time; the kernel's table has that wrapper as the owner of the number.
-/

open Machine

/-- A call of `::close`, in the history. -/
structure CloseCall where
  /-- The wrapper that made the call. -/
  wrapper : ℕ
  /-- The wrapper that the number belonged to at that time, if the number was open. -/
  owner : Option ℕ
  /-- Whether that wrapper had been closed. -/
  ownerClosed : Bool
  deriving DecidableEq, Repr

namespace CloseCall

/-- The call is on a number of another wrapper that has not been closed. -/
def Foreign (c : CloseCall) : Prop := ∃ j, c.owner = some j ∧ j ≠ c.wrapper ∧ c.ownerClosed = false

/-- The call releases the number. -/
def releases (c : CloseCall) : Bool := c.owner.isSome

end CloseCall

/-- The kernel's table, the objects of the program, and the history. -/
structure Descriptors where
  /-- The open numbers, with the wrapper that each was opened for. -/
  owner : ℤ → Option ℕ
  /-- All wrappers ever constructed. -/
  wrappers : List FDWrapper
  /-- The handles: the wrapper that each shares, until it is destroyed. -/
  handles : List (Option ℕ)
  calls : List CloseCall

namespace Descriptors

/-! ### The model -/

/-- `EBADF`. -/
def ebadf : ℤ := 9

def init : Descriptors := ⟨fun _ ↦ none, [], [], []⟩

/-- The return value and `errno` of `::close(n)`. On an open number the kernel may report an error;
on any other it fails with `EBADF`. -/
def closeAnswer (s : Descriptors) (n : ℤ) (report : Option ℤ) : ℤ × ℤ :=
  if (s.owner n).isNone then (-1, ebadf) else statusAnswer report

/-- The entry in the history for a call of `::close` by the `i`-th wrapper. -/
def closeCall (s : Descriptors) (i : ℕ) (w : FDWrapper) : CloseCall where
  wrapper := i
  owner := s.owner w.fd
  ownerClosed := ((s.owner w.fd).bind (s.wrappers[·]?)).any FDWrapper.closed

/-- The wrapper has called `::close`: the number is released, whatever is reported. -/
def release (s : Descriptors) (i : ℕ) (w : FDWrapper) : Descriptors :=
  { s with
    owner := Function.update s.owner w.fd none
    calls := s.calls ++ [s.closeCall i w] }

/-- `FDWrapper::close()` on the `i`-th wrapper. -/
def closeWrapper (s : Descriptors) (i : ℕ) (w : FDWrapper) (report : Option ℤ) :
    Except Exn Unit × Descriptors :=
  let (returnValue, errno) := s.closeAnswer w.fd report
  let s := s.release i w
  match systemCall "close" returnValue errno with
  | .error e => (.error e, s)
  | .ok _ =>
    (.ok (), { s with wrappers := s.wrappers.set i { w with eof := true, closed := true } })

/-- The wrapper that a handle shares. -/
def wrapperOf (s : Descriptors) (h : ℕ) : Option (ℕ × FDWrapper) := do
  let i ← (s.handles[h]?).join
  let w ← s.wrappers[i]?
  pure (i, w)

/-- The steps. A step that calls `::close` comes with what the kernel reports in case the number is
open: nothing, or an `errno`. -/
inductive Op where
  /-- Wrap the newly opened number `n` in a `FileDescriptor`. -/
  | wrap (n : ℤ)
  | duplicate (h : ℕ)
  | close (h : ℕ) (report : Option ℤ)
  | destroy (h : ℕ) (report : Option ℤ)
  deriving DecidableEq, Repr

/-- The handle `h` is gone. -/
def drop (s : Descriptors) (h : ℕ) : Descriptors := { s with handles := s.handles.set h none }

/-- The wrapper that a step makes call `::close`, if any: every `close()`, and the destruction of
the last handle of a wrapper that is not `_closed`. -/
def closing (s : Descriptors) : Op → Option (ℕ × FDWrapper)
  | .wrap _ => none
  | .duplicate _ => none
  | .close h _ => s.wrapperOf h
  | .destroy h _ => do
    let (i, w) ← s.wrapperOf h
    if some i ∈ (s.drop h).handles ∨ w.closed then none else pure (i, w)

/-- One step; `none` if it cannot be taken, because there is no such handle or the number is already
open. An exception is thrown to the caller by `close()` and swallowed by the destructor; either way
the state stays as it is at that point. -/
def step (s : Descriptors) : Op → Option Descriptors
  | .wrap n =>
    match FDWrapper.ofFd n with
    | .error _ => some s
    | .ok w =>
      if (s.owner n).isSome then none
      else some { s with
        owner := Function.update s.owner n (some s.wrappers.length)
        wrappers := s.wrappers ++ [w]
        handles := s.handles ++ [some s.wrappers.length] }
  | .duplicate h => do
    let (i, _) ← s.wrapperOf h
    pure { s with handles := s.handles ++ [some i] }
  | .close h report => do
    let (i, w) ← s.wrapperOf h
    pure (s.closeWrapper i w report).2
  | .destroy h report => do
    let (i, w) ← s.wrapperOf h
    if some i ∈ (s.drop h).handles ∨ w.closed then pure (s.drop h)
    else pure ((s.drop h).closeWrapper i w report).2

/-- **What is asked for**: a number is closed only by the wrapper it belongs to, and each wrapper
releases its number at most once. The history has the whole run, so this is about all its states. -/
structure Safe (s : Descriptors) : Prop where
  not_foreign : ∀ c ∈ s.calls, ¬ c.Foreign
  releases_once : ∀ i, (s.calls.filter fun c ↦ c.wrapper == i && c.releases).length ≤ 1

/-- The condition on a step: a wrapper that has called `::close` before calls it again only while
its number is not open. -/
def Harmless (s : Descriptors) (op : Op) : Prop :=
  ∀ i w, s.closing op = some (i, w) → (∃ c ∈ s.calls, c.wrapper = i) → s.owner w.fd = none

instance (s : Descriptors) (op : Op) : Decidable (s.Harmless op) :=
  match h : s.closing op with
  | none => isTrue fun _ _ hclosing ↦ nomatch h.symm.trans hclosing
  | some (i, w) =>
    decidable_of_iff ((∃ c ∈ s.calls, c.wrapper = i) → s.owner w.fd = none)
      ⟨fun himp j v hclosing ↦ by
          obtain ⟨rfl, rfl⟩ := Prod.mk.inj (Option.some.inj (h.symm.trans hclosing))
          exact himp,
        fun hharm ↦ hharm i w h⟩

/-! ### What a step does -/

variable {s s' : Descriptors} {op : Op}

theorem wrapperOf_eq {h i : ℕ} {w : FDWrapper} (hw : s.wrapperOf h = some (i, w)) :
    s.wrappers[i]? = some w := by
  obtain ⟨j, -, hj⟩ := Option.bind_eq_some_iff.1 hw
  obtain ⟨v, hv, heq⟩ := Option.bind_eq_some_iff.1 hj
  obtain ⟨rfl, rfl⟩ := Prod.mk.inj (Option.some.inj heq)
  exact hv

theorem ofFd_eq {n : ℤ} {w : FDWrapper} (h : FDWrapper.ofFd n = .ok w) :
    w.fd = n ∧ w.closed = false := by
  rw [FDWrapper.ofFd] at h
  split at h
  · cases h
  · obtain rfl := Except.ok.inj h
    exact ⟨rfl, rfl⟩

/-- `close()` releases the number and writes to at most its own wrapper, whose number stays. -/
theorem closeWrapper_eq {i : ℕ} {w : FDWrapper} (hw : s.wrappers[i]? = some w)
    (report : Option ℤ) : ∃ w', w'.fd = w.fd ∧
      (s.closeWrapper i w report).2 = { s.release i w with wrappers := s.wrappers.set i w' } := by
  rw [closeWrapper]
  dsimp only
  split
  · obtain ⟨hi, rfl⟩ := List.getElem?_eq_some_iff.1 hw
    refine ⟨_, rfl, ?_⟩
    rw [List.set_getElem_self]
    rfl
  · exact ⟨{ w with eof := true, closed := true }, rfl, rfl⟩

theorem closing_destroy {k i : ℕ} {w : FDWrapper} (hw : s.wrapperOf k = some (i, w))
    (report : Option ℤ) :
    s.closing (.destroy k report) =
      if some i ∈ (s.drop k).handles ∨ w.closed then none else some (i, w) := by
  rw [closing, hw, Option.bind_eq_bind, Option.bind_some]
  rfl

/-- **Everything a step can do** to numbers, wrappers and history: nothing; give out a number that
is not open to a new wrapper; or call `::close` for one wrapper. -/
theorem step_cases (h : s.step op = some s') :
    (s.closing op = none ∧ s'.owner = s.owner ∧ s'.wrappers = s.wrappers ∧ s'.calls = s.calls) ∨
    (∃ w, s.closing op = none ∧ w.closed = false ∧ s.owner w.fd = none ∧
      s'.owner = Function.update s.owner w.fd (some s.wrappers.length) ∧
      s'.wrappers = s.wrappers ++ [w] ∧ s'.calls = s.calls) ∨
    ∃ i w w', s.closing op = some (i, w) ∧ s.wrappers[i]? = some w ∧ w'.fd = w.fd ∧
      s'.owner = Function.update s.owner w.fd none ∧ s'.wrappers = s.wrappers.set i w' ∧
      s'.calls = s.calls ++ [s.closeCall i w] := by
  cases op with
  | wrap n =>
    rw [step] at h
    split at h
    · obtain rfl := Option.some.inj h
      exact Or.inl ⟨rfl, rfl, rfl, rfl⟩
    · rename_i w hw
      obtain ⟨rfl, hclosed⟩ := ofFd_eq hw
      split at h
      · cases h
      · rename_i hopen
        obtain rfl := Option.some.inj h
        exact Or.inr (Or.inl
          ⟨w, rfl, hclosed, Option.not_isSome_iff_eq_none.1 hopen, rfl, rfl, rfl⟩)
  | duplicate k =>
    obtain ⟨⟨i, w⟩, -, heq⟩ := Option.bind_eq_some_iff.1 h
    obtain rfl := Option.some.inj heq
    exact Or.inl ⟨rfl, rfl, rfl, rfl⟩
  | close k report =>
    obtain ⟨⟨i, w⟩, hw, heq⟩ := Option.bind_eq_some_iff.1 h
    obtain rfl := Option.some.inj heq
    obtain ⟨w', hfd, hclose⟩ := closeWrapper_eq (wrapperOf_eq hw) report
    refine Or.inr (Or.inr ⟨i, w, w', hw, wrapperOf_eq hw, hfd, ?_⟩)
    show ((s.closeWrapper i w report).2).owner = _ ∧ _
    rw [hclose]
    exact ⟨rfl, rfl, rfl⟩
  | destroy k report =>
    obtain ⟨⟨i, w⟩, hw, heq⟩ := Option.bind_eq_some_iff.1 h
    by_cases hkeep : some i ∈ (s.drop k).handles ∨ w.closed = true
    · -- the wrapper lives on, or it is closed and its destructor does nothing
      have hclosing : s.closing (.destroy k report) = none :=
        (closing_destroy hw report).trans (if_pos hkeep)
      obtain rfl := Option.some.inj ((if_pos hkeep).symm.trans heq)
      exact Or.inl ⟨hclosing, rfl, rfl, rfl⟩
    · have hclosing : s.closing (.destroy k report) = some (i, w) :=
        (closing_destroy hw report).trans (if_neg hkeep)
      obtain rfl := Option.some.inj ((if_neg hkeep).symm.trans heq)
      have hwrapper : s.wrappers[i]? = some w := wrapperOf_eq hw
      obtain ⟨w', hfd, hclose⟩ := closeWrapper_eq (s := s.drop k) hwrapper report
      refine Or.inr (Or.inr ⟨i, w, w', hclosing, hwrapper, hfd, ?_⟩)
      rw [hclose]
      exact ⟨rfl, rfl, rfl⟩

/-- The history only grows. -/
theorem Safe.of_step (h : s.step op = some s') (hsafe : s'.Safe) : s.Safe := by
  obtain ⟨more, hcalls⟩ : ∃ more, s'.calls = s.calls ++ more := by
    rcases step_cases h with ⟨-, -, -, hc⟩ | ⟨w, -, -, -, -, -, hc⟩ | ⟨i, w, w', -, -, -, -, -, hc⟩
    · exact ⟨[], by rw [hc, List.append_nil]⟩
    · exact ⟨[], by rw [hc, List.append_nil]⟩
    · exact ⟨_, hc⟩
  refine ⟨fun c hc ↦ hsafe.not_foreign c (hcalls ▸ List.mem_append_left more hc), fun i ↦ ?_⟩
  have honce := hsafe.releases_once i
  rw [hcalls, List.filter_append, List.length_append] at honce
  exact Nat.le_trans (Nat.le_add_right _ _) honce

/-! ### Ownership -/

/-- **The invariant.** Every open number belongs to a wrapper for it that is not closed; a wrapper
has its number exactly until it calls `::close`. -/
structure Owned (s : Descriptors) : Prop where
  safe : s.Safe
  wrapper_of_owner : ∀ n i, s.owner n = some i →
    ∃ w, s.wrappers[i]? = some w ∧ w.fd = n ∧ w.closed = false
  owner_of_wrapper : ∀ i w, s.wrappers[i]? = some w → (∀ c ∈ s.calls, c.wrapper ≠ i) →
    s.owner w.fd = some i
  not_owner : ∀ c ∈ s.calls, ∀ n, s.owner n ≠ some c.wrapper
  wrapper_lt : ∀ c ∈ s.calls, c.wrapper < s.wrappers.length

theorem owned_init : init.Owned where
  safe := ⟨fun _ hc ↦ absurd hc List.not_mem_nil, fun _ ↦ Nat.zero_le 1⟩
  wrapper_of_owner _ _ h := nomatch h
  owner_of_wrapper _ _ h := nomatch h
  not_owner _ hc := absurd hc List.not_mem_nil
  wrapper_lt _ hc := absurd hc List.not_mem_nil

/-- The history decides whether a run is safe. -/
theorem Safe.congr (h : s.Safe) (hc : s'.calls = s.calls) : s'.Safe where
  not_foreign := hc ▸ h.not_foreign
  releases_once := hc ▸ h.releases_once

/-- A call that is by another wrapper, or on a number that is not open, is no release by `k`. -/
theorem filter_closeCall_eq_nil {i k : ℕ} {w : FDWrapper} (h : k ≠ i ∨ s.owner w.fd = none) :
    ([s.closeCall i w].filter fun c ↦ c.wrapper == k && c.releases) = [] := by
  refine List.filter_eq_nil_iff.2 fun c hmem htrue ↦ ?_
  obtain rfl := List.mem_singleton.1 hmem
  obtain ⟨hwrapper, hreleases⟩ := Bool.and_eq_true_iff.1 htrue
  rcases h with hk | hnone
  · exact hk (eq_of_beq hwrapper).symm
  · have hsome : (s.owner w.fd).isSome = true := hreleases
    exact absurd hsome (by simp [hnone])

/-- One more call, by a wrapper that has its number and calls for the first time, or on a number
that is not open. -/
theorem Safe.concat (h : s.Safe) {i : ℕ} {w : FDWrapper}
    (hown : (s.owner w.fd = some i ∧ ∀ c ∈ s.calls, c.wrapper ≠ i) ∨ s.owner w.fd = none)
    (hc : s'.calls = s.calls ++ [s.closeCall i w]) : s'.Safe := by
  constructor
  · intro c hmem
    rw [hc] at hmem
    rcases List.mem_append.1 hmem with hmem | hmem
    · exact h.not_foreign c hmem
    · obtain rfl := List.mem_singleton.1 hmem
      rintro ⟨j, hj, hne, -⟩
      have hj' : s.owner w.fd = some j := hj
      rcases hown with ⟨hi, -⟩ | hnone
      · exact hne (Option.some.inj (hj'.symm.trans hi))
      · exact absurd (hnone.symm.trans hj') (by simp)
  · intro k
    have hold := h.releases_once k
    rw [hc, List.filter_append, List.length_append]
    rcases hown with ⟨-, hno⟩ | hnone
    · rcases eq_or_ne k i with rfl | hk
      · -- the first call of this wrapper
        have hnil : (s.calls.filter fun c ↦ c.wrapper == k && c.releases) = [] :=
          List.filter_eq_nil_iff.2 fun c hmem htrue ↦
            hno c hmem (eq_of_beq (Bool.and_eq_true_iff.1 htrue).1)
        rw [hnil, List.length_nil, Nat.zero_add]
        exact List.length_filter_le _ [s.closeCall k w]
      · rwa [filter_closeCall_eq_nil (Or.inl hk), List.length_nil, Nat.add_zero]
    · rwa [filter_closeCall_eq_nil (Or.inr hnone), List.length_nil, Nat.add_zero]

/-- A number belongs to a wrapper for it. -/
theorem Owned.fd_eq (h : s.Owned) {n : ℤ} {i : ℕ} {w : FDWrapper} (hn : s.owner n = some i)
    (hw : s.wrappers[i]? = some w) : w.fd = n := by
  obtain ⟨v, hv, hvfd, -⟩ := h.wrapper_of_owner n i hn
  obtain rfl := Option.some.inj (hw.symm.trans hv)
  exact hvfd

/-- Whose number is open after the number `m` was opened or closed. -/
theorem owner_of_update {n m : ℤ} {v : Option ℕ} {j : ℕ}
    (h : Function.update s.owner m v n = some j) :
    (n = m ∧ v = some j) ∨ (n ≠ m ∧ s.owner n = some j) := by
  rcases eq_or_ne n m with rfl | hne
  · rw [Function.update_self] at h
    exact Or.inl ⟨rfl, h⟩
  · rw [Function.update_of_ne hne] at h
    exact Or.inr ⟨hne, h⟩

/-- A new wrapper owns the number it was opened with. -/
theorem Owned.wrap (h : s.Owned) {w : FDWrapper} (hclosed : w.closed = false)
    (hnone : s.owner w.fd = none)
    (ho : s'.owner = Function.update s.owner w.fd (some s.wrappers.length))
    (hws : s'.wrappers = s.wrappers ++ [w]) (hc : s'.calls = s.calls) : s'.Owned where
  safe := h.safe.congr hc
  wrapper_of_owner := by
    intro n i hn
    rw [hws]
    rw [ho] at hn
    rcases owner_of_update hn with ⟨rfl, hnew⟩ | ⟨-, hold⟩
    · obtain rfl := Option.some.inj hnew
      exact ⟨w, List.getElem?_concat_length, rfl, hclosed⟩
    · obtain ⟨v, hv, hvfd, hvclosed⟩ := h.wrapper_of_owner n i hold
      exact ⟨v, List.getElem?_append_left (List.getElem?_eq_some_iff.1 hv).1 ▸ hv, hvfd, hvclosed⟩
  owner_of_wrapper := by
    intro i v hv hno
    rw [hws] at hv
    rw [hc] at hno
    rw [ho]
    rcases Nat.lt_or_ge i s.wrappers.length with hi | hi
    · -- an old wrapper that still has its number, which was open and so is not the new one
      rw [List.getElem?_append_left hi] at hv
      have hown := h.owner_of_wrapper i v hv hno
      have hfd : v.fd ≠ w.fd := fun heq ↦ by
        rw [heq, hnone] at hown
        cases hown
      rw [Function.update_of_ne hfd, hown]
    · have hlt := (List.getElem?_eq_some_iff.1 hv).1
      rw [List.length_append, List.length_singleton] at hlt
      obtain rfl : i = s.wrappers.length := by omega
      obtain rfl := Option.some.inj (List.getElem?_concat_length.symm.trans hv)
      exact Function.update_self _ _ _
  not_owner := by
    intro c hmem n hn
    rw [hc] at hmem
    rw [ho] at hn
    rcases owner_of_update hn with ⟨-, hnew⟩ | ⟨-, hold⟩
    · exact absurd (Option.some.inj hnew) (Nat.ne_of_gt (h.wrapper_lt c hmem))
    · exact h.not_owner c hmem n hold
  wrapper_lt := by
    intro c hmem
    rw [hc] at hmem
    rw [hws, List.length_append]
    exact Nat.lt_add_right _ (h.wrapper_lt c hmem)

/-- A wrapper that calls `::close` while the condition holds does so for the first time and has its
number, or does it again on a number that is not open. -/
theorem Owned.first_or_idle (h : s.Owned) {i : ℕ} {w : FDWrapper} (hw : s.wrappers[i]? = some w)
    (hagain : (∃ c ∈ s.calls, c.wrapper = i) → s.owner w.fd = none) :
    (s.owner w.fd = some i ∧ ∀ c ∈ s.calls, c.wrapper ≠ i) ∨ s.owner w.fd = none := by
  by_cases hfirst : ∃ c ∈ s.calls, c.wrapper = i
  · exact Or.inr (hagain hfirst)
  · have hno : ∀ c ∈ s.calls, c.wrapper ≠ i := fun c hmem heq ↦ hfirst ⟨c, hmem, heq⟩
    exact Or.inl ⟨h.owner_of_wrapper i w hw hno, hno⟩

/-- A wrapper that calls `::close` gives up its number, or has done so before and does nothing. -/
theorem Owned.closed (h : s.Owned) {i : ℕ} {w w' : FDWrapper} (hw : s.wrappers[i]? = some w)
    (hagain : (∃ c ∈ s.calls, c.wrapper = i) → s.owner w.fd = none)
    (ho : s'.owner = Function.update s.owner w.fd none) (hws : s'.wrappers = s.wrappers.set i w')
    (hc : s'.calls = s.calls ++ [s.closeCall i w]) : s'.Owned := by
  have hown := h.first_or_idle hw hagain
  -- a number that is still open is not that of this wrapper
  have hother : ∀ n j, s'.owner n = some j → s.owner n = some j ∧ i ≠ j := by
    intro n j hn
    rw [ho] at hn
    rcases owner_of_update hn with ⟨-, hnone⟩ | ⟨hfd, hj⟩
    · exact absurd hnone (by simp)
    · refine ⟨hj, ?_⟩
      rintro rfl
      exact hfd (h.fd_eq hj hw).symm
  refine ⟨h.safe.concat hown hc, ?_, ?_, ?_, ?_⟩
  · intro n j hn
    obtain ⟨hj, hne⟩ := hother n j hn
    obtain ⟨v, hv, hvfd, hvclosed⟩ := h.wrapper_of_owner n j hj
    exact ⟨v, by rw [hws, List.getElem?_set_ne hne, hv], hvfd, hvclosed⟩
  · intro j v hv hno
    rw [hc] at hno
    have hne : i ≠ j := hno _ (List.mem_append_right _ List.mem_cons_self)
    rw [hws, List.getElem?_set_ne hne] at hv
    have hj := h.owner_of_wrapper j v hv fun c hmem ↦ hno c (List.mem_append_left _ hmem)
    have hfd : v.fd ≠ w.fd := fun heq ↦ by
      rw [heq] at hj
      rcases hown with ⟨hi, -⟩ | hnone
      · exact hne (Option.some.inj (hi.symm.trans hj))
      · exact absurd (hnone.symm.trans hj) (by simp)
    rw [ho, Function.update_of_ne hfd, hj]
  · intro c hmem n hn
    obtain ⟨hold, hne⟩ := hother n c.wrapper hn
    rw [hc] at hmem
    rcases List.mem_append.1 hmem with hmem | hmem
    · exact h.not_owner c hmem n hold
    · obtain rfl := List.mem_singleton.1 hmem
      exact hne rfl
  · intro c hmem
    rw [hws, List.length_set]
    rw [hc] at hmem
    rcases List.mem_append.1 hmem with hmem | hmem
    · exact h.wrapper_lt c hmem
    · obtain rfl := List.mem_singleton.1 hmem
      exact (List.getElem?_eq_some_iff.1 hw).1

/-- **The invariant survives a step** that meets the condition. -/
theorem Owned.step (h : s.Owned) (hharm : s.Harmless op) (hstep : s.step op = some s') :
    s'.Owned := by
  rcases step_cases hstep with ⟨-, ho, hws, hc⟩ | ⟨w, -, hclosed, hnone, ho, hws, hc⟩ |
    ⟨i, w, w', hclosing, hw, -, ho, hws, hc⟩
  · exact ⟨h.safe.congr hc, by rw [ho, hws]; exact h.wrapper_of_owner,
      by rw [ho, hws, hc]; exact h.owner_of_wrapper, by rw [ho, hc]; exact h.not_owner,
      by rw [hws, hc]; exact h.wrapper_lt⟩
  · exact h.wrap hclosed hnone ho hws hc
  · exact h.closed hw (hharm i w hclosing) ho hws hc

/-- **A step outside the condition does harm**: the number is open, and the wrapper that calls
`::close` gave up its own before. -/
theorem Owned.not_safe_of_step (h : s.Owned) (hharm : ¬ s.Harmless op)
    (hstep : s.step op = some s') : ¬ s'.Safe := by
  intro hsafe
  refine hharm fun i w hclosing hagain ↦ ?_
  rcases step_cases hstep with ⟨hno, -⟩ | ⟨v, hno, -⟩ | ⟨i', w₀, w', hclosing', -, -, -, -, hc⟩
  · rw [hno] at hclosing
    cases hclosing
  · rw [hno] at hclosing
    cases hclosing
  obtain ⟨rfl, rfl⟩ := Prod.mk.inj (Option.some.inj (hclosing'.symm.trans hclosing))
  by_contra hopen
  obtain ⟨j, hj⟩ := Option.ne_none_iff_exists'.1 hopen
  obtain ⟨c, hmem, hci⟩ := hagain
  obtain ⟨v, hv, -, hvclosed⟩ := h.wrapper_of_owner _ j hj
  refine hsafe.not_foreign (s.closeCall i' w₀)
    (hc ▸ List.mem_append_right _ List.mem_cons_self) ⟨j, hj, ?_, ?_⟩
  · rintro rfl
    exact h.not_owner c hmem _ (hci.symm ▸ hj)
  · show ((s.owner w₀.fd).bind (s.wrappers[·]?)).any FDWrapper.closed = false
    rw [hj, Option.bind_some, hv, Option.any_some, hvclosed]

/-! ### Runs -/

/-- **Exactly when numbers are closed by their owners only, and once.** Over every interleaving of
the steps, with every answer of the kernel, the run is safe if and only if, whenever a wrapper that
has called `::close` before calls it again, its number is not open at that time. -/
theorem close_safe_iff (ops : List Op) (s : Descriptors) (h : exec step ops init = some s) :
    s.Safe ↔ Along step Harmless ops init :=
  exec_iff_along (fun _ hs ↦ hs.safe) (fun _ _ _ hs hharm ↦ hs.step hharm)
    (fun _ _ _ hs hharm ↦ hs.not_safe_of_step hharm) (fun _ _ _ hstep hsafe ↦ hsafe.of_step hstep)
    owned_init h

/-- A `close()` that reports an error through a duplicate, and a second `::close` by the destructor:
the number has not been opened again, so the run is safe. -/
theorem close_safe_after_error :
    ∃ s, exec step [.wrap 3, .duplicate 0, .close 1 (some 5), .destroy 1 none, .wrap 4,
      .destroy 0 none] init = some s ∧ s.Safe := by
  obtain ⟨s, hs⟩ : ∃ s, exec step [.wrap 3, .duplicate 0, .close 1 (some 5), .destroy 1 none,
      .wrap 4, .destroy 0 none] init = some s := ⟨_, rfl⟩
  exact ⟨s, hs, (close_safe_iff _ s hs).2 (by decide)⟩

/-- **Two runs that close a foreign number**: `close()` twice, and the destruction of the last
handle after a `close()` that threw because the kernel reported `EINTR`; in both the number has been
opened again in between. -/
theorem close_foreign_number :
    (∃ s, exec step [.wrap 3, .close 0 none, .wrap 3, .close 0 none] init = some s ∧ ¬ s.Safe) ∧
    ∃ s, exec step [.wrap 3, .close 0 (some 4), .wrap 3, .destroy 0 none] init = some s ∧
      ¬ s.Safe := by
  have hforeign : CloseCall.Foreign ⟨0, some 1, false⟩ := ⟨1, rfl, by decide, rfl⟩
  exact ⟨⟨_, rfl, fun h ↦ h.not_foreign _ (by decide) hforeign⟩,
    ⟨_, rfl, fun h ↦ h.not_foreign _ (by decide) hforeign⟩⟩

end Descriptors
