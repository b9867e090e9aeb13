import Sponge.ByteStream.Refinement

/-!
# How large a byte stream can be

The capacity comes in as a `size_t` and is kept as an `int`, and the size of the buffer is computed
in `int`. This file follows both over the whole range of capacities.

* **Up to `INT_MAX`** every state reached represents a queue, but where `Fits` fails the size cannot
  be computed: `maxlen + (eind - sind) % maxlen` leaves the range, in every call that asks for the
  size. This happens to some stream of each capacity above `2 ^ 30`, and to none below.
* **Beyond `INT_MAX`** it depends on the low 32 bits. If they make a negative `int`, the constructor
  asks for a string that cannot be that long and throws; if not, it constructs a stream of a smaller
  capacity.
-/

open Cpp

namespace ByteStream

variable {c : ℕ} {s : ByteStream} {f : Fifo c}

/-! ### Where the size cannot be computed -/

/-- **The sum overflows** in every other state. -/
theorem Represents.bufferSize_of_not_fits (hc : c < 2 ^ 31) (h : Represents s f)
    (hfits : ¬ s.Fits) : s.bufferSize = .error (.undefined .intOverflow) := by
  have hlt := h.eind_lt
  have hmax := h.maxlen_eq
  rcases h.layout with ⟨-, hsind⟩ | ⟨hq, start, hstart, hsind, -, -⟩
  · exact absurd (Or.inl hsind) hfits
  rw [Fits, hsind, hmax] at hfits
  rw [bufferSize, h.bufferEmpty_eq, if_neg (by simpa using hq), hsind, hmax,
    intSub_eq (by rw [InInt]; omega), pure_bind, intMod_eq_self (by omega) (by omega), pure_bind,
    intAdd, checkInt, if_neg (by rw [InInt]; omega)]
  rfl

/-- The calls that ask for the size. -/
def Op.Measures : Op → Prop
  | .endInput | .setError => False
  | _ => True

theorem call_of_bufferSize {stop : Stop Exn} (h : s.bufferSize = .error stop) {op : Op}
    (hop : op.Measures) : s.call op = .error stop := by
  cases op with
  | write data => rw [call, write, remainingCapacity, h]; rfl
  | popOutput len => rw [call, popOutput, h]; rfl
  | read len => rw [call, read, peekOutput, h]; rfl
  | peekOutput len => rw [call, peekOutput, h]; rfl
  | endInput | setError => exact hop.elim

/-! ### Reachable states -/

/-- The states of a stream of capacity `c`: what the constructor returns, and what a call returns
from such a state. -/
inductive Reachable (c : ℕ) : ByteStream → Prop where
  | construct {s : ByteStream} : construct c = pure s → Reachable c s
  | call {s s' : ByteStream} {op : Op} {ret : Ret} :
    Reachable c s → s.call op = pure (ret, s') → Reachable c s'

/-- **Every reachable state represents a queue**: a call either returns as specified or, where the
size cannot be computed, does not ask for it. -/
theorem Reachable.represents (hc : c < 2 ^ 31) (h : Reachable c s) :
    ∃ f : Fifo c, Represents s f := by
  induction h with
  | construct hs =>
    obtain ⟨s', hs', hrep⟩ := construct_spec hc
    obtain rfl := Except.ok.inj (hs'.symm.trans hs)
    exact ⟨_, hrep⟩
  | @call s t op ret _ hcall ih =>
    obtain ⟨f, hrep⟩ := ih
    by_cases hfits : s.Fits
    · obtain ⟨t', ht', hrep'⟩ := hrep.call_spec hc hfits op
      obtain ⟨-, rfl⟩ := Prod.mk.inj (Except.ok.inj (ht'.symm.trans hcall))
      exact ⟨_, hrep'⟩
    · have hstop := hrep.bufferSize_of_not_fits hc hfits
      cases op with
      | endInput =>
        obtain ⟨-, rfl⟩ := Prod.mk.inj (Except.ok.inj hcall)
        exact ⟨_, hrep.endInput_spec⟩
      | setError =>
        obtain ⟨-, rfl⟩ := Prod.mk.inj (Except.ok.inj hcall)
        exact ⟨_, hrep.setError_spec⟩
      | write | popOutput | read | peekOutput =>
        cases hcall.symm.trans (call_of_bufferSize hstop trivial)

/-- **No `int` expression overflows** in this state: every call returns, and the size and the
remaining capacity add up to the capacity. -/
structure InRange (c : ℕ) (s : ByteStream) : Prop where
  calls : ∀ op, ∃ r, s.call op = pure r
  sizes : ∃ size room, s.bufferSize = pure size ∧ s.remainingCapacity = pure room ∧ size ≤ c ∧
    size + room = c

theorem Represents.inRange_iff_fits (hc : c < 2 ^ 31) (h : Represents s f) :
    InRange c s ↔ s.Fits := by
  constructor
  · rintro ⟨-, size, room, hsize, -⟩
    by_contra hfits
    rw [h.bufferSize_of_not_fits hc hfits] at hsize
    cases hsize
  · intro hfits
    have hlen := f.length_le
    refine ⟨fun op ↦ ?_, f.queue.length, c - f.queue.length, h.bufferSize_eq hc hfits,
      h.remainingCapacity_eq hc hfits, hlen, by omega⟩
    obtain ⟨s', hs', -⟩ := h.call_spec hc hfits op
    exact ⟨_, hs'⟩

/-- At the front of the ring, where a window cannot wrap around, it is a matter of its length. -/
theorem Represents.fits_iff (hc : c < 2 ^ 31) (h : Represents s f) (hfront : s.sind ≤ 0) :
    s.Fits ↔ c + f.queue.length ≤ 2 ^ 31 := by
  have hlen := f.length_le
  rcases h.layout with ⟨hq, hsind⟩ | ⟨hq, start, hstart, hsind, heind, -⟩
  · rw [hq, List.length_nil]
    exact iff_of_true (Or.inl hsind) (by omega)
  · have hpos : 0 < f.queue.length := List.length_pos_iff.2 hq
    obtain rfl : start = 0 := by omega
    rw [h.length_buffer, lastIndex_of_pos hpos, Nat.zero_add, Nat.mod_eq_of_lt (by omega)] at heind
    rw [Fits, hsind, heind, h.maxlen_eq]
    omega

theorem construct_empty (hc : c < 2 ^ 31) :
    ∃ s, construct c = pure s ∧ s.sind = -1 ∧ Represents s (Fifo.empty c) := by
  obtain ⟨s, hs, hrep⟩ := construct_spec hc
  refine ⟨s, hs, ?_, hrep⟩
  rcases hrep.layout with ⟨-, hsind⟩ | ⟨hq, -⟩
  · exact hsind
  · exact absurd rfl hq

/-- A fresh stream after a first write, which has filled the front of the ring. -/
theorem reachable_write (hc : c < 2 ^ 31) (data : Bytes) (hdata : data.length ≤ c) :
    ∃ s₀ s, construct c = pure s₀ ∧ s₀.call (.write data) = pure (.count data.length, s) ∧
      ∃ f : Fifo c, Represents s f ∧ (s.Fits ↔ c + data.length ≤ 2 ^ 31) := by
  obtain ⟨s₀, hs₀, hempty, hrep₀⟩ := construct_empty hc
  obtain ⟨s, hs, hfront, hrep⟩ := hrep₀.write_placed hc (Or.inl hempty) data
  have haccepts : (Fifo.empty c).accepts data = data.length := Nat.min_eq_left hdata
  have hlength : ((Fifo.empty c).write data).2.queue.length = data.length := by
    show ([] ++ data.take ((Fifo.empty c).accepts data)).length = _
    rw [haccepts, List.nil_append, List.take_length]
  refine ⟨s₀, s, hs₀, ?_, _, hrep, ?_⟩
  · rw [call, hs, pure_bind]
    show pure (Ret.count ((Fifo.empty c).accepts data), s) = _
    rw [haccepts]
  · rw [hrep.fits_iff hc (hfront (by omega)), hlength]

/-- **Where the arithmetic stays in range.** For every capacity that is an `int`: in a reachable
state every call returns, and the sizes add up, exactly if the buffer is empty, its contents wrap
around the end of the ring, or their length and the capacity add up to at most `2 ^ 31`. This is so
in all reachable states exactly if the capacity is at most `2 ^ 30`. -/
theorem inRange_iff (hc : c < 2 ^ 31) :
    (∀ s, Reachable c s → (InRange c s ↔ s.Fits)) ∧
      ((∀ s, Reachable c s → InRange c s) ↔ c ≤ 2 ^ 30) := by
  have hstate : ∀ s, Reachable c s → (InRange c s ↔ s.Fits) := by
    intro s hs
    obtain ⟨f, hrep⟩ := hs.represents hc
    exact hrep.inRange_iff_fits hc
  refine ⟨hstate, fun hall ↦ ?_, fun hle s hs ↦ ?_⟩
  · -- a stream that is filled from the front is the worst case
    have hlength : (List.replicate c (0 : UInt8)).length = c := List.length_replicate
    obtain ⟨s₀, s, hs₀, hs, -, -, hfits⟩ := reachable_write hc (List.replicate c 0) hlength.le
    have hreach : Reachable c s := .call (.construct hs₀) hs
    have hsum := hfits.1 ((hstate s hreach).1 (hall s hreach))
    omega
  · obtain ⟨f, hrep⟩ := hs.represents hc
    exact (hstate s hs).2 (hrep.fits hle)

/-- Two bytes in the largest stream are too many. -/
theorem bufferSize_overflows :
    ∃ s₀ s, construct (2 ^ 31 - 1) = pure s₀ ∧ s₀.call (.write [97, 98]) = pure (.count 2, s) ∧
      s.bufferSize = .error (.undefined .intOverflow) ∧ ¬ InRange (2 ^ 31 - 1) s ∧
      ¬ ∀ c, c < 2 ^ 31 → ∀ s, Reachable c s → InRange c s := by
  have hc : 2 ^ 31 - 1 < 2 ^ 31 := by omega
  obtain ⟨s₀, s, hs₀, hs, f, hrep, hfits⟩ := reachable_write hc [97, 98] (by simp)
  have hnot : ¬ s.Fits := by
    rw [hfits]
    simp
  have hrange : ¬ InRange (2 ^ 31 - 1) s := fun h ↦ hnot ((hrep.inRange_iff_fits hc).1 h)
  refine ⟨s₀, s, hs₀, hs, hrep.bufferSize_of_not_fits hc hnot, hrange, fun hall ↦ ?_⟩
  exact hrange (hall _ hc s (.call (.construct hs₀) hs))

/-- A full ring of two, which the last write has wrapped around. -/
theorem inRange_two : ∃ s, Reachable 2 s ∧ s.eind < s.sind ∧ InRange 2 s := by
  have hfresh : Reachable 2 ⟨2, [32, 32], -1, -1, 0, 0, false, true⟩ := .construct rfl
  have hfull : Reachable 2 ⟨2, [2, 3], 0, 1, 0, 2, false, true⟩ :=
    .call hfresh (show call _ (.write [2, 3]) = pure (.count 2, _) from rfl)
  have hpopped : Reachable 2 ⟨2, [2, 3], 1, 1, 1, 2, false, true⟩ :=
    .call hfull (show call _ (.popOutput 1) = pure (.void, _) from rfl)
  have hwrapped : Reachable 2 ⟨2, [4, 3], 1, 0, 1, 3, false, true⟩ :=
    .call hpopped (show call _ (.write [4]) = pure (.count 1, _) from rfl)
  exact ⟨_, hwrapped, by decide, ((inRange_iff (by decide)).1 _ hwrapped).2 (by decide)⟩

/-! ### The constructor -/

/-- Only the low 32 bits of the capacity are kept. -/
theorem construct_mod (capacity : ℕ) : construct (capacity % 2 ^ 32) = construct capacity := by
  have hint : toInt (capacity % 2 ^ 32) = toInt capacity := by
    rw [toInt, toInt, narrowInt, narrowInt]
    omega
  rw [construct, construct, hint]

/-- A capacity that becomes negative asks for a string that is too long. -/
theorem construct_throws {capacity : ℕ} (h : 2 ^ 31 ≤ capacity % 2 ^ 32) :
    construct capacity = .error (.throws .lengthError) := by
  have hint : toInt capacity = (capacity % 2 ^ 32 : ℕ) - 2 ^ 32 := by
    rw [toInt, narrowInt]
    omega
  have hsize : ¬ toSizeT (toInt capacity) ≤ maxStringSize := by
    rw [hint, toSizeT, maxStringSize]
    omega
  rw [construct, spaces, if_neg hsize]
  rfl

/-! ### Filling a stream -/

/-- A sequence of writes, and how many bytes it has accepted in all. -/
def writes (s : ByteStream) : List Bytes → Eval Exn (ℕ × ByteStream)
  | [] => pure (0, s)
  | data :: rest => do
    let (n, s) ← s.write data
    let (m, s) ← s.writes rest
    pure (n + m, s)

/-- **The capacity is the one asked for**: the constructor throws, or the stream has that much room
and these writes are accepted up to exactly there. -/
def HasCapacity (capacity : ℕ) (datas : List Bytes) : Prop :=
  (∃ e, construct capacity = .error (.throws e)) ∨
    ∃ s, construct capacity = pure s ∧ s.remainingCapacity = pure capacity ∧
      ∃ s', s.writes datas = pure (min datas.flatten.length capacity, s')

/-- What the first write accepts and what the others accept add up. -/
theorem writes_cons_iff {data : Bytes} {n m : ℕ} {s' : ByteStream}
    (h : s.write data = pure (n, s')) (rest : List Bytes) :
    (∃ u, s.writes (data :: rest) = pure (n + m, u)) ↔ ∃ u, s'.writes rest = pure (m, u) := by
  have hcons : s.writes (data :: rest) = s'.writes rest >>= fun r ↦ pure (n + r.1, r.2) := by
    rw [writes, h, pure_bind]
  rw [hcons]
  constructor
  · rintro ⟨u, hu⟩
    rcases hw : s'.writes rest with stop | ⟨k, t⟩
    · rw [hw] at hu
      cases hu
    · rw [hw] at hu
      obtain ⟨hk, -⟩ := Prod.mk.inj (Except.ok.inj hu)
      obtain rfl := Nat.add_left_cancel hk
      exact ⟨t, rfl⟩
  · rintro ⟨u, hu⟩
    rw [hu]
    exact ⟨u, rfl⟩

/-- **A sequence of writes** into the front of the ring is accepted as far as there is room, exactly
if the size can be computed before the last of them. -/
theorem Represents.writes_iff (hc : c < 2 ^ 31) (h : Represents s f) (hfront : s.sind ≤ 0)
    (datas : List Bytes) :
    (∃ s', s.writes datas = pure (min datas.flatten.length (c - f.queue.length), s')) ↔
      datas = [] ∨ c + min (f.queue.length + datas.dropLast.flatten.length) c ≤ 2 ^ 31 := by
  have hlen := f.length_le
  induction datas generalizing s f with
  | nil =>
    refine iff_of_true ⟨s, ?_⟩ (Or.inl rfl)
    rw [List.flatten_nil, List.length_nil, Nat.zero_min]
    rfl
  | cons data rest ih =>
    by_cases hfits : s.Fits
    · -- the first call returns, and leaves a window that still starts at the front
      have hsmall := (h.fits_iff hc hfront).1 hfits
      obtain ⟨t, ht, hfront', hrep⟩ := h.write_placed hc hfits data
      have hqueue : (f.write data).2.queue.length = f.queue.length + f.accepts data :=
        f.length_append_take data
      have hrest := ih hrep (hfront' hfront) (f.write data).2.length_le
      rw [hqueue] at hrest
      have hsum : min (data :: rest).flatten.length (c - f.queue.length) = f.accepts data +
          min rest.flatten.length (c - (f.queue.length + f.accepts data)) := by
        rw [List.flatten_cons, List.length_append, Fifo.accepts]
        omega
      rw [hsum]
      refine (writes_cons_iff ht rest).trans (hrest.trans ?_)
      cases rest with
      | nil =>
        refine iff_of_true (Or.inl rfl) (Or.inr ?_)
        rw [List.dropLast_singleton, List.flatten_nil, List.length_nil]
        omega
      | cons data' rest =>
        rw [List.dropLast_cons_cons, List.flatten_cons, List.length_append, Fifo.accepts]
        simp only [reduceCtorEq, false_or]
        omega
    · -- the first call overflows already
      have hlarge : ¬ c + f.queue.length ≤ 2 ^ 31 := fun hle ↦ hfits ((h.fits_iff hc hfront).2 hle)
      refine iff_of_false ?_ ?_
      · rintro ⟨s', hs'⟩
        rw [writes, write, remainingCapacity, h.bufferSize_of_not_fits hc hfits] at hs'
        cases hs'
      · rintro (hnil | hle)
        · cases hnil
        · omega

theorem hasCapacity_of_lt (hc : c < 2 ^ 31) (datas : List Bytes) :
    HasCapacity c datas ↔ c + min datas.dropLast.flatten.length c ≤ 2 ^ 31 := by
  obtain ⟨s, hs, hempty, hrep⟩ := construct_empty hc
  have hwrites : (∃ s', s.writes datas = pure (min datas.flatten.length (c - 0), s')) ↔
      datas = [] ∨ c + min (0 + datas.dropLast.flatten.length) c ≤ 2 ^ 31 :=
    hrep.writes_iff hc (by omega) datas
  rw [Nat.sub_zero, Nat.zero_add] at hwrites
  constructor
  · rintro (⟨e, he⟩ | ⟨s', hs', -, hwrites'⟩)
    · cases he.symm.trans hs
    · obtain rfl := Except.ok.inj (hs.symm.trans hs')
      rcases hwrites.1 hwrites' with rfl | hle
      · rw [List.dropLast_nil, List.flatten_nil, List.length_nil]
        omega
      · exact hle
  · intro hle
    exact Or.inr ⟨s, hs, hrep.remainingCapacity_eq hc (Or.inl hempty), hwrites.2 (Or.inr hle)⟩

/-- A larger capacity that the constructor accepts is not the capacity of the stream. -/
theorem not_hasCapacity {capacity : ℕ} (hlow : capacity % 2 ^ 32 < 2 ^ 31)
    (hge : 2 ^ 31 ≤ capacity) (datas : List Bytes) : ¬ HasCapacity capacity datas := by
  obtain ⟨s, hs, hempty, hrep⟩ := construct_empty hlow
  rw [construct_mod] at hs
  rintro (⟨e, he⟩ | ⟨s', hs', hroom, -⟩)
  · cases he.symm.trans hs
  · obtain rfl := Except.ok.inj (hs.symm.trans hs')
    have hsame : capacity % 2 ^ 32 - 0 = capacity :=
      Except.ok.inj ((hrep.remainingCapacity_eq hlow (Or.inl hempty)).symm.trans hroom)
    omega

/-- **When the capacity is the one asked for.** For every capacity and every sequence of writes:
exactly if the low 32 bits are at least `2 ^ 31`, so that the constructor throws, or the capacity is
an `int` and with what is accepted before the last write it adds up to at most `2 ^ 31`. For all
sequences of writes: exactly if the constructor throws or the capacity is at most `2 ^ 30`. -/
theorem hasCapacity_iff (capacity : ℕ) :
    (∀ datas, HasCapacity capacity datas ↔ 2 ^ 31 ≤ capacity % 2 ^ 32 ∨
      capacity < 2 ^ 31 ∧ capacity + min datas.dropLast.flatten.length capacity ≤ 2 ^ 31) ∧
    ((∀ datas, HasCapacity capacity datas) ↔ 2 ^ 31 ≤ capacity % 2 ^ 32 ∨ capacity ≤ 2 ^ 30) := by
  have hdatas : ∀ datas, HasCapacity capacity datas ↔ 2 ^ 31 ≤ capacity % 2 ^ 32 ∨
      capacity < 2 ^ 31 ∧ capacity + min datas.dropLast.flatten.length capacity ≤ 2 ^ 31 := by
    intro datas
    rcases Nat.lt_or_ge (capacity % 2 ^ 32) (2 ^ 31) with hlow | hlow
    · rcases Nat.lt_or_ge capacity (2 ^ 31) with hlt | hge
      · rw [hasCapacity_of_lt hlt]
        omega
      · exact iff_of_false (not_hasCapacity hlow hge datas) (by omega)
    · exact iff_of_true (Or.inl ⟨_, construct_throws hlow⟩) (Or.inl hlow)
  refine ⟨hdatas, fun hall ↦ ?_, fun hcap datas ↦ (hdatas datas).2 (by omega)⟩
  -- a second write to a stream that the first has filled
  have hlength : [List.replicate capacity (0 : UInt8), []].dropLast.flatten.length = capacity := by
    rw [List.dropLast_cons_cons, List.dropLast_singleton, List.flatten_singleton,
      List.length_replicate]
  have hfull := (hdatas [List.replicate capacity 0, []]).1 (hall _)
  rw [hlength] at hfull
  omega

/-- A stream of `2 ^ 32` bytes is constructed and has no room for one; and to a stream of
`2 ^ 31 - 1` bytes a third byte cannot be written after the first two. -/
theorem hasCapacity_fails :
    (∃ s, construct (2 ^ 32) = pure s ∧ s.remainingCapacity = pure 0 ∧
      s.writes [[65]] = pure (0, s) ∧ ¬ HasCapacity (2 ^ 32) [[65]]) ∧
    ¬ HasCapacity (2 ^ 31 - 1) [[65, 66], [67]] := by
  refine ⟨⟨_, rfl, rfl, rfl, not_hasCapacity (by decide) (by decide) _⟩, ?_⟩
  rw [hasCapacity_of_lt (by decide)]
  decide

end ByteStream
