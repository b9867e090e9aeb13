import Sponge.Lib.Machine
import Sponge.Parser.RoundTrip

/-!
# What the parser reports when it fails

A run of a parser as its client sees it: after each call the value returned, the error and the
unread bytes. `Cursor` is the parser without its buffer, just the unread bytes and the error, and
`step_simulates` says that the two cannot be told apart. It is also where no call throws or reads
out of range.

* **Running out of data** happens at the first request that exceeds what is left, counted exactly;
  from then on nothing is read, whatever is asked for (`requests_of_fits`, `requests_of_short`).
* **The size is checked before the error is tested.** An error that the parser noted itself is
  noted again and so stays. An error that the protocol code recorded with `set_error` is
  overwritten by the next request that does not fit (`error_of_short`).
-/

open Cpp

namespace NetParser

/-! ### Runs -/

/-- A call that takes bytes from the front. -/
inductive Request where
  /-- `u8()`, `u16()` or `u32()`. -/
  | read (w : Width)
  | removePrefix (n : ℕ)
  deriving DecidableEq, Repr

namespace Request

/-- How many bytes are asked for. -/
def size : Request → ℕ
  | read w => w.len
  | removePrefix n => n

/-- What is returned when the request is met from `bytes`. -/
def answer (bytes : Bytes) : Request → Option ℕ
  | read w => some (BigEndian.ofBytes (bytes.take w.len))
  | removePrefix _ => none

/-- What is returned when it is not met. -/
def zero : Request → Option ℕ
  | read _ => some 0
  | removePrefix _ => none

end Request

/-- The bytes asked for by a sequence of requests, as an exact number. -/
def requested (rs : List Request) : ℕ := (rs.map Request.size).sum

theorem requested_cons (r : Request) (rs : List Request) :
    requested (r :: rs) = r.size + requested rs :=
  List.sum_cons

theorem requested_take_succ {rs : List Request} {i : ℕ} {r : Request} (hr : rs[i]? = some r) :
    requested (rs.take (i + 1)) = requested (rs.take i) + r.size := by
  obtain ⟨hi, hget⟩ := List.getElem?_eq_some_iff.1 hr
  rw [List.take_succ_eq_append_getElem hi, hget, requested, List.map_append, List.sum_append]
  rfl

inductive Call where
  | request (r : Request)
  | setError (res : ParseResult)
  deriving DecidableEq, Repr

/-- What can be seen after a call: the value it returned, if any, `get_error()` and the contents of
`buffer()`. -/
structure Observation where
  value : Option ℕ
  error : ParseResult
  rest : Bytes
  deriving DecidableEq, Repr

def observe (p : NetParser) (value : Option ℕ) : Observation := ⟨value, p.error, p.buffer.str⟩

def step (p : NetParser) : Call → Eval Exn (Observation × NetParser)
  | .request (.read w) => do
    let (v, p) ← p.read w
    pure (p.observe (some v.toNat), p)
  | .request (.removePrefix n) => do
    let p ← p.removePrefix n
    pure (p.observe none, p)
  | .setError res => pure ((p.setError res).observe none, p.setError res)

/-- A run of a fresh parser of the string `d`. -/
def run (d : Bytes) (calls : List Call) : Eval Exn (List Observation × NetParser) :=
  Machine.runFrom step (ofBuffer (.ofString d)) calls

/-! ### The parser without its buffer -/

/-- The unread bytes and the error. -/
@[ext]
structure Cursor where
  rest : Bytes
  error : ParseResult
  deriving DecidableEq, Repr

namespace Cursor

def observe (a : Cursor) (value : Option ℕ) : Observation := ⟨value, a.error, a.rest⟩

/-- The cursor after a request. -/
def take (a : Cursor) (r : Request) : Cursor :=
  if a.rest.length < r.size then ⟨a.rest, .packetTooShort⟩
  else if a.error ≠ .noError then a
  else ⟨a.rest.drop r.size, .noError⟩

/-- What the request returns. -/
def answer (a : Cursor) (r : Request) : Option ℕ :=
  if a.rest.length < r.size ∨ a.error ≠ .noError then r.zero else r.answer a.rest

def step (a : Cursor) : Call → Observation × Cursor
  | .request r => ((a.take r).observe (a.answer r), a.take r)
  | .setError res => (observe ⟨a.rest, res⟩ none, ⟨a.rest, res⟩)

variable {a : Cursor} {r : Request}

theorem take_of_fits (ha : a.error = .noError) (h : r.size ≤ a.rest.length) :
    a.take r = ⟨a.rest.drop r.size, .noError⟩ := by
  rw [take, if_neg (not_lt.2 h), if_neg (not_not.2 ha)]

theorem answer_of_fits (ha : a.error = .noError) (h : r.size ≤ a.rest.length) :
    a.answer r = r.answer a.rest := by
  rw [answer, if_neg (not_or.2 ⟨not_lt.2 h, not_not.2 ha⟩)]

theorem answer_of_fails (h : a.rest.length < r.size ∨ a.error ≠ .noError) :
    a.answer r = r.zero := if_pos h

end Cursor

/-- The parser has these unread bytes and this error. -/
def At (p : NetParser) (a : Cursor) : Prop := p.buffer.str = a.rest ∧ p.error = a.error

theorem At.observe_eq {p : NetParser} {a : Cursor} (h : p.At a) (value : Option ℕ) :
    p.observe value = a.observe value := by
  rw [observe, Cursor.observe, h.1, h.2]

/-- Where a request is not met, the parser only notes that it ran out of data. -/
theorem At.checkSize {p : NetParser} {a : Cursor} (h : p.At a) {r : Request}
    (hfail : a.rest.length < r.size ∨ a.error ≠ .noError) : (p.checkSize r.size).At (a.take r) := by
  have hsize : p.buffer.size = a.rest.length := by rw [Buffer.size, h.1]
  rw [NetParser.checkSize, Cursor.take, hsize]
  rcases Nat.lt_or_ge a.rest.length r.size with hshort | hfits
  · rw [if_pos hshort, if_pos hshort]
    exact ⟨h.1, rfl⟩
  · rw [if_neg (not_lt.2 hfits), if_neg (not_lt.2 hfits),
      if_pos (hfail.resolve_left (not_lt.2 hfits))]
    exact h

/-- A request that is not met takes nothing and returns zero. -/
theorem At.step_of_fails {p : NetParser} {a : Cursor} (h : p.At a) {r : Request}
    (hfail : a.rest.length < r.size ∨ a.error ≠ .noError) :
    p.step (.request r) = pure ((a.take r).observe (a.answer r), p.checkSize r.size) := by
  have hsize : p.buffer.size = a.rest.length := by rw [Buffer.size, h.1]
  have hstops : p.hasError = true ∨ p.buffer.size < r.size := by
    rw [hasError_iff, h.2, hsize]
    exact hfail.symm
  rw [Cursor.answer_of_fails hfail, ← (h.checkSize hfail).observe_eq]
  cases r with
  | read w =>
    rw [step, read_eq, parseInt_of_hasError hstops, pure_bind]
    rfl
  | removePrefix n =>
    have hremove : p.removePrefix n = pure (p.checkSize n) := removePrefix_of_hasError hstops
    rw [step, hremove, pure_bind]
    rfl

/-- A request that is met takes its bytes and returns what they mean. -/
theorem At.step_of_fits {p : NetParser} {a : Cursor} (h : p.At a) {r : Request}
    (ha : a.error = .noError) (hfits : r.size ≤ a.rest.length) :
    ∃ p', p.step (.request r) = pure ((a.take r).observe (a.answer r), p') ∧ p'.At (a.take r) := by
  have hsize : p.buffer.size = a.rest.length := by rw [Buffer.size, h.1]
  have hle : r.size ≤ p.buffer.size := hsize ▸ hfits
  have hno : p.error = .noError := h.2.trans ha
  rw [Cursor.take_of_fits ha hfits, Cursor.answer_of_fits ha hfits]
  cases r with
  | read w =>
    obtain ⟨v, p', hparse, hv, herror, hstr⟩ := parseInt_of_le hno hle
    rw [h.1] at hv hstr
    have hat : p'.At ⟨a.rest.drop w.len, .noError⟩ := ⟨hstr, herror⟩
    refine ⟨p', ?_, hat⟩
    rw [step, read_eq, hparse, pure_bind]
    show pure (p'.observe (some v.toNat), p') = _
    rw [hat.observe_eq, hv]
    rfl
  | removePrefix n =>
    have hn : n ≤ p.buffer.size := hle
    obtain ⟨p', hremove, herror, hstr⟩ := removePrefix_of_le hno hn
    rw [h.1] at hstr
    have hat : p'.At ⟨a.rest.drop n, .noError⟩ := ⟨hstr, herror⟩
    refine ⟨p', ?_, hat⟩
    rw [step, hremove, pure_bind, hat.observe_eq]
    rfl

/-- **One call.** It returns, with what the cursor gives. -/
theorem step_simulates : Machine.Simulates At step Cursor.step := by
  intro p a call h
  cases call with
  | setError res =>
    have hset : (p.setError res).At ⟨a.rest, res⟩ := ⟨h.1, rfl⟩
    exact ⟨p.setError res, congrArg (fun o ↦ pure (o, _)) (hset.observe_eq none), hset⟩
  | request r =>
    by_cases hfail : a.rest.length < r.size ∨ a.error ≠ .noError
    · exact ⟨p.checkSize r.size, h.step_of_fails hfail, h.checkSize hfail⟩
    · obtain ⟨hfits, hok⟩ := not_or.1 hfail
      exact h.step_of_fits (not_not.1 hok) (not_lt.1 hfits)

/-- **Runs** of a fresh parser return, and are those of the cursor. -/
theorem run_eq (d : Bytes) (calls : List Call) :
    ∃ p', run d calls = pure ((Machine.trace Cursor.step ⟨d, .noError⟩ calls).1, p') ∧
      p'.At (Machine.trace Cursor.step ⟨d, .noError⟩ calls).2 :=
  step_simulates.run ⟨Buffer.str_ofString d, rfl⟩ calls

/-! ### Runs of requests -/

namespace Cursor

variable {a : Cursor} {rs : List Request}

/-- The observations of a run of requests, and the cursor after it. -/
def requests (a : Cursor) (rs : List Request) : List Observation × Cursor :=
  Machine.trace step a (rs.map .request)

theorem requests_cons (a : Cursor) (r : Request) (rs : List Request) :
    a.requests (r :: rs) = ((a.take r).observe (a.answer r) :: ((a.take r).requests rs).1,
      ((a.take r).requests rs).2) :=
  rfl

theorem requests_append (a : Cursor) (rs rs' : List Request) :
    a.requests (rs ++ rs') = ((a.requests rs).1 ++ ((a.requests rs).2.requests rs').1,
      ((a.requests rs).2.requests rs').2) := by
  rw [requests, List.map_append, Machine.trace_append]
  rfl

theorem length_requests (a : Cursor) (rs : List Request) :
    (a.requests rs).1.length = rs.length := by
  induction rs generalizing a with
  | nil => rfl
  | cons r rs ih => rw [requests_cons, List.length_cons, ih, List.length_cons]

/-- As long as the data suffices, exactly what is asked for is taken. -/
theorem requests_of_fits (ha : a.error = .noError) (h : requested rs ≤ a.rest.length) :
    (a.requests rs).2 = ⟨a.rest.drop (requested rs), .noError⟩ ∧
      ∀ o ∈ (a.requests rs).1, o.error = .noError := by
  induction rs generalizing a with
  | nil =>
    refine ⟨Cursor.ext rfl ha, fun o ho ↦ absurd ho List.not_mem_nil⟩
  | cons r rs ih =>
    rw [requested_cons] at h ⊢
    have htake : a.take r = ⟨a.rest.drop r.size, .noError⟩ := take_of_fits ha (by omega)
    have hrest : requested rs ≤ (a.rest.drop r.size).length := by
      rw [List.length_drop]
      omega
    obtain ⟨hend, hall⟩ := ih (a := ⟨a.rest.drop r.size, .noError⟩) rfl hrest
    rw [requests_cons, htake]
    refine ⟨?_, fun o ho ↦ ?_⟩
    · rw [hend, List.drop_drop]
    · rcases List.mem_cons.1 ho with rfl | ho
      · rfl
      · exact hall o ho

/-- **Failing is sticky**: after an error, nothing is taken; and the error stays, if every request
would fit or it is the one that would be noted. -/
theorem requests_of_error (ha : a.error ≠ .noError)
    (h : a.error = .packetTooShort ∨ ∀ r ∈ rs, r.size ≤ a.rest.length) :
    a.requests rs = (rs.map fun r ↦ a.observe r.zero, a) := by
  induction rs with
  | nil => rfl
  | cons r rs ih =>
    have htake : a.take r = a := by
      rcases Nat.lt_or_ge a.rest.length r.size with hshort | hfits
      · rcases h with htoo | hall
        · rw [take, if_pos hshort, ← htoo]
        · exact absurd (hall r List.mem_cons_self) (not_le.2 hshort)
      · rw [take, if_neg (not_lt.2 hfits), if_pos ha]
    have hrest := ih (h.imp_right fun hfits r' hr' ↦ hfits r' (List.mem_cons_of_mem r hr'))
    rw [requests_cons, htake, answer_of_fails (.inr ha), hrest]
    rfl

/-- **Running out of data**: the first request that does not fit fails, and so do all after it. -/
theorem requests_of_short {r : Request} (h : a.rest.length < r.size) :
    a.requests (r :: rs) =
      ((r :: rs).map fun r' ↦ observe ⟨a.rest, .packetTooShort⟩ r'.zero,
        ⟨a.rest, .packetTooShort⟩) := by
  have htake : a.take r = ⟨a.rest, .packetTooShort⟩ := if_pos h
  have hne : ParseResult.packetTooShort ≠ .noError := by decide
  rw [requests_cons, htake, answer_of_fails (.inl h), requests_of_error hne (.inl rfl)]
  rfl

/-- **An error is overwritten** by the first request that does not fit. -/
theorem error_of_short (ha : a.error ≠ .noError) (h : ∃ r ∈ rs, a.rest.length < r.size) :
    (a.requests rs).2.error = .packetTooShort := by
  induction rs with
  | nil =>
    obtain ⟨r, hr, -⟩ := h
    exact absurd hr List.not_mem_nil
  | cons r rs ih =>
    rcases Nat.lt_or_ge a.rest.length r.size with hshort | hfits
    · rw [requests_of_short hshort]
    · have htake : a.take r = a := by rw [take, if_neg (not_lt.2 hfits), if_pos ha]
      obtain ⟨r', hr', hshort'⟩ := h
      rcases List.mem_cons.1 hr' with rfl | hmem
      · exact absurd hshort' (not_lt.2 hfits)
      · rw [requests_cons, htake]
        exact ih ⟨r', hmem, hshort'⟩

/-- The observation after one of the requests. -/
theorem getElem?_requests (a : Cursor) {i : ℕ} {r : Request} (hr : rs[i]? = some r) :
    (a.requests rs).1[i]? =
      some (((a.requests (rs.take i)).2.take r).observe ((a.requests (rs.take i)).2.answer r)) := by
  obtain ⟨hi, hget⟩ := List.getElem?_eq_some_iff.1 hr
  have hlen : (a.requests (rs.take i)).1.length = i := by
    rw [length_requests, List.length_take, Nat.min_eq_left hi.le]
  have hsplit : rs = rs.take i ++ r :: rs.drop (i + 1) := by
    rw [← hget, ← List.drop_eq_getElem_cons hi, List.take_append_drop]
  conv_lhs => rw [hsplit, requests_append, requests_cons]
  rw [List.getElem?_append_right hlen.le, hlen, Nat.sub_self, List.getElem?_cons_zero]

/-- The observations as long as the data suffices. -/
theorem getElem?_requests_of_fits (ha : a.error = .noError) {i : ℕ} {r : Request}
    (hr : rs[i]? = some r) (hle : requested (rs.take (i + 1)) ≤ a.rest.length) :
    (a.requests rs).1[i]? = some ⟨r.answer (a.rest.drop (requested (rs.take i))), .noError,
      a.rest.drop (requested (rs.take (i + 1)))⟩ := by
  rw [requested_take_succ hr] at hle ⊢
  have hbefore := (requests_of_fits ha (Nat.le_trans (Nat.le_add_right _ _) hle)).1
  have hfits : r.size ≤ (a.rest.drop (requested (rs.take i))).length := by
    rw [List.length_drop]
    omega
  rw [getElem?_requests a hr, hbefore, take_of_fits rfl hfits, answer_of_fits rfl hfits,
    List.drop_drop]
  rfl

/-- The observations from the request on that does not fit. -/
theorem getElem?_requests_of_short (ha : a.error = .noError) {m i : ℕ} {r : Request} (hmi : m ≤ i)
    (hr : rs[i]? = some r) (hfits : requested (rs.take m) ≤ a.rest.length)
    (hshort : a.rest.length < requested (rs.take (m + 1))) :
    (a.requests rs).1[i]? =
      some ⟨r.zero, .packetTooShort, a.rest.drop (requested (rs.take m))⟩ := by
  have hm : m < rs.length := Nat.lt_of_le_of_lt hmi (List.getElem?_eq_some_iff.1 hr).1
  have hlen : (a.requests (rs.take m)).1.length = m := by
    rw [length_requests, List.length_take, Nat.min_eq_left hm.le]
  have hafter := (requests_of_fits ha hfits).1
  have hsize : (a.rest.drop (requested (rs.take m))).length < (rs[m]).size := by
    rw [requested_take_succ (List.getElem?_eq_getElem hm)] at hshort
    rw [List.length_drop]
    omega
  conv_lhs => rw [← List.take_append_drop m rs, requests_append, hafter]
  rw [List.drop_eq_getElem_cons hm, requests_of_short hsize, ← List.drop_eq_getElem_cons hm,
    List.getElem?_append_right (hlen.trans_le hmi), hlen, List.getElem?_map, List.getElem?_drop,
    Nat.add_sub_cancel' hmi, hr]
  rfl

end Cursor

/-- **The parser fails exactly when the data runs out, and from then on.** For every string and
every sequence of requests the run returns. A request up to which no more has been asked for than
there is returns its bytes and consumes them. Where the sum first exceeds the length, at the `m`-th
request, that one and all later ones return `0`, with the packet reported too short and the buffer
left as it was before. If it never does, there is no error in the end. -/
theorem run_requests (d : Bytes) (rs : List Request) :
    ∃ observed p', run d (rs.map .request) = pure (observed, p') ∧
      observed.length = rs.length ∧
      (∀ i r, rs[i]? = some r → requested (rs.take (i + 1)) ≤ d.length →
        observed[i]? = some ⟨r.answer (d.drop (requested (rs.take i))), .noError,
          d.drop (requested (rs.take (i + 1)))⟩) ∧
      (∀ m i r, m ≤ i → rs[i]? = some r → requested (rs.take m) ≤ d.length →
        d.length < requested (rs.take (m + 1)) →
        observed[i]? = some ⟨r.zero, .packetTooShort, d.drop (requested (rs.take m))⟩) ∧
      (requested rs ≤ d.length →
        p'.error = .noError ∧ p'.buffer.str = d.drop (requested rs)) := by
  obtain ⟨p', hrun, hat⟩ := run_eq d (rs.map .request)
  refine ⟨_, p', hrun, Cursor.length_requests _ rs, ?_, ?_, ?_⟩
  · intro i r hr hle
    exact Cursor.getElem?_requests_of_fits rfl hr hle
  · intro m i r hmi hr hfits hshort
    exact Cursor.getElem?_requests_of_short rfl hmi hr hfits hshort
  · intro hle
    have hend := (Cursor.requests_of_fits (a := ⟨d, .noError⟩) rfl hle).1
    obtain ⟨hrest, herror⟩ := hat
    exact ⟨herror.trans (congrArg Cursor.error hend), hrest.trans (congrArg Cursor.rest hend)⟩

/-! ### The first error recorded -/

/-- The calls of a client that may report an error of its own, between two sequences of requests. -/
def script (before : List Request) (reported : Option ParseResult) (after : List Request) :
    List Call :=
  before.map .request ++ (reported.toList.map .setError ++ after.map .request)

/-- **The diagnosis is kept**: once there is an error no later call changes it, it is the one at the
end, and it has an entry in the table of names. -/
def DiagnosisKept (observed : List Observation) (p : NetParser) : Prop :=
  observed.Pairwise (fun o o' ↦ o.error ≠ .noError → o'.error = o.error) ∧
  (∀ o ∈ observed, o.error ≠ .noError → p.error = o.error) ∧
  ∃ name, p.error.asString = pure name

/-- Without an error first, and then with the same one throughout. -/
def Settles (observed : List Observation) (res : ParseResult) : Prop :=
  ∃ quiet failing, observed = quiet ++ failing ∧ (∀ o ∈ quiet, o.error = .noError) ∧
    ∀ o ∈ failing, o.error = res

theorem Settles.diagnosisKept {observed : List Observation} {p : NetParser}
    (h : Settles observed p.error) (hname : ∃ name, p.error.asString = pure name) :
    DiagnosisKept observed p := by
  obtain ⟨quiet, failing, rfl, hquiet, hfailing⟩ := h
  refine ⟨List.pairwise_append.2 ⟨?_, ?_, ?_⟩, fun o ho hne ↦ ?_, hname⟩
  · exact List.pairwise_of_forall_mem_list fun o ho o' _ hne ↦ absurd (hquiet o ho) hne
  · refine List.pairwise_of_forall_mem_list fun o ho o' ho' _ ↦ ?_
    rw [hfailing o ho, hfailing o' ho']
  · exact fun o ho o' _ hne ↦ absurd (hquiet o ho) hne
  · rcases List.mem_append.1 ho with ho | ho
    · exact absurd (hquiet o ho) hne
    · exact (hfailing o ho).symm

/-- `as_string` stays inside its table, except for the last enumerator. -/
theorem asString_iff (res : ParseResult) :
    (∃ name, res.asString = pure name) ↔ res ≠ .unsupported := by
  cases res with
  | unsupported =>
    refine iff_of_false ?_ (fun hne ↦ hne rfl)
    rintro ⟨name, hname⟩
    cases hname
  | _ => exact iff_of_true ⟨_, rfl⟩ (by decide)

namespace Cursor

variable {a : Cursor} {rs : List Request}

/-- Without an error in the end, no more was asked for than there was. -/
theorem requested_le (ha : a.error = .noError) (h : (a.requests rs).2.error = .noError) :
    requested rs ≤ a.rest.length := by
  induction rs generalizing a with
  | nil => exact Nat.zero_le _
  | cons r rs ih =>
    rcases Nat.lt_or_ge a.rest.length r.size with hshort | hfits
    · rw [requests_of_short hshort] at h
      exact absurd h (by simp)
    · rw [requests_cons, take_of_fits ha hfits] at h
      have hrest := ih rfl h
      rw [List.length_drop] at hrest
      rw [requested_cons]
      omega

/-- The parser's own errors are kept. -/
theorem settles_requests (ha : a.error = .noError) :
    Settles (a.requests rs).1 (a.requests rs).2.error ∧
      (a.requests rs).2.error ≠ .unsupported := by
  induction rs generalizing a with
  | nil =>
    refine ⟨⟨[], [], rfl, fun o ho ↦ absurd ho List.not_mem_nil,
      fun o ho ↦ absurd ho List.not_mem_nil⟩, ?_⟩
    show a.error ≠ _
    rw [ha]
    decide
  | cons r rs ih =>
    rcases Nat.lt_or_ge a.rest.length r.size with hshort | hfits
    · rw [requests_of_short hshort]
      refine ⟨⟨[], _, (List.nil_append _).symm, fun o ho ↦ absurd ho List.not_mem_nil,
        fun o ho ↦ ?_⟩, fun herror ↦ nomatch herror⟩
      obtain ⟨r', -, rfl⟩ := List.exists_of_mem_map ho
      rfl
    · rw [requests_cons, take_of_fits ha hfits]
      obtain ⟨⟨quiet, failing, hobserved, hquiet, hfailing⟩, hne⟩ :=
        ih (a := ⟨a.rest.drop r.size, .noError⟩) rfl
      refine ⟨⟨_ :: quiet, failing, by rw [hobserved, List.cons_append], fun o ho ↦ ?_, hfailing⟩,
        hne⟩
      rcases List.mem_cons.1 ho with rfl | ho
      · rfl
      · exact hquiet o ho

/-- The run of a client that reports an error, when the requests before it have been met. -/
theorem trace_script {d : Bytes} {before : List Request} (hfits : requested before ≤ d.length)
    (res : ParseResult) (after : List Request) :
    Machine.trace step ⟨d, .noError⟩ (script before (some res) after) =
      ((requests ⟨d, .noError⟩ before).1 ++ ⟨none, res, d.drop (requested before)⟩ ::
          (requests ⟨d.drop (requested before), res⟩ after).1,
        (requests ⟨d.drop (requested before), res⟩ after).2) := by
  have hmid := (requests_of_fits (a := ⟨d, .noError⟩) rfl hfits).1
  rw [script, Machine.trace_append]
  show ((requests ⟨d, .noError⟩ before).1 ++
      (Machine.trace step (requests ⟨d, .noError⟩ before).2
        (.setError res :: after.map .request)).1,
    (Machine.trace step (requests ⟨d, .noError⟩ before).2
      (.setError res :: after.map .request)).2) = _
  rw [hmid]
  rfl

end Cursor

/-- The time at which a client may report an error, in terms of the requests before. -/
theorem requested_le_of_run {d : Bytes} {rs : List Request} {observed : List Observation}
    {p : NetParser} (hrun : run d (rs.map .request) = pure (observed, p))
    (hno : p.error = .noError) : requested rs ≤ d.length := by
  obtain ⟨q, hq, hat⟩ := run_eq d (rs.map .request)
  obtain rfl : q = p := congrArg Prod.snd (Except.ok.inj (hq.symm.trans hrun))
  exact Cursor.requested_le (a := ⟨d, .noError⟩) rfl (hat.2.symm.trans hno)

/-- A client that reports nothing gets the diagnosis of the parser. -/
theorem diagnosisKept_of_requests {d : Bytes} {rs : List Request} {p : NetParser}
    (hat : p.At (Cursor.requests ⟨d, .noError⟩ rs).2) :
    DiagnosisKept (Cursor.requests ⟨d, .noError⟩ rs).1 p := by
  obtain ⟨hsettles, hne⟩ : Settles (Cursor.requests ⟨d, .noError⟩ rs).1
      (Cursor.requests ⟨d, .noError⟩ rs).2.error ∧ _ := Cursor.settles_requests rfl
  refine Settles.diagnosisKept ?_ ?_
  · rw [hat.2]
    exact hsettles
  · rw [asString_iff, hat.2]
    exact hne

/-- A client that reports the error `res`, in terms of the bytes `rest` that are left then. -/
theorem diagnosisKept_of_error {quiet : List Observation} {rest : Bytes} {res : ParseResult}
    {after : List Request} {p : NetParser} (hquiet : ∀ o ∈ quiet, o.error = .noError)
    (hres : res ≠ .noError) (hat : p.At (Cursor.requests ⟨rest, res⟩ after).2) :
    DiagnosisKept (quiet ++ ⟨none, res, rest⟩ :: (Cursor.requests ⟨rest, res⟩ after).1) p ↔
      res = .packetTooShort ∨ res ≠ .unsupported ∧ ∀ r ∈ after, r.size ≤ rest.length := by
  constructor
  · rintro ⟨-, hend, hname⟩
    have hkept : p.error = res :=
      hend ⟨none, res, rest⟩ (List.mem_append_right _ List.mem_cons_self) hres
    rw [or_iff_not_imp_left]
    refine fun hother ↦ ⟨hkept ▸ (asString_iff _).1 hname, fun r hr ↦ ?_⟩
    by_contra hshort
    -- otherwise the request would have overwritten the error
    have hover := Cursor.error_of_short (a := ⟨rest, res⟩) hres ⟨r, hr, not_le.1 hshort⟩
    exact hother (hkept.symm.trans (hat.2.trans hover))
  · intro hcond
    have hafter := Cursor.requests_of_error (a := ⟨rest, res⟩) hres (hcond.imp_right And.right)
    rw [hafter] at hat ⊢
    have herror : p.error = res := hat.2
    refine Settles.diagnosisKept ⟨_, _, rfl, hquiet, fun o ho ↦ ?_⟩ ?_
    · rw [herror]
      rcases List.mem_cons.1 ho with rfl | ho
      · rfl
      · obtain ⟨r, -, rfl⟩ := List.mem_map.1 ho
        rfl
    · rw [asString_iff, herror]
      rcases hcond with rfl | h
      · decide
      · exact h.1

/-- **When the first error recorded is the diagnosis.** Whatever a client requests before and after
it reports an error, at a time when there is none, the run returns. The diagnosis is kept exactly if
the client reports nothing, or reports what the parser would note itself, or reports an error that
has a name and then requests no more at once than is left. -/
theorem diagnosisKept_iff (d : Bytes) (before : List Request) (reported : Option ParseResult)
    (after : List Request)
    (hmade : ∀ res ∈ reported, res ≠ .noError ∧
      ∃ observed p, run d (before.map .request) = pure (observed, p) ∧ p.error = .noError) :
    ∃ observed p', run d (script before reported after) = pure (observed, p') ∧
      (DiagnosisKept observed p' ↔ ∀ res ∈ reported, res = .packetTooShort ∨
        res ≠ .unsupported ∧ ∀ r ∈ after, requested before + r.size ≤ d.length) := by
  obtain ⟨p', hrun, hat⟩ := run_eq d (script before reported after)
  refine ⟨_, p', hrun, ?_⟩
  cases reported with
  | none =>
    have hscript : script before none after = (before ++ after).map .request := by
      rw [script, Option.toList_none, List.map_nil, List.nil_append, List.map_append]
    rw [hscript] at hat ⊢
    exact iff_of_true (diagnosisKept_of_requests hat) fun res hres ↦ absurd hres (by simp)
  | some res =>
    obtain ⟨hres, observed, p, hbefore, hno⟩ := hmade res rfl
    have hfits := requested_le_of_run hbefore hno
    have hquiet := (Cursor.requests_of_fits (a := ⟨d, .noError⟩) rfl hfits).2
    have hleft : ∀ r : Request, r.size ≤ (d.drop (requested before)).length ↔
        requested before + r.size ≤ d.length := by
      intro r
      rw [List.length_drop]
      omega
    rw [Cursor.trace_script hfits] at hat ⊢
    rw [diagnosisKept_of_error hquiet hres hat]
    simp only [hleft, Option.mem_def, Option.some.injEq, forall_eq']

/-- A client that finds a wrong version and then skips a header that is not there is told that the
packet is too short; and one that reports an unsupported feature reads beyond the table of names. -/
theorem diagnosis_lost :
    ¬ (∀ (d : Bytes) (before : List Request) (reported : Option ParseResult)
        (after : List Request),
      (∀ res ∈ reported, res ≠ .noError ∧
        ∃ observed p, run d (before.map .request) = pure (observed, p) ∧ p.error = .noError) →
      ∃ observed p', run d (script before reported after) = pure (observed, p') ∧
        DiagnosisKept observed p') ∧
    (∃ observed p', run [0x60] (script [.read .u8] (some .wrongIPVersion) [.removePrefix 19]) =
      pure (observed, p') ∧ observed.map Observation.error =
        [.noError, .wrongIPVersion, .packetTooShort] ∧ p'.error = .packetTooShort) ∧
    ∃ observed p', run [0x60] (script [.read .u8] (some .unsupported) []) = pure (observed, p') ∧
      p'.error.asString = .error (.undefined .outOfBounds) := by
  refine ⟨fun hclaim ↦ ?_, ⟨_, _, rfl, rfl, rfl⟩, ⟨_, _, rfl, rfl⟩⟩
  have hmade : ∀ res ∈ some ParseResult.wrongIPVersion, res ≠ .noError ∧
      ∃ observed p, run [0x60] (List.map .request [.read .u8]) = pure (observed, p) ∧
        p.error = .noError := by
    rintro _ ⟨⟩
    exact ⟨by decide, _, _, rfl, rfl⟩
  obtain ⟨observed, p', hrun, -, hend, -⟩ :=
    hclaim [0x60] [.read .u8] (some .wrongIPVersion) [.removePrefix 19] hmade
  obtain ⟨rfl, rfl⟩ := Prod.mk.inj (Except.ok.inj hrun)
  have hkept := hend ⟨none, .wrongIPVersion, []⟩ (by decide) (by decide)
  cases hkept

/-- An error with a name, reported before nothing more is requested. -/
theorem diagnosisKept_wrongIPVersion :
    ∃ observed p', run [0x60] (script [.read .u8] (some .wrongIPVersion) [.removePrefix 0]) =
      pure (observed, p') ∧ DiagnosisKept observed p' := by
  obtain ⟨observed, p', hrun, hiff⟩ := diagnosisKept_iff [0x60] [.read .u8] (some .wrongIPVersion)
    [.removePrefix 0] (by rintro _ ⟨⟩; exact ⟨by decide, _, _, rfl, rfl⟩)
  refine ⟨observed, p', hrun, hiff.2 ?_⟩
  rintro _ ⟨⟩
  exact Or.inr ⟨by decide, by decide⟩

end NetParser
