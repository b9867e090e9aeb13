import Mathlib.Algebra.Order.Ring.Int

/-!
# Discarding a prefix of a segmented string

A string kept as a queue of segments can drop its first `n` elements without copying: whole segments
are popped from the front while they fit into `n`, and the segment the cut falls into is shortened.
The segments may be of any type, and any of them may be empty.

A segment type is described by `SegmentOps`: the elements a segment denotes, and a `cut` that
shortens it. The cut may fail and leaves a segment behind either way; the law only speaks about the
cuts the loop makes, which are strictly inside the segment.

`removePrefix` returns the queue it leaves in both outcomes, since a failure is found only after
segments have been popped.
-/

/-- Segments of type `α` that denote lists of `β`. -/
structure SegmentOps (α β ε : Type) where
  /-- What a segment denotes. -/
  content : α → List β
  /-- Drop the first elements of a segment. -/
  cut : α → ℕ → EStateM.Result ε α Unit
  /-- A cut strictly inside a segment succeeds and drops exactly that many elements. -/
  cut_spec : ∀ a n, n < (content a).length →
    ∃ a', cut a n = .ok () a' ∧ content a' = (content a).drop n

namespace SegmentOps

variable {α β ε : Type} (S : SegmentOps α β ε)

/-- What a queue of segments denotes. -/
def contents (segs : List α) : List β := segs.flatMap S.content

/-- The loop: `while (n > 0)`, fail on an empty queue, cut the front segment if `n` ends inside it,
and otherwise pop it and go on with the rest of `n`. -/
def removePrefix (err : ε) : List α → ℕ → EStateM.Result ε (List α) Unit
  | [], n => if n > 0 then .error err [] else .ok () []
  | seg :: rest, n =>
    if n > 0 then
      if n < (S.content seg).length then
        match S.cut seg n with
        | .ok _ seg' => .ok () (seg' :: rest)
        | .error e seg' => .error e (seg' :: rest)
      else removePrefix err rest (n - (S.content seg).length)
    else .ok () (seg :: rest)

variable {S}

@[simp] theorem contents_nil : S.contents [] = [] := rfl

@[simp] theorem contents_cons (seg : α) (rest : List α) :
    S.contents (seg :: rest) = S.content seg ++ S.contents rest :=
  List.flatMap_cons

theorem contents_append (segs segs' : List α) :
    S.contents (segs ++ segs') = S.contents segs ++ S.contents segs' :=
  List.flatMap_append

theorem length_contents (segs : List α) :
    (S.contents segs).length = (segs.map fun seg ↦ (S.content seg).length).sum :=
  List.length_flatMap

@[simp] theorem removePrefix_zero (err : ε) (segs : List α) :
    S.removePrefix err segs 0 = .ok () segs := by
  cases segs <;> rfl

/-- **Within the string** the loop succeeds and drops exactly `n` elements. -/
theorem removePrefix_of_le (err : ε) {segs : List α} {n : ℕ} (h : n ≤ (S.contents segs).length) :
    ∃ segs', S.removePrefix err segs n = .ok () segs' ∧
      S.contents segs' = (S.contents segs).drop n := by
  induction segs generalizing n with
  | nil =>
    obtain rfl : n = 0 := by simpa using h
    exact ⟨[], rfl, rfl⟩
  | cons seg rest ih =>
    rw [contents_cons, List.length_append] at h
    rcases Nat.eq_zero_or_pos n with rfl | hpos
    · exact ⟨seg :: rest, removePrefix_zero _ _, rfl⟩
    rw [removePrefix, if_pos hpos, contents_cons]
    rcases Nat.lt_or_ge n (S.content seg).length with hlt | hge
    · obtain ⟨seg', hcut, hcontent⟩ := S.cut_spec seg n hlt
      rw [if_pos hlt, hcut]
      refine ⟨seg' :: rest, rfl, ?_⟩
      rw [contents_cons, hcontent, List.drop_append_of_le_length (Nat.le_of_lt hlt)]
    · rw [if_neg (by omega)]
      obtain ⟨segs', hok, hcontents⟩ := ih (n := n - (S.content seg).length) (by omega)
      refine ⟨segs', hok, ?_⟩
      rw [hcontents, List.drop_append, List.drop_of_length_le hge, List.nil_append]

/-- **Beyond the string** the loop fails, after it has popped every segment. -/
theorem removePrefix_of_gt (err : ε) {segs : List α} {n : ℕ} (h : (S.contents segs).length < n) :
    S.removePrefix err segs n = .error err [] := by
  induction segs generalizing n with
  | nil => exact if_pos (by simpa using h)
  | cons seg rest ih =>
    rw [contents_cons, List.length_append] at h
    rw [removePrefix, if_pos (by omega), if_neg (by omega)]
    exact ih (by omega)

/-- **A failure is not undone**: the queue is as it was only if there was nothing in it. -/
theorem removePrefix_unchanged (err : ε) {segs : List α} {n : ℕ} (hn : 0 < n) :
    S.removePrefix err segs n = .error err segs ↔ segs = [] := by
  constructor
  · intro h
    rcases Nat.lt_or_ge (S.contents segs).length n with hgt | hle
    · rw [removePrefix_of_gt err hgt] at h
      exact (EStateM.Result.error.inj h).2.symm
    · obtain ⟨segs', hok, -⟩ := removePrefix_of_le err hle
      rw [hok] at h
      cases h
  · rintro rfl
    exact if_pos hn

/-- **Two types of segments** whose cuts correspond: the loops over them end with corresponding
queues. -/
theorem removePrefix_map {γ δ ζ : Type} {T : SegmentOps γ δ ζ} {f : α → γ} (err : ε) (err' : ζ)
    (hlen : ∀ a, (T.content (f a)).length = (S.content a).length)
    (hcut : ∀ a n a', n < (S.content a).length → S.cut a n = .ok () a' →
      T.cut (f a) n = .ok () (f a'))
    {segs segs' : List α} {n : ℕ} (h : S.removePrefix err segs n = .ok () segs') :
    T.removePrefix err' (segs.map f) n = .ok () (segs'.map f) := by
  induction segs generalizing n with
  | nil =>
    rcases Nat.eq_zero_or_pos n with rfl | hpos
    · obtain rfl := (EStateM.Result.ok.inj h).2
      rfl
    · rw [removePrefix, if_pos hpos] at h
      cases h
  | cons seg rest ih =>
    rcases Nat.eq_zero_or_pos n with rfl | hpos
    · obtain rfl := (EStateM.Result.ok.inj h).2
      exact removePrefix_zero _ _
    rw [removePrefix, if_pos hpos] at h
    rw [List.map_cons, removePrefix, if_pos hpos, hlen]
    rcases Nat.lt_or_ge n (S.content seg).length with hlt | hge
    · obtain ⟨seg', hok, -⟩ := S.cut_spec seg n hlt
      rw [if_pos hlt, hok] at h
      obtain rfl := (EStateM.Result.ok.inj h).2
      rw [if_pos hlt, hcut seg n seg' hlt hok]
      rfl
    · rw [if_neg (Nat.not_lt.2 hge)] at h ⊢
      exact ih h

end SegmentOps
