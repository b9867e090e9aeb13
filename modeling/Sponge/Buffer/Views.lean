import Sponge.Buffer.Faithful

/-!
# Views of buffer lists

The string that a `BufferViewList` denotes, and what its operations do to it. Taking a view of a
`BufferList` and turning a view into iovecs both keep the string, segment by segment, and so does
removing a prefix before or after.

Both classes find out that there is too little to remove only when all segments are gone, and a call
that throws does not bring them back.
-/

namespace BufferViewList

/-- The string denoted by a list of views. -/
def contents (v : BufferViewList) : Bytes := segmentOps.contents v.views

@[simp] theorem views_ofBufferList (l : BufferList) :
    (ofBufferList l).views = l.buffers.map Buffer.str :=
  Cpp.foldl_pushBack Buffer.str l.buffers []

/-- **A view of a list denotes the list's string.** -/
@[simp] theorem contents_ofBufferList (l : BufferList) :
    (ofBufferList l).contents = l.concatenate := by
  rw [contents, views_ofBufferList, BufferList.concatenate_eq, SegmentOps.contents,
    List.flatMap_map]
  rfl

/-- **The iovecs hand over the string.** -/
theorem iovecBytes_asIovecs (v : BufferViewList) :
    iovecBytes v.asIovecs = v.contents := by
  rw [iovecBytes, asIovecs, List.flatMap_map, contents, SegmentOps.contents]
  simp only [List.take_length]
  rfl

theorem size_eq_mod (v : BufferViewList) : v.size = v.contents.length % 2 ^ 64 := by
  rw [size, Cpp.foldl_szAdd _ _ (by decide), Nat.zero_add, contents, SegmentOps.length_contents]
  rfl

theorem size_ofBufferList (l : BufferList) : (ofBufferList l).size = l.size := by
  rw [size_eq_mod, contents_ofBufferList, BufferList.size_eq_mod]

theorem size_lt (v : BufferViewList) : v.size < 2 ^ 64 := by
  rw [size_eq_mod]
  exact Nat.mod_lt _ (by decide)

theorem removePrefix_of_le {v : BufferViewList} {n : ℕ} (h : n ≤ v.contents.length) :
    ∃ v', v.removePrefix n = .ok () v' ∧ v'.contents = v.contents.drop n := by
  obtain ⟨vs, hok, hvs⟩ :=
    SegmentOps.removePrefix_of_le (.outOfRange "BufferListView::remove_prefix") h
  exact ⟨⟨vs⟩, by rw [removePrefix, hok], hvs⟩

/-- Past the end the exception is thrown from an emptied list, as it is for buffers. -/
theorem removePrefix_of_gt {v : BufferViewList} {n : ℕ} (h : v.contents.length < n) :
    v.removePrefix n = .error (.outOfRange "BufferListView::remove_prefix") ⟨[]⟩ := by
  rw [removePrefix, SegmentOps.removePrefix_of_gt _ h]

/-! ### Views and the lists they are of -/

/-- A cut inside a buffer is the cut inside its view. -/
theorem cut_str (b : Buffer) (n : ℕ) (b' : Buffer) (h : n < b.str.length)
    (hok : b.removePrefix n = .ok () b') : segmentOps.cut b.str n = .ok () b'.str := by
  obtain ⟨b'', hok', hstr⟩ := Buffer.removePrefix_of_le (Nat.le_of_lt h)
  obtain rfl := (EStateM.Result.ok.inj (hok'.symm.trans hok)).2
  rw [hstr]
  rfl

/-- **Removing a prefix commutes with taking a view**, within the string. -/
theorem removePrefix_ofBufferList {l : BufferList} {n : ℕ} (h : n ≤ l.concatenate.length) :
    ∃ l', l.removePrefix n = .ok () l' ∧
      (ofBufferList l).removePrefix n = .ok () (ofBufferList l') := by
  rw [BufferList.concatenate_eq] at h
  obtain ⟨bs, hok, -⟩ :=
    SegmentOps.removePrefix_of_le (.outOfRange "BufferList::remove_prefix") h
  refine ⟨⟨bs⟩, by rw [BufferList.removePrefix, hok], ?_⟩
  have hviews := SegmentOps.removePrefix_map (T := segmentOps) (f := Buffer.str) _
    (.outOfRange "BufferListView::remove_prefix") (fun _ ↦ rfl) cut_str hok
  rw [removePrefix, views_ofBufferList, hviews, ← views_ofBufferList]

/-- **Views and lists agree.** For every list and every `n` up to its size, the two ways to discard
`n` bytes of a view end with the same segments; past the length of the string both throw, and that
is past the size if the length is below `2 ^ 64`. A view always has the size of its list, one
iovec of the same length for each buffer, and hands over the list's string. -/
theorem removePrefix_commutes (l : BufferList) :
    (∀ n ≤ l.size, ∃ l' v', l.removePrefix n = .ok () l' ∧
      (ofBufferList l).removePrefix n = .ok () v' ∧ v' = ofBufferList l' ∧
      v'.views = l'.buffers.map Buffer.str ∧
      v'.asIovecs.map Iovec.iovLen = l'.buffers.map Buffer.size ∧ v'.size = l'.size) ∧
    (∀ n > l.concatenate.length,
      (∃ l', l.removePrefix n = .error (.outOfRange "BufferList::remove_prefix") l') ∧
      ∃ v', (ofBufferList l).removePrefix n =
        .error (.outOfRange "BufferListView::remove_prefix") v') ∧
    (l.concatenate.length < 2 ^ 64 → l.size = l.concatenate.length) ∧
    (ofBufferList l).size = l.size ∧
    iovecBytes (ofBufferList l).asIovecs = l.concatenate := by
  refine ⟨fun n hn ↦ ?_, fun n hn ↦ ?_, BufferList.size_eq, size_ofBufferList l,
    (iovecBytes_asIovecs _).trans (contents_ofBufferList l)⟩
  · have hle : n ≤ l.concatenate.length := by
      refine Nat.le_trans hn ?_
      rw [BufferList.size_eq_mod]
      exact Nat.mod_le _ _
    obtain ⟨l', hlist, hview⟩ := removePrefix_ofBufferList hle
    refine ⟨l', ofBufferList l', hlist, hview, rfl, views_ofBufferList l', ?_,
      size_ofBufferList l'⟩
    rw [asIovecs, views_ofBufferList, List.map_map, List.map_map]
    rfl
  · refine ⟨⟨_, BufferList.removePrefix_of_gt hn⟩, _, removePrefix_of_gt ?_⟩
    rw [contents_ofBufferList]
    exact hn

/-- A list of `k` buffers that share one string of `m` bytes. -/
def copies (k m : ℕ) : BufferList := ⟨List.replicate k (Buffer.ofString (List.replicate m 0))⟩

theorem length_copies (k m : ℕ) : (copies k m).concatenate.length = k * m := by
  rw [BufferList.concatenate_eq, SegmentOps.length_contents, copies, List.map_replicate,
    List.sum_replicate_nat]
  exact congrArg (k * ·) List.length_replicate

/-- The size is not the length when that reaches `2 ^ 64`, as it does when `2 ^ 32` buffers share a
string of `2 ^ 32` bytes: the size is then `0`, and yet a byte can be removed either way. -/
theorem removePrefix_past_size :
    (copies (2 ^ 32) (2 ^ 32)).size < 1 ∧
    (∃ l', (copies (2 ^ 32) (2 ^ 32)).removePrefix 1 = .ok () l') ∧
    ∃ v', (ofBufferList (copies (2 ^ 32) (2 ^ 32))).removePrefix 1 = .ok () v' := by
  have hlen := length_copies (2 ^ 32) (2 ^ 32)
  have hone : 1 ≤ (copies (2 ^ 32) (2 ^ 32)).concatenate.length := by rw [hlen]; decide
  obtain ⟨l', hlist, hview⟩ := removePrefix_ofBufferList hone
  refine ⟨?_, ⟨l', hlist⟩, _, hview⟩
  rw [BufferList.size_eq_mod, hlen]
  decide

/-- Cutting inside the second of three segments, the first of which is empty, and past the end. -/
theorem removePrefix_commutes_segments :
    ∃ l' : BufferList, (BufferList.mk [.default, .ofString [1, 2], .ofString [3]]).removePrefix 1 =
      .ok () l' ∧ (ofBufferList l').views = [[2], [3]] ∧
      ∃ v', (ofBufferList ⟨[.default, .ofString [1, 2], .ofString [3]]⟩).removePrefix 4 =
        .error (.outOfRange "BufferListView::remove_prefix") v' := by
  obtain ⟨hle, hgt, -, -⟩ :=
    removePrefix_commutes ⟨[.default, .ofString [1, 2], .ofString [3]]⟩
  obtain ⟨l', v', hlist, -, rfl, -⟩ := hle 1 (by decide)
  refine ⟨l', hlist, ?_, (hgt 4 (by decide)).2⟩
  obtain rfl := (EStateM.Result.ok.inj hlist).2
  rfl

/-! ### Failing -/

/-- An exception comes from the loop, with the segments that it leaves. -/
theorem removePrefix_eq_error {v v' : BufferViewList} {n : ℕ} {e : Exn} :
    v.removePrefix n = .error e v' ↔ segmentOps.removePrefix
      (.outOfRange "BufferListView::remove_prefix") v.views n = .error e v'.views := by
  rw [removePrefix]
  split
  · rename_i hloop
    rw [hloop]
    exact iff_of_false (fun h ↦ nomatch h) (fun h ↦ nomatch h)
  · rename_i hloop
    rw [hloop, EStateM.Result.error.injEq, EStateM.Result.error.injEq, BufferViewList.ext_iff]

/-- **A failed call changes something**, unless there was nothing to change: for every number of
bytes past the size, a list of buffers or of views is left as it was by an exception exactly if it
has no segments. -/
theorem removePrefix_unchanged_iff (l : BufferList) (v : BufferViewList) {n m : ℕ} (hn : l.size < n)
    (hm : v.size < m) :
    (l.removePrefix n = .error (.outOfRange "BufferList::remove_prefix") l ↔ l.buffers = []) ∧
    (v.removePrefix m = .error (.outOfRange "BufferListView::remove_prefix") v ↔ v.views = []) := by
  rw [BufferList.removePrefix_eq_error, removePrefix_eq_error]
  exact ⟨SegmentOps.removePrefix_unchanged _ (Nat.zero_lt_of_lt hn),
    SegmentOps.removePrefix_unchanged _ (Nat.zero_lt_of_lt hm)⟩

/-- Three bytes cannot be removed from a list of two, and afterwards the two are gone. -/
theorem removePrefix_loses :
    (BufferList.ofString [1, 2]).size < 3 ∧
    (BufferList.ofString [1, 2]).removePrefix 3 =
      .error (.outOfRange "BufferList::remove_prefix") ⟨[]⟩ ∧
    ¬ (BufferList.ofString [1, 2]).removePrefix 3 =
      .error (.outOfRange "BufferList::remove_prefix") (BufferList.ofString [1, 2]) ∧
    (ofString [1, 2]).size < 3 ∧
    (ofString [1, 2]).removePrefix 3 =
      .error (.outOfRange "BufferListView::remove_prefix") ⟨[]⟩ ∧
    ¬ (ofString [1, 2]).removePrefix 3 =
      .error (.outOfRange "BufferListView::remove_prefix") (ofString [1, 2]) := by
  refine ⟨by decide, rfl, fun h ↦ ?_, by decide, rfl, fun h ↦ ?_⟩
  · have hsame : BufferList.mk [] = BufferList.ofString [1, 2] := (EStateM.Result.error.inj h).2
    exact absurd (congrArg BufferList.size hsame) (by decide)
  · have hsame : BufferViewList.mk [] = ofString [1, 2] := (EStateM.Result.error.inj h).2
    exact absurd (congrArg BufferViewList.size hsame) (by decide)

/-- Nothing can be lost from an empty list. -/
theorem removePrefix_unchanged_empty :
    BufferList.default.removePrefix 1 =
      .error (.outOfRange "BufferList::remove_prefix") BufferList.default ∧
    (BufferViewList.mk []).removePrefix 1 =
      .error (.outOfRange "BufferListView::remove_prefix") ⟨[]⟩ := by
  obtain ⟨hlist, hview⟩ :=
    removePrefix_unchanged_iff BufferList.default ⟨[]⟩ (n := 1) (m := 1) (by decide) (by decide)
  exact ⟨hlist.2 rfl, hview.2 rfl⟩

end BufferViewList
