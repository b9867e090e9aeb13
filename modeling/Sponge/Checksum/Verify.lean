import Sponge.Checksum.Correct
import Sponge.Parser.RoundTrip

/-!
# Verifying a checksum

What the receiver of a packet can conclude from the checksum, as statements about two runs of the
accumulator. `0` is the complement of the upper of the two zeros, so `value` returns it exactly for
the sums that are positive multiples of `65535` (`checksum_eq_zero_iff`).

* **A correct packet evaluates to zero.** The checksum is computed with zeros in its own place, and
  then written there.
* **A changed word is detected**, unless the change is from one zero to the other.
-/

namespace InternetChecksum

/-! ### Strings as sequences of words -/

/-- An even number of bytes is a whole number of words. -/
theorem words_append {a : Bytes} (b : Bytes) (ha : a.length % 2 = 0) :
    words (a ++ b) = words a ++ words b := by
  induction a using words.induct with
  | case1 => rfl
  | case2 hi => cases ha
  | case3 hi lo rest ih =>
    have hrest : rest.length % 2 = 0 := by
      rw [List.length_cons, List.length_cons] at ha
      omega
    show words (hi :: lo :: (rest ++ b)) = _
    rw [words, ih hrest, words, List.cons_append]

/-- `p` with the two bytes at `j` replaced by those of `c`, as `NetUnparser::u16` writes them. -/
def carrying (p : Bytes) (j : ℕ) (c : UInt16) : Bytes :=
  NetUnparser.u16 (p.take j) c.toBitVec ++ p.drop (j + 2)

theorem words_u16 (c : UInt16) : words (BigEndian.toBytes 2 c.toNat) = [c.toNat] := by
  have hc := c.toNat_lt
  have hbytes : BigEndian.toBytes 2 c.toNat =
      [UInt8.ofNat (c.toNat / 256), UInt8.ofNat c.toNat] := by
    rw [BigEndian.toBytes_succ, BigEndian.toBytes_succ, BigEndian.toBytes_zero]
    rfl
  rw [hbytes, words, words, UInt8.toNat_ofNat', UInt8.toNat_ofNat']
  congr 1
  omega

/-- The words around those two bytes stay the same, so the sum grows by `c`. -/
theorem exactSum_carrying (initialSum : UInt32) {p : Bytes} {j : ℕ} (hj : j % 2 = 0)
    (hhi : p[j]? = some 0) (hlo : p[j + 1]? = some 0) (c : UInt16) :
    exactSum initialSum (carrying p j c) = exactSum initialSum p + c.toNat := by
  have hlen : j + 1 < p.length := (List.getElem?_eq_some_iff.1 hlo).1
  have hp : p = p.take j ++ ([0, 0] ++ p.drop (j + 2)) := by
    obtain ⟨hlt, hget⟩ := List.getElem?_eq_some_iff.1 hhi
    obtain ⟨hlt', hget'⟩ := List.getElem?_eq_some_iff.1 hlo
    conv_lhs => rw [← List.take_append_drop j p, List.drop_eq_getElem_cons hlt,
      List.drop_eq_getElem_cons hlt', hget, hget']
    rfl
  have heven : (p.take j).length % 2 = 0 := by
    rw [List.length_take, Nat.min_eq_left (by omega), hj]
  have hcarrying : carrying p j c =
      p.take j ++ (BigEndian.toBytes 2 c.toNat ++ p.drop (j + 2)) := by
    have hwrite : NetUnparser.u16 (p.take j) c.toBitVec =
        p.take j ++ BigEndian.toBytes 2 c.toNat := NetUnparser.unparseInt_eq .u16 _ c.toBitVec
    rw [carrying, hwrite, List.append_assoc]
  have htwo : (BigEndian.toBytes 2 c.toNat).length % 2 = 0 := by rw [BigEndian.length_toBytes]
  have hwords : (words (carrying p j c)).sum = (words p).sum + c.toNat := by
    rw [hcarrying, words_append _ heven, words_append _ htwo, words_u16]
    conv_rhs => rw [hp, words_append _ heven, words_append _ rfl]
    simp only [List.sum_append, List.sum_cons, List.sum_nil]
    show _ = (words (p.take j)).sum + (0 + (words (p.drop (j + 2))).sum) + c.toNat
    omega
  rw [exactSum, exactSum, hwords, Nat.add_assoc]

/-! ### The values that verify -/

/-- `value` below the limit. -/
theorem value_of_lt {initialSum : UInt32} {p : Bytes} (h : exactSum initialSum p < 2 ^ 32) :
    ∃ v, (∀ chunks : List Bytes, chunks.flatten = p → ∀ fuel, 3 ≤ fuel →
        (chunks.foldl add (ofSum initialSum)).value fuel = some v) ∧
      v.toNat = checksum (exactSum initialSum p) := by
  obtain ⟨v, hv, hspec⟩ := value_spec ((ofSum initialSum).add p)
  have hsum := toNat_sum_ofSum initialSum [p]
  rw [add_flatten, List.flatten_singleton, Nat.mod_eq_of_lt h] at hsum
  refine ⟨v, fun chunks hchunks fuel hfuel ↦ ?_, ?_⟩
  · rw [add_flatten, hchunks, hv fuel hfuel]
  · rw [hspec, hsum, checksum_eq]

/-- The sums that verify: the positive multiples of `65535`. -/
theorem checksum_eq_zero_iff {T : ℕ} : checksum T = 0 ↔ 0 < T ∧ T % 65535 = 0 := by
  have hle := OnesComplement.rep_le (m := 0xffff) (by decide) T
  rw [checksum_eq, ← OnesComplement.rep_eq_self_iff (m := 0xffff) (by decide)]
  omega

/-- What `value` returns for a packet whose sum is exact, and when this verifies. -/
theorem verifies_of_lt {initialSum : UInt32} {p : Bytes} (h : exactSum initialSum p < 2 ^ 32) :
    ∃ v, (∀ fuel, 3 ≤ fuel → ((ofSum initialSum).add p).value fuel = some v) ∧
      (v = 0 ↔ 0 < exactSum initialSum p ∧ exactSum initialSum p % 65535 = 0) := by
  obtain ⟨v, hv, hspec⟩ := value_of_lt h
  refine ⟨v, fun fuel hfuel ↦ hv [p] (List.append_nil p) fuel hfuel, ?_⟩
  rw [← checksum_eq_zero_iff, ← hspec, ← UInt16.toNat_inj]
  rfl

/-- **A correct packet evaluates to zero.** Take a string with two zero bytes at an even offset, for
any initial value and however it is cut into `add` calls: `value` returns, and if the sum stays
below `2 ^ 32` with the checksum written over the zeros, then `value` of the packet so completed is
`0`, again for all ways to cut it. -/
theorem value_carrying (initialSum : UInt32) (p : Bytes) (j : ℕ) (hj : j % 2 = 0)
    (hhi : p[j]? = some 0) (hlo : p[j + 1]? = some 0) :
    ∃ c, (∀ chunks : List Bytes, chunks.flatten = p → ∀ fuel, 3 ≤ fuel →
        (chunks.foldl add (ofSum initialSum)).value fuel = some c) ∧
      (exactSum initialSum (carrying p j c) < 2 ^ 32 →
        ∀ chunks : List Bytes, chunks.flatten = carrying p j c → ∀ fuel, 3 ≤ fuel →
          (chunks.foldl add (ofSum initialSum)).value fuel = some 0) := by
  obtain ⟨c, hc, hspec⟩ := value_spec ((ofSum initialSum).add p)
  refine ⟨c, fun chunks hchunks fuel hfuel ↦ ?_, fun hlt ↦ ?_⟩
  · rw [add_flatten, hchunks, hc fuel hfuel]
  · have hsum := exactSum_carrying initialSum hj hhi hlo c
    -- the packet without its checksum is below the limit too
    have hbelow : exactSum initialSum p < 2 ^ 32 := by omega
    have haccumulated := toNat_sum_ofSum initialSum [p]
    rw [add_flatten, List.flatten_singleton, Nat.mod_eq_of_lt hbelow] at haccumulated
    rw [haccumulated] at hspec
    obtain ⟨v, hv, hvspec⟩ := value_of_lt hlt
    have hzero : v = 0 := by
      apply UInt16.toNat_inj.1
      rw [hvspec, checksum_eq, hsum, hspec, OnesComplement.rep_add_complement (by decide)]
      rfl
    rw [← hzero]
    exact hv

/-- Both zeros occur: the complement of `0` is written into a packet of zeros, and `0` into a packet
that already adds up to the upper zero. -/
theorem value_carrying_zeros :
    (exactSum 0 (carrying [0, 0, 0] 0 0xffff) < 2 ^ 32 ∧
      ∀ fuel, 3 ≤ fuel → ((ofSum 0).add (carrying [0, 0, 0] 0 0xffff)).value fuel = some 0) ∧
    exactSum 0 (carrying [0xff, 0xff, 0, 0] 2 0) < 2 ^ 32 ∧
      ∀ fuel, 3 ≤ fuel → ((ofSum 0).add (carrying [0xff, 0xff, 0, 0] 2 0)).value fuel = some 0 := by
  refine ⟨⟨by decide, ?_⟩, by decide, ?_⟩
  · obtain ⟨c, hc, hzero⟩ := value_carrying 0 [0, 0, 0] 0 rfl rfl rfl
    obtain rfl : c = 0xffff := Option.some.inj ((hc [[0, 0, 0]] rfl 3 (by decide)).symm.trans rfl)
    exact hzero (by decide) [carrying [0, 0, 0] 0 0xffff] (List.append_nil _)
  · obtain ⟨c, hc, hzero⟩ := value_carrying 0 [0xff, 0xff, 0, 0] 2 rfl rfl rfl
    obtain rfl : c = 0 :=
      Option.some.inj ((hc [[0xff, 0xff, 0, 0]] rfl 3 (by decide)).symm.trans rfl)
    exact hzero (by decide) [carrying [0xff, 0xff, 0, 0] 2 0] (List.append_nil _)

/-! ### Detecting a changed word -/

/-- Two strings whose words are the same except for one, `w` in the first and `w'` in the second. An
odd last byte is a word with a zero low byte. -/
def DifferInWord (p p' : Bytes) (w w' : ℕ) : Prop :=
  w ≠ w' ∧ ∃ before after, words p = before ++ w :: after ∧ words p' = before ++ w' :: after

/-- **A changed word is detected.** If a string verifies, then one that differs from it in a word
does not, unless the two words are the two zeros; and if they are, it does unless its own sum is the
lower zero. -/
theorem value_detects {initialSum : UInt32} {p p' : Bytes} {w w' fuel₀ : ℕ}
    (hdiff : DifferInWord p p' w w') (hp : exactSum initialSum p < 2 ^ 32)
    (hp' : exactSum initialSum p' < 2 ^ 32)
    (hzero : ((ofSum initialSum).add p).value fuel₀ = some 0) :
    ∃ v, (∀ fuel, 3 ≤ fuel → ((ofSum initialSum).add p').value fuel = some v) ∧
      (¬ (w = 0 ∧ w' = 0xffff ∨ w = 0xffff ∧ w' = 0) → v ≠ 0) ∧
      ((w = 0 ∧ w' = 0xffff ∨ w = 0xffff ∧ w' = 0) → (v = 0 ↔ exactSum initialSum p' ≠ 0)) := by
  obtain ⟨hne, before, after, hwords, hwords'⟩ := hdiff
  have hmem : ∀ x, x ∈ before ++ x :: after := fun x ↦
    List.mem_append_right before List.mem_cons_self
  have hw : w ≤ 0xffff := le_of_mem_words (hwords ▸ hmem w)
  have hw' : w' ≤ 0xffff := le_of_mem_words (hwords' ▸ hmem w')
  -- the two sums differ by the two words
  have hsums : exactSum initialSum p + w' = exactSum initialSum p' + w := by
    rw [exactSum, exactSum, hwords, hwords', List.sum_append, List.sum_append, List.sum_cons,
      List.sum_cons]
    omega
  obtain ⟨v₀, hv₀, hv₀zero⟩ := verifies_of_lt hp
  obtain ⟨v, hv, hvzero⟩ := verifies_of_lt hp'
  have hsum₀ : 0 < exactSum initialSum p ∧ exactSum initialSum p % 65535 = 0 := by
    have hlarge := hv₀ (max fuel₀ 3) (Nat.le_max_right _ _)
    have hmono : ((ofSum initialSum).add p).value (max fuel₀ 3) = some 0 :=
      loop_mono (Nat.le_max_left _ _) hzero
    exact hv₀zero.1 (Option.some.inj (hlarge.symm.trans hmono))
  refine ⟨v, hv, ?_, ?_⟩
  · intro hother hverifies
    have hsum := hvzero.1 hverifies
    omega
  · intro hzeros
    rw [hvzero]
    omega

/-- A flipped bit in the odd last byte of a correct packet; and one zero exchanged for the other, in
a correct packet with something else in the sum and in one without. -/
theorem value_detects_cases :
    (∃ v, (∀ fuel, 3 ≤ fuel → ((ofSum 0xff).add [0xfe]).value fuel = some v) ∧ v ≠ 0) ∧
    (∀ fuel, 3 ≤ fuel → ((ofSum 0xffff).add [0xff, 0xff]).value fuel = some 0) ∧
    ∃ v, (∀ fuel, 3 ≤ fuel → ((ofSum 0).add [0, 0]).value fuel = some v) ∧ v ≠ 0 := by
  refine ⟨?_, ?_, ?_⟩
  · obtain ⟨v, hv, hne, -⟩ := @value_detects 0xff [0xff] [0xfe] 0xff00 0xfe00 3
      ⟨by decide, [], [], rfl, rfl⟩ (by decide) (by decide) rfl
    exact ⟨v, hv, hne (by decide)⟩
  · obtain ⟨v, hv, -, hzeros⟩ := @value_detects 0xffff [0, 0] [0xff, 0xff] 0 0xffff 3
      ⟨by decide, [], [], rfl, rfl⟩ (by decide) (by decide) rfl
    obtain rfl : v = 0 := (hzeros (by decide)).2 (by decide)
    exact hv
  · obtain ⟨v, hv, -, hzeros⟩ := @value_detects 0 [0xff, 0xff] [0, 0] 0xffff 0 3
      ⟨by decide, [], [], rfl, rfl⟩ (by decide) (by decide) rfl
    exact ⟨v, hv, fun hzero ↦ (hzeros (by decide)).1 hzero (by decide)⟩

end InternetChecksum
