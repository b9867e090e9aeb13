import Sponge.Checksum.Basic
import Sponge.Lib.OnesComplement

/-!
# What the checksum computes, and up to where

The specification is arithmetic on exact sums: `words` cuts a string into 16-bit words and
`checksum` complements the ones'-complement representative of their sum. Two things stand between it
and the code.

* **Chunks.** The parity carried from one `add` to the next makes a sequence of calls the same as
  one call with the concatenation, whatever the lengths (`add_flatten`), and one call adds the exact
  sum of the words to the accumulator, modulo `2 ^ 32` (`toNat_sum_add`).
* **The limit.** `2 ^ 32` is congruent to `1` modulo `65535`, so each wrap of the accumulator loses
  exactly one. As long as fewer than `65535` of them have been lost the result is therefore wrong,
  and without any it is right: the bound `2 ^ 32` on the exact sum is sharp.
-/

/-! ### The specification -/

namespace InternetChecksum

/-- The big-endian 16-bit words of a string, an odd last byte padded with a zero low byte. -/
def words : Bytes → List ℕ
  | [] => []
  | [hi] => [hi.toNat * 256]
  | hi :: lo :: rest => (hi.toNat * 256 + lo.toNat) :: words rest

/-- The exact sum of an initial value and the words of a string. -/
def exactSum (initialSum : UInt32) (data : Bytes) : ℕ := initialSum.toNat + (words data).sum

/-- The checksum of an exact sum. -/
def checksum (T : ℕ) : ℕ := if T = 0 then 0xffff else 0xffff - ((T - 1) % 65535 + 1)

/-- The same checksum as it is defined word by word: add with end-around carry, starting with the
two halves of the initial value, and complement. -/
def wordwiseChecksum (initialSum : UInt32) (data : Bytes) : ℕ :=
  0xffff - (initialSum.toNat / 2 ^ 16 :: initialSum.toNat % 2 ^ 16 :: words data).foldl
    (OnesComplement.add 0xffff) 0

theorem checksum_eq (T : ℕ) : checksum T = 0xffff - OnesComplement.rep 0xffff T := by
  rw [checksum, OnesComplement.rep]
  split
  · rfl
  · rfl

theorem le_of_mem_words {data : Bytes} {x : ℕ} (hx : x ∈ words data) : x ≤ 0xffff := by
  induction data using words.induct with
  | case1 => exact absurd hx List.not_mem_nil
  | case2 hi =>
    have hhi := hi.toNat_lt
    obtain rfl := List.mem_singleton.1 hx
    omega
  | case3 hi lo rest ih =>
    have hhi := hi.toNat_lt
    have hlo := lo.toNat_lt
    rcases List.mem_cons.1 hx with rfl | hmem
    · omega
    · exact ih hmem

/-- The two forms of the specification agree. -/
theorem wordwiseChecksum_eq (initialSum : UInt32) (data : Bytes) :
    wordwiseChecksum initialSum data = checksum (exactSum initialSum data) := by
  have hinit := initialSum.toNat_lt
  have hle : ∀ x ∈ initialSum.toNat / 2 ^ 16 :: initialSum.toNat % 2 ^ 16 :: words data,
      x ≤ 0xffff := by
    rintro x hx
    rcases List.mem_cons.1 hx with rfl | hx
    · omega
    rcases List.mem_cons.1 hx with rfl | hx
    · omega
    · exact le_of_mem_words hx
  have hfold := OnesComplement.foldl_add (m := 0xffff) (by decide) hle 0
  rw [OnesComplement.rep_zero, Nat.zero_add, List.sum_cons, List.sum_cons, ← Nat.add_assoc] at hfold
  -- the initial value and the sum of its two halves differ by a folding step
  have hhalves : OnesComplement.rep 0xffff
      (initialSum.toNat / 2 ^ 16 + initialSum.toNat % 2 ^ 16 + (words data).sum) =
      OnesComplement.rep 0xffff (initialSum.toNat + (words data).sum) := OnesComplement.rep_fold _ _
  rw [wordwiseChecksum, hfold, checksum_eq, exactSum, ← hhalves]

/-! ### Adding -/

/-- The sum of the bytes of a string, alternately as low and as high bytes. -/
def sumFrom : Bool → Bytes → ℕ
  | _, [] => 0
  | parity, byte :: rest =>
    (if parity then byte.toNat else byte.toNat * 256) + sumFrom (!parity) rest

/-- Starting with a high byte, the bytes make up the words. -/
theorem sumFrom_false (data : Bytes) : sumFrom false data = (words data).sum := by
  induction data using words.induct with
  | case1 => rfl
  | case2 hi => rfl
  | case3 hi lo rest ih =>
    show hi.toNat * 256 + (lo.toNat + sumFrom false rest) = _
    rw [ih, words, List.sum_cons, Nat.add_assoc]

theorem toNat_sum_addByte (c : InternetChecksum) (byte : UInt8) :
    (c.addByte byte).sum.toNat =
      (c.sum.toNat + if c.parity then byte.toNat else byte.toNat * 256) % 2 ^ 32 := by
  have hbyte := byte.toNat_lt
  cases hp : c.parity with
  | false =>
    have hshift : (byte.toUInt16 <<< 8).toNat = byte.toNat * 256 := by
      rw [UInt16.toNat_shiftLeft, UInt8.toNat_toUInt16, Nat.shiftLeft_eq]
      show byte.toNat * 2 ^ 8 % 2 ^ 16 = _
      omega
    simp only [addByte, hp, UInt32.toNat_add, UInt16.toNat_toUInt32]
    rw [Bool.not_false, if_pos rfl, hshift, if_neg (by decide)]
  | true =>
    simp only [addByte, hp, UInt32.toNat_add, UInt16.toNat_toUInt32]
    rw [Bool.not_true, if_neg (by decide), UInt8.toNat_toUInt16, if_pos trivial]

/-- **One call of `add`** adds the exact sum of its bytes, modulo `2 ^ 32`. -/
theorem toNat_sum_add (c : InternetChecksum) (data : Bytes) :
    (c.add data).sum.toNat = (c.sum.toNat + sumFrom c.parity data) % 2 ^ 32 := by
  induction data generalizing c with
  | nil => exact (Nat.mod_eq_of_lt c.sum.toNat_lt).symm
  | cons byte data ih =>
    show ((c.addByte byte).add data).sum.toNat = _
    rw [ih, toNat_sum_addByte, Nat.mod_add_mod, Nat.add_assoc]
    rfl

/-- **A sequence of calls** is one call with the concatenation. -/
theorem add_flatten (c : InternetChecksum) (chunks : List Bytes) :
    chunks.foldl add c = c.add chunks.flatten :=
  List.foldl_flatten.symm

theorem toNat_sum_ofSum (initialSum : UInt32) (chunks : List Bytes) :
    (chunks.foldl add (ofSum initialSum)).sum.toNat =
      exactSum initialSum chunks.flatten % 2 ^ 32 := by
  rw [add_flatten, toNat_sum_add]
  show (initialSum.toNat + sumFrom false chunks.flatten) % 2 ^ 32 = _
  rw [sumFrom_false, exactSum]

/-! ### Folding -/

/-- **Everything a turn can do**: fold the high half onto the low half, or complement. -/
theorem foldTurn_cases (ret : UInt32) :
    (0xffff < ret.toNat ∧ ∃ ret', foldTurn ret = .next ret' ∧
      ret'.toNat = ret.toNat / 2 ^ 16 + ret.toNat % 2 ^ 16) ∨
    (ret.toNat ≤ 0xffff ∧ ∃ v, foldTurn ret = .done v ∧ v.toNat = 0xffff - ret.toNat) := by
  have hlt := ret.toNat_lt
  by_cases hgt : ret > 0xffff
  · refine Or.inl ⟨UInt32.lt_iff_toNat_lt.1 hgt, _, if_pos hgt, ?_⟩
    have hhigh : (ret >>> 16).toNat = ret.toNat / 2 ^ 16 := by
      rw [UInt32.toNat_shiftRight, Nat.shiftRight_eq_div_pow]
      rfl
    have hlow : (ret &&& 0xffff).toNat = ret.toNat % 2 ^ 16 := by
      rw [UInt32.toNat_and]
      exact Nat.and_two_pow_sub_one_eq_mod _ 16
    rw [UInt32.toNat_add, hhigh, hlow]
    omega
  · have hle : ret.toNat ≤ 0xffff := not_lt.1 fun h ↦ hgt (UInt32.lt_iff_toNat_lt.2 h)
    refine Or.inr ⟨hle, _, if_neg hgt, ?_⟩
    rw [UInt32.toNat_toUInt16, UInt32.toNat_not]
    show (2 ^ 32 - 1 - ret.toNat) % 2 ^ 16 = _
    omega

/-- How many turns the folding takes. -/
def turnsLeft (ret : UInt32) : ℕ :=
  if ret.toNat ≤ 0xffff then 0 else if ret.toNat ≤ 0x1fffe then 1 else 2

theorem turnsLeft_le (ret : UInt32) : turnsLeft ret ≤ 2 := by
  rw [turnsLeft]
  split_ifs <;> decide

/-- **`value` returns**, after at most two turns, and complements the representative of the
accumulator. -/
theorem value_spec (c : InternetChecksum) :
    ∃ v, (∀ fuel, 3 ≤ fuel → c.value fuel = some v) ∧
      v.toNat = 0xffff - OnesComplement.rep 0xffff c.sum.toNat := by
  have htotal : ∃ v, loop foldTurn 3 c.sum = some v ∧
      v.toNat = 0xffff - OnesComplement.rep 0xffff c.sum.toNat := by
    -- folding keeps the representative, and the second time there is at most one carry left
    refine loop_total
      (fun ret ↦ OnesComplement.rep 0xffff ret.toNat = OnesComplement.rep 0xffff c.sum.toNat)
      _ turnsLeft ?_ ?_ rfl (Nat.lt_succ_of_le (turnsLeft_le c.sum))
    · rintro ret ret' hinv hturn
      rcases foldTurn_cases ret with ⟨hgt, t, hnext, ht⟩ | ⟨-, v, hdone, -⟩
      · obtain rfl := Turn.next.inj (hnext.symm.trans hturn)
        have hlt := ret.toNat_lt
        refine ⟨?_, ?_⟩
        · rw [ht, ← hinv]
          exact OnesComplement.rep_fold (m := 0xffff) ret.toNat 0
        · rw [turnsLeft, turnsLeft]
          split_ifs <;> omega
      · rw [hdone] at hturn
        cases hturn
    · rintro ret v hinv hturn
      rcases foldTurn_cases ret with ⟨-, t, hnext, -⟩ | ⟨hle, w, hdone, hw⟩
      · rw [hnext] at hturn
        cases hturn
      · obtain rfl := Turn.done.inj (hdone.symm.trans hturn)
        rw [hw, ← hinv, OnesComplement.rep_of_le hle]
  obtain ⟨v, hv, hspec⟩ := htotal
  exact ⟨v, fun fuel hfuel ↦ loop_mono hfuel hv, hspec⟩

/-! ### The limit -/

/-- **A dropped carry shows.** Reducing a sum modulo `2 ^ 32` changes its representative, as long as
fewer than `65535` carries are dropped. -/
theorem rep_mod_ne {T : ℕ} (hlo : 2 ^ 32 ≤ T) (hhi : T < 65535 * 2 ^ 32) :
    OnesComplement.rep 0xffff (T % 2 ^ 32) ≠ OnesComplement.rep 0xffff T := by
  intro heq
  have hcongr : T % 2 ^ 32 % 65535 = T % 65535 := by
    rw [← OnesComplement.rep_mod (m := 65535) (T % 2 ^ 32), heq, OnesComplement.rep_mod]
  omega

/-- The words of a string of at most `65535` bytes add up to less than `2 ^ 31`. -/
theorem sum_words_le (data : Bytes) : (words data).sum ≤ 65535 * ((data.length + 1) / 2) := by
  induction data using words.induct with
  | case1 => exact Nat.zero_le _
  | case2 hi =>
    have hhi := hi.toNat_lt
    rw [words, List.sum_cons, List.sum_nil, List.length_singleton]
    omega
  | case3 hi lo rest ih =>
    have hhi := hi.toNat_lt
    have hlo := lo.toNat_lt
    have hhalf : (rest.length + 1 + 1 + 1) / 2 = (rest.length + 1) / 2 + 1 := by omega
    rw [words, List.sum_cons, List.length_cons, List.length_cons, hhalf, Nat.mul_succ]
    omega

/-- **The checksum, with its exact limit.** The folding loop ends from every state. For every
initial value and every sequence of `add` calls, `value` is the checksum of the exact sum `T` if `T`
is below `2 ^ 32`, and some other value if `T` is beyond that and below `65535 * 2 ^ 32`; it is the
same for every other sequence of calls with the same concatenation. The specification is the
word-by-word one, and a datagram is always within the limit. -/
theorem value_correct :
    (∀ c : InternetChecksum, ∃ v, ∀ fuel, 3 ≤ fuel → c.value fuel = some v) ∧
    (∀ (initialSum : UInt32) (chunks : List Bytes), ∃ v,
      (∀ fuel, 3 ≤ fuel → (chunks.foldl add (ofSum initialSum)).value fuel = some v) ∧
      (exactSum initialSum chunks.flatten < 2 ^ 32 →
        v.toNat = checksum (exactSum initialSum chunks.flatten)) ∧
      (2 ^ 32 ≤ exactSum initialSum chunks.flatten →
        exactSum initialSum chunks.flatten < 65535 * 2 ^ 32 →
        v.toNat ≠ checksum (exactSum initialSum chunks.flatten)) ∧
      ∀ chunks' : List Bytes, chunks'.flatten = chunks.flatten →
        ∀ fuel, 3 ≤ fuel → (chunks'.foldl add (ofSum initialSum)).value fuel = some v) ∧
    (∀ (initialSum : UInt32) (data : Bytes),
      checksum (exactSum initialSum data) = wordwiseChecksum initialSum data) ∧
    ∀ (initialSum : UInt32) (data : Bytes), initialSum.toNat ≤ 2 ^ 31 → data.length ≤ 65535 →
      exactSum initialSum data < 2 ^ 32 := by
  refine ⟨fun c ↦ ?_, fun initialSum chunks ↦ ?_,
    fun initialSum data ↦ (wordwiseChecksum_eq initialSum data).symm, ?_⟩
  · obtain ⟨v, hv, -⟩ := value_spec c
    exact ⟨v, hv⟩
  · obtain ⟨v, hv, hspec⟩ := value_spec (chunks.foldl add (ofSum initialSum))
    rw [toNat_sum_ofSum] at hspec
    refine ⟨v, hv, fun hlt ↦ ?_, fun hlo hhi heq ↦ ?_, fun chunks' hflat ↦ ?_⟩
    · rw [hspec, Nat.mod_eq_of_lt hlt, checksum_eq]
    · rw [hspec, checksum_eq] at heq
      have hle := OnesComplement.rep_le (m := 0xffff) (by decide)
      have hle₁ := hle (exactSum initialSum chunks.flatten)
      have hle₂ := hle (exactSum initialSum chunks.flatten % 2 ^ 32)
      exact rep_mod_ne hlo hhi (by omega)
    · rw [add_flatten, hflat, ← add_flatten]
      exact hv
  · intro initialSum data hinit hlen
    have hwords := sum_words_le data
    rw [exactSum]
    omega

end InternetChecksum
