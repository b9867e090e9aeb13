import Sponge.Lib.BigEndian
import Sponge.Parser.Basic

/-!
# Parsing and unparsing are inverse to each other

Correctness of `NetParser` and `NetUnparser` over whole records, in both directions. Encoder and
decoder are written independently, so they are not compared with each other: each is shown to be the
big-endian encoding of `BigEndian`, the encoder by `unparseInt_eq` and the decoder by
`parseInt_of_le`, and a record is then a sequence of such steps.

Running out of data is an error that stays, so a run that ends without one never ran out
(`parseRecord_of_hasError`).
-/

open Cpp

/-! ### The decoder -/

namespace NetParser

variable {p : NetParser} {w : Width} {n : ℕ}

theorem hasError_iff : p.hasError = true ↔ p.error ≠ .noError := by
  simp [hasError]

theorem checkSize_of_le (h : n ≤ p.buffer.size) : p.checkSize n = p := by
  rw [checkSize, if_neg (by omega)]

/-- After an error has been noted, or is noted now, there is one. -/
theorem hasError_checkSize (h : p.hasError = true ∨ p.buffer.size < n) :
    (p.checkSize n).hasError = true := by
  rw [checkSize]
  split
  · rfl
  · rename_i hle
    exact h.resolve_right hle

theorem charAt_of_lt {b : Buffer} {i : ℕ} (h : i < b.str.length) : b.charAt i = pure b.str[i] := by
  rw [Buffer.charAt, List.getElem?_eq_getElem h]

/-- **One turn of the loop** appends a digit. There is room for it in the narrow type as long as the
digits read so far are fewer than its bytes. -/
theorem accumulate_eq {i : ℕ} (hi : i < w.len) (hsize : w.len ≤ p.buffer.size) {ret : BitVec w.bits}
    (hret : ret.toNat = BigEndian.ofBytes (p.buffer.str.take i)) :
    ∃ ret', p.accumulate w i ret = pure ret' ∧
      ret'.toNat = BigEndian.ofBytes (p.buffer.str.take (i + 1)) := by
  have hlen : i < p.buffer.str.length := Nat.lt_of_lt_of_le hi hsize
  have htake : p.buffer.str.take (i + 1) = p.buffer.str.take i ++ [p.buffer.str[i]] :=
    List.take_succ_eq_append_getElem hlen
  have hdigits : BigEndian.ofBytes (p.buffer.str.take (i + 1)) =
      ret.toNat * 256 + (p.buffer.str[i]).toNat := by
    rw [htake, BigEndian.ofBytes_concat, hret]
  have hlt : BigEndian.ofBytes (p.buffer.str.take (i + 1)) < 2 ^ w.bits := by
    refine Nat.lt_of_lt_of_le (BigEndian.ofBytes_lt _) ?_
    rw [List.length_take, Nat.min_eq_left hlen, w.two_pow_bits]
    exact Nat.pow_le_pow_right (by decide) hi
  have hshift : w.promoted (ret.toNat * 2 ^ 8) = pure (ret.toNat * 256) :=
    Width.promoted_eq (n := ret.toNat * 256) (by omega)
  have hconvert : (w.convert (ret.toNat * 256)).toNat = ret.toNat * 256 :=
    Width.toNat_convert (by omega)
  have hadd : w.promoted (ret.toNat * 256 + (p.buffer.str[i]).toNat) =
      pure (ret.toNat * 256 + (p.buffer.str[i]).toNat) := Width.promoted_eq (hdigits ▸ hlt)
  refine ⟨w.convert (ret.toNat * 256 + (p.buffer.str[i]).toNat), ?_, ?_⟩
  · rw [accumulate, hshift, pure_bind, charAt_of_lt hlen]
    show (w.promoted ((w.convert (ret.toNat * 256)).toNat + (p.buffer.str[i]).toNat) >>=
      fun n ↦ pure (w.convert n)) = _
    rw [hconvert, hadd, pure_bind]
  · rw [hdigits, Width.toNat_convert (hdigits ▸ hlt)]

/-- `_buffer.remove_prefix` does not throw where the parser calls it. -/
theorem discard_of_le (h : n ≤ p.buffer.size) :
    ∃ p', p.discard n = pure p' ∧ p'.error = p.error ∧ p'.buffer.str = p.buffer.str.drop n := by
  obtain ⟨b, hb, hstr⟩ := Buffer.removePrefix_of_le h
  exact ⟨{ p with buffer := b }, by rw [discard, hb], rfl, hstr⟩

/-- **Reading an integer** when the data suffices. -/
theorem parseInt_of_le (he : p.error = .noError) (h : w.len ≤ p.buffer.size) :
    ∃ v p', p.parseInt w = pure (v, p') ∧
      v.toNat = BigEndian.ofBytes (p.buffer.str.take w.len) ∧
      p'.error = .noError ∧ p'.buffer.str = p.buffer.str.drop w.len := by
  have hok : ¬ p.hasError = true := by rw [hasError_iff, not_not, he]
  obtain ⟨v, hloop, hv⟩ := forLoop_rule
    (fun i (ret : BitVec w.bits) ↦ ret.toNat = BigEndian.ofBytes (p.buffer.str.take i))
    (n := w.len) (s := 0) (by simp) fun i ret hi hret ↦ accumulate_eq hi h hret
  obtain ⟨p', hdiscard, herror, hstr⟩ := discard_of_le h
  refine ⟨v, p', ?_, hv, herror.trans he, hstr⟩
  rw [parseInt, checkSize_of_le h, if_neg hok, hloop, pure_bind, hdiscard, pure_bind]

/-- Reading when there has been an error, or the data runs out: the value is `0` and the buffer is
left alone. -/
theorem parseInt_of_hasError (h : p.hasError = true ∨ p.buffer.size < w.len) :
    p.parseInt w = pure (0, p.checkSize w.len) := by
  rw [parseInt, if_pos (hasError_checkSize h)]

theorem removePrefix_of_le (he : p.error = .noError) (h : n ≤ p.buffer.size) :
    ∃ p', p.removePrefix n = pure p' ∧ p'.error = .noError ∧
      p'.buffer.str = p.buffer.str.drop n := by
  have hok : ¬ p.hasError = true := by rw [hasError_iff, not_not, he]
  obtain ⟨p', hdiscard, herror, hstr⟩ := discard_of_le h
  refine ⟨p', ?_, herror.trans he, hstr⟩
  rw [removePrefix, checkSize_of_le h, if_neg hok, hdiscard]

theorem removePrefix_of_hasError (h : p.hasError = true ∨ p.buffer.size < n) :
    p.removePrefix n = pure (p.checkSize n) := by
  rw [removePrefix, if_pos (hasError_checkSize h)]

end NetParser

/-! ### The encoder -/

namespace NetUnparser

theorem theByte_eq (w : Width) (val : BitVec w.bits) (i : ℕ) :
    theByte w val i = UInt8.ofNat (val.toNat / 256 ^ (w.len - 1 - i)) := by
  have hmask : ∀ n : ℕ, UInt8.ofNat (n &&& 0xff) = UInt8.ofNat n := by
    intro n
    apply UInt8.toNat_inj.1
    rw [UInt8.toNat_ofNat', UInt8.toNat_ofNat', show (0xff : ℕ) = 2 ^ 8 - 1 from rfl,
      Nat.and_two_pow_sub_one_eq_mod, Nat.mod_mod]
  have hexp : (w.len - i - 1) * 8 = 8 * (w.len - 1 - i) := by omega
  rw [theByte, hmask, Nat.shiftRight_eq_div_pow, hexp, Nat.pow_mul]

/-- **Writing an integer** appends its big-endian bytes. -/
theorem unparseInt_eq (w : Width) (s : Bytes) (val : BitVec w.bits) :
    unparseInt w s val = s ++ BigEndian.toBytes w.len val.toNat := by
  rw [unparseInt, foldl_pushBack, BigEndian.toBytes]
  congr 1
  exact List.map_congr_left fun i _ ↦ theByte_eq w val i

end NetUnparser

/-! ### Records -/

/-- An integer of one of the widths. -/
structure NetField where
  width : Width
  value : BitVec width.bits

namespace NetField

/-- The field in network order. -/
def encode (f : NetField) : Bytes := BigEndian.toBytes f.width.len f.value.toNat

@[simp] theorem length_encode (f : NetField) : f.encode.length = f.width.len :=
  BigEndian.length_toBytes _ _

/-- A value is determined by its bytes. -/
theorem ofBytes_encode (f : NetField) : BigEndian.ofBytes f.encode = f.value.toNat := by
  have hlt : f.value.toNat < 256 ^ f.width.len := f.width.two_pow_bits ▸ f.value.isLt
  rw [encode, BigEndian.ofBytes_toBytes, Nat.mod_eq_of_lt hlt]

end NetField

/-- Unparse the fields of a record in order. -/
def NetUnparser.unparseRecord (s : Bytes) (fields : List NetField) : Bytes :=
  fields.foldl (fun s f ↦ write s f.width f.value) s

/-- Read a record by its schema. -/
def NetParser.parseRecord : List Width → NetParser → Eval Exn (List NetField × NetParser)
  | [], p => pure ([], p)
  | w :: schema, p => do
    let (v, p) ← p.read w
    let (fields, p) ← parseRecord schema p
    pure (⟨w, v⟩ :: fields, p)

theorem NetUnparser.unparseRecord_eq (s : Bytes) (fields : List NetField) :
    unparseRecord s fields = s ++ fields.flatMap NetField.encode := by
  induction fields generalizing s with
  | nil => rw [List.flatMap_nil, List.append_nil]; rfl
  | cons f fields ih =>
    rw [List.flatMap_cons, ← List.append_assoc, ← ih]
    show unparseRecord (write s f.width f.value) fields = _
    rw [write_eq, unparseInt_eq]
    rfl

namespace NetParser

variable {p : NetParser}

/-- A run of reads, one read at a time. -/
theorem parseRecord_cons {w : Width} {schema : List Width} {v : BitVec w.bits} {p₁ p₂ : NetParser}
    {fields : List NetField} (hw : p.parseInt w = pure (v, p₁))
    (hs : parseRecord schema p₁ = pure (fields, p₂)) :
    parseRecord (w :: schema) p = pure (⟨w, v⟩ :: fields, p₂) := by
  rw [parseRecord, read_eq, hw, pure_bind]
  show (parseRecord schema p₁ >>= _) = _
  rw [hs, pure_bind]

/-- **Decoding an encoded record** gives its fields back and leaves what follows. -/
theorem parseRecord_encode (fields : List NetField) (t : Bytes) (he : p.error = .noError)
    (hp : p.buffer.str = fields.flatMap NetField.encode ++ t) :
    ∃ p', parseRecord (fields.map NetField.width) p = pure (fields, p') ∧ p'.error = .noError ∧
      p'.buffer.str = t := by
  induction fields generalizing p with
  | nil => exact ⟨p, rfl, he, hp⟩
  | cons f fields ih =>
    rw [List.flatMap_cons, List.append_assoc] at hp
    have hlen : f.width.len ≤ p.buffer.size := by
      rw [Buffer.size, hp, List.length_append, f.length_encode]
      exact Nat.le_add_right _ _
    obtain ⟨v, p₁, hw, hv, he₁, hstr₁⟩ := parseInt_of_le he hlen
    rw [hp, List.take_left' f.length_encode, f.ofBytes_encode] at hv
    rw [hp, List.drop_left' f.length_encode] at hstr₁
    obtain ⟨p', hs, he', hstr'⟩ := ih he₁ hstr₁
    obtain rfl := BitVec.eq_of_toNat_eq hv
    exact ⟨p', parseRecord_cons hw hs, he', hstr'⟩

/-- **Errors stay**: a record read after one still has its fields, but ends with an error. -/
theorem parseRecord_of_hasError (schema : List Width) (h : p.hasError = true) :
    ∃ fields p', parseRecord schema p = pure (fields, p') ∧ fields.map NetField.width = schema ∧
      p'.hasError = true := by
  induction schema generalizing p with
  | nil => exact ⟨[], p, rfl, rfl, h⟩
  | cons w schema ih =>
    obtain ⟨fields, p', hs, hwidth, he⟩ := ih (p := p.checkSize w.len) (hasError_checkSize (.inl h))
    refine ⟨_, p', parseRecord_cons (parseInt_of_hasError (.inl h)) hs, ?_, he⟩
    rw [List.map_cons, hwidth]

/-- **Decoding any string**: the reads return, and unless they ran out of data the fields encode to
what was consumed. -/
theorem parseRecord_spec (schema : List Width) (he : p.error = .noError) :
    ∃ fields p', parseRecord schema p = pure (fields, p') ∧ fields.map NetField.width = schema ∧
      (p'.error = .noError → p.buffer.str = fields.flatMap NetField.encode ++ p'.buffer.str) := by
  induction schema generalizing p with
  | nil => exact ⟨[], p, rfl, rfl, fun _ ↦ rfl⟩
  | cons w schema ih =>
    by_cases hlen : w.len ≤ p.buffer.size
    · obtain ⟨v, p₁, hw, hv, he₁, hstr₁⟩ := parseInt_of_le he hlen
      obtain ⟨fields, p', hs, hwidth, hspec⟩ := ih he₁
      refine ⟨⟨w, v⟩ :: fields, p', parseRecord_cons hw hs, by rw [List.map_cons, hwidth], ?_⟩
      intro he'
      have hfield : NetField.encode ⟨w, v⟩ = p.buffer.str.take w.len := by
        have hback := BigEndian.toBytes_ofBytes (p.buffer.str.take w.len)
        rwa [List.length_take_of_le hlen, ← hv] at hback
      rw [List.flatMap_cons, hfield, List.append_assoc, ← hspec he', hstr₁, List.take_append_drop]
    · -- the data runs out here, and the error noted now is still there at the end
      have hshort : p.buffer.size < w.len := not_le.1 hlen
      obtain ⟨fields, p', hs, hwidth, he'⟩ :=
        parseRecord_of_hasError schema (hasError_checkSize (p := p) (.inr hshort))
      refine ⟨_, p', parseRecord_cons (parseInt_of_hasError (.inr hshort)) hs,
        by rw [List.map_cons, hwidth], fun hno ↦ absurd hno (hasError_iff.1 he')⟩

/-- A parser that skips the string in front reads the record back. -/
theorem parseRecord_unparseRecord (fields : List NetField) (s₀ t : Bytes) :
    ∃ p', (do
        let p := ofBuffer (.ofString (NetUnparser.unparseRecord s₀ fields ++ t))
        let p ← p.removePrefix s₀.length
        parseRecord (fields.map NetField.width) p) = pure (fields, p') ∧
      p'.error = .noError ∧ p'.buffer.str = t := by
  have hstr : (ofBuffer (.ofString (NetUnparser.unparseRecord s₀ fields ++ t))).buffer.str =
      s₀ ++ (fields.flatMap NetField.encode ++ t) := by
    show NetUnparser.unparseRecord s₀ fields ++ t = _
    rw [NetUnparser.unparseRecord_eq, List.append_assoc]
  have hlen : s₀.length ≤
      (ofBuffer (.ofString (NetUnparser.unparseRecord s₀ fields ++ t))).buffer.size := by
    rw [Buffer.size, hstr, List.length_append]
    exact Nat.le_add_right _ _
  obtain ⟨p, hskip, he, hp⟩ := removePrefix_of_le rfl hlen
  rw [hstr, List.drop_left] at hp
  obtain ⟨p', hparse, he', hp'⟩ := parseRecord_encode fields t he hp
  refine ⟨p', ?_, he', hp'⟩
  show ((ofBuffer _).removePrefix s₀.length >>= _) = _
  rw [hskip, pure_bind, hparse]

/-- What a parser has read without an error is the record of the consumed bytes. -/
theorem unparseRecord_parseRecord (schema : List Width) (d : Bytes) :
    ∃ fields p', parseRecord schema (ofBuffer (.ofString d)) = pure (fields, p') ∧
      fields.map NetField.width = schema ∧
      (p'.error = .noError →
        NetUnparser.unparseRecord [] fields = d.take (d.length - p'.buffer.size) ∧
        d.drop (d.length - p'.buffer.size) = p'.buffer.str ∧
        d.take (d.length - p'.buffer.size) = fields.flatMap NetField.encode) := by
  obtain ⟨fields, p', hparse, hwidth, hspec⟩ :=
    parseRecord_spec (p := ofBuffer (.ofString d)) schema rfl
  refine ⟨fields, p', hparse, hwidth, fun he ↦ ?_⟩
  have hd : d = fields.flatMap NetField.encode ++ p'.buffer.str := hspec he
  have hconsumed : d.length - p'.buffer.size = (fields.flatMap NetField.encode).length := by
    rw [hd, List.length_append, Buffer.size, Nat.add_sub_cancel]
  rw [hconsumed, NetUnparser.unparseRecord_eq, List.nil_append]
  refine ⟨?_, ?_, ?_⟩
  · rw [hd, List.take_left]
  · rw [hd, List.drop_left]
  · rw [hd, List.take_left]

/-- **The round trips.** Unparsing a record onto any string appends its fields in network order; a
parser that skips the string and reads by the same schema returns the fields without an error, and
is left with what had been appended after them. Conversely the reads of any schema from any string
return, and if they end without an error, unparsing what they returned gives the consumed bytes. -/
theorem record_roundTrip :
    (∀ (fields : List NetField) (s₀ : Bytes),
      NetUnparser.unparseRecord s₀ fields = s₀ ++ fields.flatMap NetField.encode) ∧
    (∀ (fields : List NetField) (s₀ t : Bytes), ∃ p',
      (do
        let p := ofBuffer (.ofString (NetUnparser.unparseRecord s₀ fields ++ t))
        let p ← p.removePrefix s₀.length
        parseRecord (fields.map NetField.width) p) = pure (fields, p') ∧
      p'.error = .noError ∧ p'.buffer.str = t) ∧
    ∀ (schema : List Width) (d : Bytes), ∃ fields p',
      parseRecord schema (ofBuffer (.ofString d)) = pure (fields, p') ∧
      fields.map NetField.width = schema ∧
      (p'.error = .noError →
        NetUnparser.unparseRecord [] fields = d.take (d.length - p'.buffer.size) ∧
        d.drop (d.length - p'.buffer.size) = p'.buffer.str ∧
        d.take (d.length - p'.buffer.size) = fields.flatMap NetField.encode) :=
  ⟨fun fields s₀ ↦ NetUnparser.unparseRecord_eq s₀ fields, parseRecord_unparseRecord,
    unparseRecord_parseRecord⟩

end NetParser
