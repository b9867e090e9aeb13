import Mathlib.Data.List.Basic
import Mathlib.Data.List.Induction
import Sponge.ByteStream.Basic
import Sponge.Lib.Digits
import Sponge.Lib.Loop

/-!
# Hexadecimal dumps

`hexdump` shows bytes in lines of sixteen: the offset, the bytes in groups of two and then those of
them that can be printed. It does so in one loop over the bytes with an `int` counter, and the end
of a line is noticed by the byte after it; the characters of the line wait in a `stringstream` until
then. The last line is finished after the loop, with as many spaces as there are bytes missing.

The counter overflows after `2 ^ 31 - 1` bytes. Up to there the loop writes what `lines` says, and
**the bytes can be read off the dump** (`readDump`): every line has its characters in the same
column, whatever its length.

The formatting state of `cout` is part of the model. The flags are put back at the end. The fill
character is not.
-/

open Cpp

/-! ### Output streams -/

/-- `basefield`. -/
inductive Base where
  | dec
  | oct
  | hex
  deriving DecidableEq, Repr

/-- `adjustfield`. -/
inductive Adjust where
  | left
  | right
  | internal
  deriving DecidableEq, Repr

/-- The flags that matter to the output of strings, and of numbers in base sixteen. -/
structure Flags where
  basefield : Base
  adjustfield : Adjust
  showbase : Bool
  uppercase : Bool
  deriving DecidableEq, Repr

/-- `std::ostream`: what has been written, and how the next item will be. -/
structure Ostream where
  text : Bytes
  flags : Flags
  fill : UInt8
  width : ℕ
  deriving DecidableEq, Repr

namespace Ostream

/-- Write an item, filled up to the width that was set for it. The front of a number is its sign or
the mark of its base. -/
def pad (o : Ostream) (front rest : Bytes) : Ostream :=
  let filler := List.replicate (o.width - (front ++ rest).length) o.fill
  let item := match o.flags.adjustfield with
    | .left => front ++ rest ++ filler
    | .right => filler ++ front ++ rest
    | .internal => front ++ filler ++ rest
  { o with text := o.text ++ item, width := 0 }

def insert (o : Ostream) (s : Bytes) : Ostream := o.pad [] s

/-- The letters of a numeral. -/
def cased (o : Ostream) (s : Bytes) : Bytes :=
  if o.flags.uppercase then s.map fun c ↦ if 97 ≤ c ∧ c ≤ 122 then c - 32 else c else s

/-- Write an `int` to a stream in base sixteen, where it is shown as an `unsigned`. No number is
written here to a stream in another base. -/
def insertHex (o : Ostream) (z : ℤ) : Ostream :=
  let n := (z % 2 ^ 32).toNat
  let mark := if o.flags.showbase ∧ n ≠ 0 then ascii "0x" else []
  o.pad (o.cased mark) (o.cased (Digits.text 16 n))

/-- `std::endl`, which does not look at the width. -/
def endl (o : Ostream) : Ostream := { o with text := o.text ++ ascii "\n" }

def hex (o : Ostream) : Ostream := { o with flags := { o.flags with basefield := .hex } }

def setfill (o : Ostream) (c : UInt8) : Ostream := { o with fill := c }

/-- `flags(f)`. -/
def setFlags (o : Ostream) (f : Flags) : Ostream := { o with flags := f }

def setw (o : Ostream) (n : ℕ) : Ostream := { o with width := n }

end Ostream

/-- `std::stringstream`: its contents, and where the next character goes. -/
structure Stringstream where
  str : Bytes
  pos : ℕ
  deriving DecidableEq, Repr

namespace Stringstream

/-- The constructor and `str(s)`. The position is at the beginning, **not behind the contents**. -/
def ofStr (s : Bytes) : Stringstream := ⟨s, 0⟩

/-- Write a character: over another, or at the end. -/
def put (s : Stringstream) (c : UInt8) : Stringstream :=
  ⟨s.str.take s.pos ++ c :: s.str.drop (s.pos + 1), s.pos + 1⟩

end Stringstream

namespace Hexdump

/-! ### The function -/

/-- `isprint`, in the default locale. -/
def isprint (c : UInt8) : Bool := 32 ≤ c && c ≤ 126

/-- The variables of the loop. -/
structure Vars where
  i : ℕ
  printed : ℤ
  pchars : Stringstream
  cout : Ostream
  deriving DecidableEq, Repr

/-- What comes before a byte: the end of the last line and the offset, or a space, or nothing. -/
def before (indentString : Bytes) (s : Vars) : Vars :=
  if s.printed % 16 = 0 then
    let s := if s.printed ≠ 0 then
        { s with
          cout := ((s.cout.insert (ascii "    ")).insert s.pchars.str).insert (ascii "\n")
          pchars := .ofStr (ascii " ") }
      else s
    { s with
      cout := (((s.cout.insert indentString).setw 8).insertHex s.printed).insert (ascii ":    ") }
  else if s.printed % 2 = 0 then { s with cout := s.cout.insert (ascii " ") }
  else s

/-- What is shown of a byte among the characters. -/
def shown (byte : UInt8) : UInt8 := if isprint byte then byte else 46

/-- One iteration. The index is an `unsigned`. -/
def body (data indentString : Bytes) (s : Vars) : Eval Exn Vars := do
  let s := before indentString s
  let byte ← load data s.i
  let cout := (s.cout.setw 2).insertHex byte.toNat
  let pchars := s.pchars.put (shown byte)
  let printed ← intAdd s.printed 1
  pure { i := (s.i + 1) % 2 ^ 32, printed, pchars, cout }

/-- One turn of the loop, with its condition. -/
def turn (data : Bytes) (len : ℕ) (indentString : Bytes) (s : Vars) : Turn Vars (Eval Exn Vars) :=
  if s.i < len then
    match body data indentString s with
    | .ok s' => .next s'
    | .error stop => .done (.error stop)
  else .done (pure s)

/-- What is written after the loop. -/
def finish (s : Vars) : Ostream :=
  let printRem := (16 - s.printed % 16) % 16
  let gap := List.replicate (2 * printRem + printRem / 2 + 4).toNat 32
  (((s.cout.insert gap).insert s.pchars.str).insert (ascii "\n")).endl

/-- `hexdump(data, len, indent)`, with `cout` before and after it. -/
def hexdump (data : Bytes) (len indent : ℕ) (cout : Ostream) (fuel : ℕ) :
    Option (Eval Exn Ostream) :=
  match ByteStream.spaces indent with
  | .error stop => some (.error stop)
  | .ok indentString =>
    let start := ⟨0, 0, .ofStr (ascii " "), cout.hex.setfill 48⟩
    (loop (turn data len indentString) fuel start).map
      (Except.map fun s ↦ (finish s).setFlags cout.flags)

/-! ### What a dump is -/

/-- A number in hexadecimal, with at least `w` digits. -/
def numeral (w n : ℕ) : Bytes :=
  List.replicate (w - (Digits.text 16 n).length) 48 ++ Digits.text 16 n

/-- What stands between the byte at an index of a line and the byte before it. -/
def separator (n : ℕ) : Bytes := if n ≠ 0 ∧ n % 2 = 0 then ascii " " else []

/-- The bytes of a line, in groups of two. -/
def groups (bytes : Bytes) : Bytes :=
  (bytes.mapIdx fun n byte ↦ separator n ++ numeral 2 byte.toNat).flatten

/-- What stands before the bytes of line `k`. -/
def heading (indent k : ℕ) : Bytes :=
  List.replicate indent 32 ++ numeral 8 (16 * k) ++ ascii ":    "

/-- Line `k`. The characters begin `43` columns after the heading. -/
def line (indent k : ℕ) (bytes : Bytes) : Bytes :=
  heading indent k ++ (groups bytes ++ List.replicate (43 - (groups bytes).length) 32) ++
    bytes.map shown

/-- The bytes that line `k` is about. -/
def row (data : Bytes) (k : ℕ) : Bytes := (data.drop (16 * k)).take 16

/-- The lines of a dump. -/
def lines (indent : ℕ) (data : Bytes) : List Bytes :=
  if data = [] then [List.replicate 5 32]
  else (List.range ((data.length + 15) / 16)).map fun k ↦ line indent k (row data k)

/-- A dump: its lines, an empty line and the end of that. -/
def dump (indent : ℕ) (data : Bytes) : Bytes := [10].intercalate (lines indent data ++ [[], []])

/-! ### Reading a dump -/

/-- The bytes that pairs of digits stand for. -/
def readPairs : Bytes → Option Bytes
  | [] => some []
  | [_] => none
  | a :: b :: rest => do
    let n ← Digits.parse 16 [a, b]
    let bytes ← readPairs rest
    some (UInt8.ofNat n :: bytes)

/-- Read the columns of the bytes. -/
def readLine (indent : ℕ) (text : Bytes) : Option Bytes :=
  readPairs (((text.drop (indent + 13)).take 39).filter (· != 32))

/-- Read a dump. -/
def readDump (indent : ℕ) (text : Bytes) : Option Bytes :=
  ((text.splitOn 10).dropLast.dropLast.mapM (readLine indent)).map List.flatten

theorem length_numeral {w n : ℕ} (hw : 0 < w) (h : n < 16 ^ w) : (numeral w n).length = w := by
  have hle := Digits.length_text_le (by decide) hw h
  rw [numeral, List.length_append, List.length_replicate]
  omega

theorem length_numeral_byte (byte : UInt8) : (numeral 2 byte.toNat).length = 2 :=
  length_numeral (by decide) byte.toNat_lt

theorem groups_concat (bytes : Bytes) (byte : UInt8) :
    groups (bytes ++ [byte]) = groups bytes ++ separator bytes.length ++ numeral 2 byte.toNat := by
  rw [groups, List.mapIdx_concat, List.flatten_append, List.flatten_singleton,
    ← List.append_assoc, groups]

/-- Two digits for each byte, and a space before every other but the first. -/
theorem length_groups (bytes : Bytes) :
    (groups bytes).length = 2 * bytes.length + (bytes.length - 1) / 2 := by
  induction bytes using List.reverseRecOn with
  | nil => rfl
  | append_singleton bytes byte ih =>
    have hsep : (separator bytes.length).length =
        if bytes.length ≠ 0 ∧ bytes.length % 2 = 0 then 1 else 0 := by
      rw [separator]
      split <;> rfl
    rw [groups_concat, List.length_append, List.length_append, ih, hsep, length_numeral_byte,
      List.length_append, List.length_singleton]
    split <;> omega

theorem length_row_le (data : Bytes) (k : ℕ) : (row data k).length ≤ 16 :=
  List.length_take_le 16 _

theorem length_groups_row (data : Bytes) (k : ℕ) : (groups (row data k)).length ≤ 39 := by
  have hle := length_row_le data k
  rw [length_groups]
  omega

/-! ### The text comes out -/

end Hexdump

namespace Ostream

/-- Write something as it is. -/
def add (o : Ostream) (s : Bytes) : Ostream := { o with text := o.text ++ s }

@[simp] theorem add_add (o : Ostream) (s t : Bytes) : (o.add s).add t = o.add (s ++ t) := by
  rw [add, add, add, List.append_assoc]

@[simp] theorem add_nil (o : Ostream) : o.add [] = o := by
  rw [add, List.append_nil]

/-- Formatting as it usually is, but for the base and the fill character. -/
structure Usual (o : Ostream) : Prop where
  width_eq : o.width = 0
  adjustfield_ne : o.flags.adjustfield ≠ .left
  showbase_eq : o.flags.showbase = false
  uppercase_eq : o.flags.uppercase = false

/-- Nothing is added to an item, but zeros to a number. -/
structure Plain (o : Ostream) : Prop extends o.Usual where
  fill_eq : o.fill = 48
  basefield_eq : o.flags.basefield = .hex

variable {o : Ostream}

@[simp] theorem Plain.add (h : o.Plain) (s : Bytes) : (o.add s).Plain :=
  ⟨⟨h.width_eq, h.adjustfield_ne, h.showbase_eq, h.uppercase_eq⟩, h.fill_eq, h.basefield_eq⟩

theorem Usual.plain (h : o.Usual) : (o.hex.setfill 48).Plain :=
  ⟨⟨h.width_eq, h.adjustfield_ne, h.showbase_eq, h.uppercase_eq⟩, rfl, rfl⟩

theorem insert_of_width (h : o.width = 0) (s : Bytes) : o.insert s = o.add s := by
  have hempty : List.replicate (0 - (([] : Bytes) ++ s).length) o.fill = [] := by
    rw [Nat.zero_sub, List.replicate_zero]
  rw [insert, pad, h, hempty, add, ← h]
  rcases o.flags.adjustfield <;> simp

@[simp] theorem Plain.insert (h : o.Plain) (s : Bytes) : o.insert s = o.add s :=
  insert_of_width h.width_eq s

@[simp] theorem Plain.endl (_ : o.Plain) : o.endl = o.add (ascii "\n") := rfl

@[simp] theorem Plain.insertHex (h : o.Plain) (w : ℕ) {n : ℕ} (hn : n < 2 ^ 32) :
    (o.setw w).insertHex n = o.add (Hexdump.numeral w n) := by
  have hcast : (((n : ℕ) : ℤ) % 2 ^ 32).toNat = n := by omega
  have hcased (s : Bytes) : (o.setw w).cased s = s :=
    if_neg (by rw [setw, h.uppercase_eq]; simp)
  have hadjust : o.flags.adjustfield = .right ∨ o.flags.adjustfield = .internal := by
    rcases hcase : o.flags.adjustfield with - | - | -
    · exact absurd hcase h.adjustfield_ne
    · exact Or.inl rfl
    · exact Or.inr rfl
  have hpad (s : Bytes) : (o.setw w).pad [] s =
      o.add (List.replicate (w - s.length) 48 ++ s) := by
    rcases hadjust with hadjust | hadjust <;>
      simp [pad, setw, Ostream.add, hadjust, h.fill_eq, h.width_eq]
  have hmark : (o.setw w).cased (if (o.setw w).flags.showbase ∧ n ≠ 0 then ascii "0x" else []) =
      [] := by
    rw [hcased, if_neg]
    rw [setw, h.showbase_eq]
    simp
  rw [Ostream.insertHex, hcast, hmark, hcased, hpad, Hexdump.numeral]

end Ostream

namespace Hexdump

/-- The lines before line `k`. -/
def finished (indent : ℕ) (data : Bytes) (k : ℕ) : Bytes :=
  ((List.range k).map fun j ↦ line indent j (row data j) ++ ascii "\n").flatten

/-- The variables after `i` bytes. -/
def progress (indent : ℕ) (data : Bytes) (cout : Ostream) : ℕ → Vars
  | 0 => ⟨0, 0, .ofStr (ascii " "), cout⟩
  | i + 1 =>
    let k := i / 16
    let bytes := (row data k).take (i % 16 + 1)
    ⟨i + 1, (i + 1 : ℕ), ⟨bytes.map shown, bytes.length⟩,
      cout.add (finished indent data k ++ heading indent k ++ groups bytes)⟩

variable {indent : ℕ} {data : Bytes} {cout : Ostream}

/-- The variables once everything that comes before byte `i` is written. -/
def ready (indent : ℕ) (data : Bytes) (cout : Ostream) (i : ℕ) : Vars :=
  let k := i / 16
  let bytes := (row data k).take (i % 16)
  ⟨i, i, if i % 16 = 0 then .ofStr (ascii " ") else ⟨bytes.map shown, bytes.length⟩,
    cout.add (finished indent data k ++ heading indent k ++ groups bytes ++ separator (i % 16))⟩

theorem finished_succ (indent : ℕ) (data : Bytes) (k : ℕ) :
    finished indent data (k + 1) =
      finished indent data k ++ line indent k (row data k) ++ ascii "\n" := by
  rw [finished, List.range_succ, List.map_append, List.flatten_append, List.map_singleton,
    List.flatten_singleton, ← List.append_assoc, finished]

/-- A line that is full needs no more than four spaces. -/
theorem line_of_full {k : ℕ} {bytes : Bytes} (h : bytes.length = 16) :
    line indent k bytes = heading indent k ++ groups bytes ++ ascii "    " ++ bytes.map shown := by
  have hgap : List.replicate (43 - (groups bytes).length) (32 : UInt8) = ascii "    " := by
    rw [length_groups, h]
    rfl
  rw [line, hgap, ← List.append_assoc]

theorem length_row {k : ℕ} (h : 16 * (k + 1) ≤ data.length) : (row data k).length = 16 := by
  rw [row, List.length_take, List.length_drop]
  omega

/-- The offset of a line. -/
theorem begin_line (indent : ℕ) (hplain : cout.Plain) {k : ℕ} (hk : 16 * k < 2 ^ 32) (s : Bytes) :
    ((((cout.add s).insert (List.replicate indent 32)).setw 8).insertHex
      ((16 * k : ℕ) : ℤ)).insert (ascii ":    ") = cout.add (s ++ heading indent k) := by
  rw [(hplain.add s).insert, Ostream.add_add, (hplain.add _).insertHex 8 hk, Ostream.add_add,
    (hplain.add _).insert, Ostream.add_add, heading]
  simp only [List.append_assoc]

/-- The end of a line. -/
theorem end_line (hplain : cout.Plain) {k : ℕ} (h : (row data k).length = 16) :
    (((cout.add (finished indent data k ++ heading indent k ++ groups (row data k))).insert
      (ascii "    ")).insert ((row data k).map shown)).insert (ascii "\n") =
      cout.add (finished indent data (k + 1)) := by
  rw [(hplain.add _).insert, Ostream.add_add, (hplain.add _).insert, Ostream.add_add,
    (hplain.add _).insert, Ostream.add_add, finished_succ, line_of_full h]
  simp only [List.append_assoc]

theorem before_progress (hplain : cout.Plain) {i : ℕ} (hi : i < data.length) (h32 : i < 2 ^ 32) :
    before (List.replicate indent 32) (progress indent data cout i) = ready indent data cout i := by
  rcases Nat.eq_zero_or_pos (i % 16) with h16 | h16
  · -- byte `i` begins a line
    obtain ⟨k, rfl⟩ : ∃ k, i = 16 * k := ⟨i / 16, by omega⟩
    have hdiv : 16 * k / 16 = k := by omega
    have hready : ready indent data cout (16 * k) = ⟨16 * k, (16 * k : ℕ), .ofStr (ascii " "),
        cout.add (finished indent data k ++ heading indent k)⟩ := by
      rw [ready, hdiv, h16, if_pos rfl, List.take_zero]
      simp [groups, separator]
    rw [hready]
    rcases k with - | k
    · have hbegin := begin_line indent hplain (k := 0) (by decide) []
      rw [Ostream.add_nil] at hbegin
      rw [progress, before, if_pos (Int.zero_emod 16), if_neg (fun h ↦ h rfl)]
      exact congrArg (Vars.mk 0 0 (.ofStr (ascii " "))) hbegin
    · have hbytes : (row data ((16 * k + 15) / 16)).take ((16 * k + 15) % 16 + 1) = row data k := by
        rw [show (16 * k + 15) / 16 = k by omega, show (16 * k + 15) % 16 + 1 = 16 by omega]
        exact List.take_of_length_le (length_row_le data k)
      have hprogress : progress indent data cout (16 * (k + 1)) = ⟨16 * (k + 1), (16 * (k + 1) : ℕ),
          ⟨(row data k).map shown, (row data k).length⟩,
          cout.add (finished indent data k ++ heading indent k ++ groups (row data k))⟩ := by
        rw [show 16 * (k + 1) = 16 * k + 15 + 1 by omega, progress, hbytes,
          show (16 * k + 15) / 16 = k by omega]
      rw [hprogress, before, if_pos (by dsimp only; omega), if_pos (by dsimp only; omega)]
      refine congrArg (Vars.mk (16 * (k + 1)) (16 * (k + 1) : ℕ) (.ofStr (ascii " "))) ?_
      dsimp only
      rw [end_line hplain (length_row (by omega))]
      exact begin_line indent hplain (k := k + 1) h32 _
  · -- byte `i` continues a line
    obtain ⟨j, rfl⟩ : ∃ j, i = j + 1 := ⟨i - 1, by omega⟩
    have hdiv : (j + 1) / 16 = j / 16 := by omega
    have hmod : (j + 1) % 16 = j % 16 + 1 := by omega
    rw [ready, hdiv, hmod, if_neg (by omega), progress, before, if_neg (by dsimp only; omega)]
    split
    · rename_i heven
      dsimp only at heven
      rw [(hplain.add _).insert, Ostream.add_add, separator, if_pos ⟨by omega, by omega⟩]
    · rename_i hodd
      dsimp only at hodd
      rw [separator, if_neg (by omega), List.append_nil]

theorem take_succ_row {i : ℕ} {byte : UInt8} (hbyte : data[i]? = some byte) :
    (row data (i / 16)).take (i % 16 + 1) = (row data (i / 16)).take (i % 16) ++ [byte] := by
  have hget : (row data (i / 16))[i % 16]? = some byte := by
    rw [row, List.getElem?_take_of_lt (Nat.mod_lt i (by decide)), List.getElem?_drop,
      Nat.div_add_mod, hbyte]
  rw [List.take_add_one, hget]
  rfl

/-- The first character of a line goes over the space, and the others behind it. -/
theorem put_shown {n : ℕ} {bytes : Bytes} (h : bytes.length = n) (byte : UInt8) :
    (if n = 0 then Stringstream.ofStr (ascii " ") else ⟨bytes.map shown, bytes.length⟩).put
      (shown byte) = ⟨(bytes ++ [byte]).map shown, (bytes ++ [byte]).length⟩ := by
  rcases bytes with - | ⟨b, bytes⟩
  · obtain rfl := h
    rfl
  · have hlength : ((b :: bytes).map shown).length = (b :: bytes).length := List.length_map _
    rw [if_neg (by rw [← h, List.length_cons]; omega), Stringstream.put, ← hlength,
      List.take_length, List.drop_of_length_le (Nat.le_succ _), hlength, List.map_append,
      List.length_append]
    rfl

theorem body_progress (hplain : cout.Plain) {i : ℕ} (hi : i < data.length) (h31 : i + 1 < 2 ^ 31) :
    body data (List.replicate indent 32) (progress indent data cout i) =
      pure (progress indent data cout (i + 1)) := by
  obtain ⟨byte, hbyte⟩ : ∃ byte, data[i]? = some byte := ⟨data[i], List.getElem?_eq_getElem hi⟩
  have hbytes : ((row data (i / 16)).take (i % 16)).length = i % 16 := by
    rw [List.length_take, row, List.length_take, List.length_drop]
    omega
  have hinsert := (hplain.add (finished indent data (i / 16) ++ heading indent (i / 16) ++
    groups ((row data (i / 16)).take (i % 16)) ++ separator (i % 16))).insertHex 2
    (show byte.toNat < 2 ^ 32 from byte.toNat_lt.trans (by decide))
  have hadd : intAdd (ε := Exn) (i : ℤ) 1 = pure ((i + 1 : ℕ) : ℤ) :=
    intAdd_eq ⟨by omega, by omega⟩
  have hindex : (i + 1) % 2 ^ 32 = i + 1 := Nat.mod_eq_of_lt (by omega)
  rw [body, before_progress hplain hi (by omega)]
  dsimp only [ready]
  rw [load_eq hbyte, pure_bind, hadd, pure_bind, hindex, hinsert, put_shown hbytes, progress,
    take_succ_row hbyte, groups_concat, hbytes, Ostream.add_add]
  simp only [List.append_assoc]

/-- The counter of the loop overflows. -/
theorem body_overflow (hplain : cout.Plain) {i : ℕ} (hi : i < data.length) (h31 : i + 1 = 2 ^ 31) :
    body data (List.replicate indent 32) (progress indent data cout i) =
      .error (.undefined .intOverflow) := by
  have hrange : ¬InInt ((i : ℤ) + 1) := by
    rintro ⟨-, hlt⟩
    omega
  have hadd : intAdd (ε := Exn) (i : ℤ) 1 = .error (.undefined .intOverflow) := by
    rw [intAdd, checkInt, if_neg hrange]
  rw [body, before_progress hplain hi (by omega)]
  dsimp only [ready]
  rw [load_eq (List.getElem?_eq_getElem hi), pure_bind, hadd]
  rfl

@[simp] theorem progress_i (i : ℕ) : (progress indent data cout i).i = i := by
  cases i <;> rfl

theorem turn_of_lt {i : ℕ} (hi : i < data.length) (indentString : Bytes) :
    turn data data.length indentString (progress indent data cout i) =
      match body data indentString (progress indent data cout i) with
      | .ok s' => .next s'
      | .error stop => .done (.error stop) :=
  if_pos (by rwa [progress_i])

theorem turn_progress (hplain : cout.Plain) {i : ℕ} (hi : i < data.length) (h31 : i + 1 < 2 ^ 31) :
    turn data data.length (List.replicate indent 32) (progress indent data cout i) =
      .next (progress indent data cout (i + 1)) := by
  rw [turn_of_lt hi, body_progress hplain hi h31]
  rfl

/-- The loop ends after the last byte. -/
theorem loop_progress (hplain : cout.Plain) (h31 : data.length < 2 ^ 31) {fuel : ℕ}
    (hfuel : data.length < fuel) :
    loop (turn data data.length (List.replicate indent 32)) fuel (progress indent data cout 0) =
      some (pure (progress indent data cout data.length)) := by
  refine loop_of_iterate _ (fun i hi ↦ turn_progress hplain hi (by omega)) ?_ hfuel
  exact if_neg (by rw [progress_i]; exact Nat.lt_irrefl _)

/-- The loop does not come so far. -/
theorem loop_overflow (hplain : cout.Plain) (h31 : 2 ^ 31 ≤ data.length) {fuel : ℕ}
    (hfuel : data.length < fuel) :
    loop (turn data data.length (List.replicate indent 32)) fuel (progress indent data cout 0) =
      some (.error (.undefined .intOverflow)) := by
  obtain ⟨n, hn⟩ : ∃ n, n + 1 = 2 ^ 31 := ⟨2 ^ 31 - 1, by decide⟩
  refine loop_of_iterate _ (n := n) (fun i hi ↦ turn_progress hplain (by omega) (by omega)) ?_
    (by omega)
  rw [turn_of_lt (by omega), body_overflow hplain (by omega) hn]

theorem intercalate_lines (ls : List Bytes) (l : Bytes) :
    [10].intercalate (ls ++ [l] ++ [[], []]) =
      (ls.map (· ++ ascii "\n")).flatten ++ l ++ ascii "\n" ++ ascii "\n" := by
  induction ls with
  | nil => simp [List.intercalate, ascii]
  | cons l' ls ih =>
    rw [List.cons_append, List.cons_append, List.intercalate_cons_of_ne_nil (by simp), ih,
      List.map_cons, List.flatten_cons]
    simp [ascii]

/-- The last line, and the end of the dump. -/
theorem finish_eq (hplain : cout.Plain) (s l chars : Bytes) (i : ℕ) (z : ℤ) (pos : ℕ)
    (h : l = s ++ List.replicate (2 * ((16 - z % 16) % 16) + (16 - z % 16) % 16 / 2 + 4).toNat 32 ++
      chars) :
    finish ⟨i, z, ⟨chars, pos⟩, cout.add s⟩ = cout.add (l ++ ascii "\n" ++ ascii "\n") := by
  rw [finish, (hplain.add _).insert, Ostream.add_add, (hplain.add _).insert, Ostream.add_add,
    (hplain.add _).insert, Ostream.add_add, (hplain.add _).endl, Ostream.add_add, h]

theorem finish_progress (hplain : cout.Plain) :
    finish (progress indent data cout data.length) = cout.add (dump indent data) := by
  rcases hlength : data.length with - | i
  · obtain rfl := List.length_eq_zero_iff.1 hlength
    have hfinish := finish_eq hplain [] (List.replicate 5 32) (ascii " ") 0 0 0 rfl
    rw [Ostream.add_nil] at hfinish
    exact hfinish
  · have hk : 16 * (i / 16) + i % 16 = i := Nat.div_add_mod i 16
    have hmod : i % 16 < 16 := Nat.mod_lt i (by decide)
    have hrow : (row data (i / 16)).length = i % 16 + 1 := by
      rw [row, List.length_take, List.length_drop]
      omega
    have hbytes : (row data (i / 16)).take (i % 16 + 1) = row data (i / 16) :=
      List.take_of_length_le hrow.le
    have hlines : lines indent data = ((List.range (i / 16)).map fun j ↦
        line indent j (row data j)) ++ [line indent (i / 16) (row data (i / 16))] := by
      rw [lines, if_neg (by rintro rfl; simp at hlength), hlength,
        show (i + 1 + 15) / 16 = i / 16 + 1 by omega, List.range_succ, List.map_append,
        List.map_singleton]
    rw [progress, hbytes, dump, hlines, intercalate_lines, List.map_map]
    refine finish_eq hplain _ _ _ _ _ _ ?_
    -- the spaces for the bytes that are missing
    have hgap : (2 * ((16 - ((i + 1 : ℕ) : ℤ) % 16) % 16) +
        (16 - ((i + 1 : ℕ) : ℤ) % 16) % 16 / 2 + 4).toNat =
          43 - (groups (row data (i / 16))).length := by
      rw [length_groups, hrow]
      omega
    rw [hgap, line, finished]
    simp only [List.append_assoc]
    rfl

/-! ### It can be read back -/

theorem readPairs_numeral (bytes : Bytes) :
    readPairs (bytes.flatMap fun byte ↦ numeral 2 byte.toNat) = some bytes := by
  induction bytes with
  | nil => rfl
  | cons byte bytes ih =>
    obtain ⟨a, b, hab⟩ : ∃ a b, numeral 2 byte.toNat = [a, b] :=
      List.length_eq_two.1 (length_numeral_byte byte)
    have hparse : Digits.parse 16 [a, b] = some byte.toNat := by
      rw [← hab, numeral, Digits.parse_zeros_text (by decide) (by decide)]
    rw [List.flatMap_cons, hab]
    simp only [List.cons_append, List.nil_append, readPairs, hparse, ih]
    simp

/-- The bytes of a number are digits. -/
theorem mem_numeral {w n : ℕ} {c : UInt8} (h : c ∈ numeral w n) : ∃ d < 16, c = Digits.char d := by
  rcases List.mem_append.1 h with h | h
  · exact ⟨0, by decide, (List.eq_of_mem_replicate h).trans (by decide)⟩
  · exact Digits.exists_of_mem_text (by decide) h

theorem filter_separator (n : ℕ) : (separator n).filter (· != 32) = [] := by
  rw [separator]
  split <;> rfl

theorem filter_numeral (w n : ℕ) : (numeral w n).filter (· != 32) = numeral w n := by
  refine List.filter_eq_self.2 fun c hc ↦ ?_
  obtain ⟨d, hd, rfl⟩ := mem_numeral hc
  have hall : ∀ d < 16, (Digits.char d != 32) = true := by decide
  exact hall d hd

/-- Without the spaces the groups are the bytes one after the other. -/
theorem filter_groups (bytes : Bytes) :
    (groups bytes).filter (· != 32) = bytes.flatMap fun byte ↦ numeral 2 byte.toNat := by
  induction bytes using List.reverseRecOn with
  | nil => rfl
  | append_singleton bytes byte ih =>
    rw [groups_concat, List.filter_append, List.filter_append, ih, filter_separator, filter_numeral,
      List.append_nil, List.flatMap_append, List.flatMap_singleton]

theorem length_heading {k : ℕ} (hk : 16 * k < 2 ^ 32) :
    (heading indent k).length = indent + 13 := by
  rw [heading, List.length_append, List.length_append, List.length_replicate,
    length_numeral (by decide) hk]
  rfl

theorem readLine_line {k : ℕ} (hk : 16 * k < 2 ^ 32) :
    readLine indent (line indent k (row data k)) = some (row data k) := by
  have hle := length_groups_row data k
  obtain ⟨gap, hgap⟩ : ∃ gap, 43 - (groups (row data k)).length =
      39 - (groups (row data k)).length + gap := ⟨4, by omega⟩
  rw [readLine, line, List.append_assoc, ← length_heading hk, List.drop_left, hgap,
    ← List.replicate_append_replicate, ← List.append_assoc, List.append_assoc, List.take_left' (by
      rw [List.length_append, List.length_replicate]
      omega), List.filter_append, filter_groups, List.filter_replicate_of_neg (by decide),
    List.append_nil, readPairs_numeral]

/-- The characters of a line have a column of their own. -/
theorem drop_line {k : ℕ} (hk : 16 * k < 2 ^ 32) :
    (line indent k (row data k)).drop (indent + 56) = (row data k).map shown := by
  have hle := length_groups_row data k
  have hlength : (heading indent k ++ (groups (row data k) ++
      List.replicate (43 - (groups (row data k)).length) 32)).length = indent + 56 := by
    rw [List.length_append, length_heading hk, List.length_append, List.length_replicate]
    omega
  rw [line, ← hlength, List.drop_left]

theorem newline_not_mem_numeral (w n : ℕ) : 10 ∉ numeral w n := by
  intro h
  obtain ⟨d, hd, hc⟩ := mem_numeral h
  have hall : ∀ d < 16, 10 ≠ Digits.char d := by decide
  exact hall d hd hc

theorem newline_not_mem_groups (bytes : Bytes) : 10 ∉ groups bytes := by
  induction bytes using List.reverseRecOn with
  | nil => exact List.not_mem_nil
  | append_singleton bytes byte ih =>
    have hsep : 10 ∉ separator bytes.length := by
      rw [separator]
      split <;> decide
    rw [groups_concat, List.mem_append, List.mem_append]
    rintro ((h | h) | h)
    exacts [ih h, hsep h, newline_not_mem_numeral _ _ h]

theorem shown_ne_newline (byte : UInt8) : shown byte ≠ 10 := by
  rw [shown]
  split
  · rintro rfl
    contradiction
  · decide

theorem newline_not_mem_line (k : ℕ) (bytes : Bytes) : 10 ∉ line indent k bytes := by
  have hspaces (n : ℕ) : (10 : UInt8) ∉ List.replicate n 32 := fun h ↦
    absurd (List.eq_of_mem_replicate h) (by decide)
  rw [line, heading]
  simp only [List.mem_append, List.mem_map, not_or, not_exists, not_and]
  exact ⟨⟨⟨⟨hspaces _, newline_not_mem_numeral _ _⟩, by decide⟩, newline_not_mem_groups _,
    hspaces _⟩, fun byte _ ↦ shown_ne_newline byte⟩

/-- The rows are the bytes, cut into pieces. -/
theorem flatten_rows (data : Bytes) (m : ℕ) :
    ((List.range m).map (row data)).flatten = data.take (16 * m) := by
  induction m with
  | zero => rw [Nat.mul_zero, List.take_zero]; rfl
  | succ m ih =>
    rw [List.range_succ, List.map_append, List.flatten_append, ih, List.map_singleton,
      List.flatten_singleton, row, Nat.mul_succ, List.take_add]

theorem mapM_readLine {ks : List ℕ} (h : ∀ k ∈ ks, 16 * k < 2 ^ 32) :
    (ks.map fun k ↦ line indent k (row data k)).mapM (readLine indent) =
      some (ks.map (row data)) := by
  induction ks with
  | nil => rfl
  | cons k ks ih =>
    rw [List.map_cons, List.mapM_cons, readLine_line (h k List.mem_cons_self),
      ih fun j hj ↦ h j (List.mem_cons_of_mem _ hj)]
    rfl

theorem newline_not_mem_lines {l : Bytes} (hl : l ∈ lines indent data) : 10 ∉ l := by
  rw [lines] at hl
  split at hl
  · obtain rfl := List.mem_singleton.1 hl
    decide
  · obtain ⟨k, -, rfl⟩ := List.mem_map.1 hl
    exact newline_not_mem_line k _

theorem mapM_lines (h32 : data.length < 2 ^ 32) :
    ((lines indent data).mapM (readLine indent)).map List.flatten = some data := by
  rcases eq_or_ne data [] with rfl | hne
  · have hdrop : (List.replicate 5 (32 : UInt8)).drop (indent + 13) = [] :=
      List.drop_of_length_le (by rw [List.length_replicate]; omega)
    rw [lines, if_pos rfl, List.mapM_cons, readLine, hdrop]
    rfl
  · rw [lines, if_neg hne, mapM_readLine fun k hk ↦ by
      have := List.mem_range.1 hk
      omega]
    rw [Option.map_some, flatten_rows, List.take_of_length_le (by omega)]

/-- **The bytes can be read off a dump.** -/
theorem readDump_dump (h32 : data.length < 2 ^ 32) :
    readDump indent (dump indent data) = some data := by
  have hnewline : ∀ l ∈ lines indent data ++ [[], []], 10 ∉ l := by
    intro l hl
    rcases List.mem_append.1 hl with hl | hl
    · exact newline_not_mem_lines hl
    · have hnil : l = [] := by simpa using hl
      exact hnil ▸ List.not_mem_nil
  have hlines : (lines indent data ++ [[], []]).dropLast.dropLast = lines indent data := by
    rw [List.append_cons, List.dropLast_concat, List.dropLast_concat]
  rw [readDump, dump, List.splitOn_intercalate 10 hnewline (by simp), hlines, mapM_lines h32]

/-- The characters that belong to line `k`. -/
theorem getElem?_lines (h32 : data.length < 2 ^ 32) (hne : data ≠ []) (k : ℕ) :
    (lines indent data)[k]?.map (·.drop (indent + 56)) =
      if 16 * k < data.length then some ((row data k).map shown) else none := by
  rw [lines, if_neg hne, List.getElem?_map, Option.map_map]
  split
  · rename_i hk
    rw [List.getElem?_range (by omega)]
    exact congrArg some (drop_line (by omega))
  · rename_i hk
    rw [List.getElem?_eq_none (by rw [List.length_range]; omega)]
    rfl

theorem hexdump_eq (hindent : indent ≤ maxStringSize) (fuel : ℕ) :
    hexdump data data.length indent cout fuel =
      (loop (turn data data.length (List.replicate indent 32)) fuel
        (progress indent data (cout.hex.setfill 48) 0)).map
        (Except.map fun s ↦ (finish s).setFlags cout.flags) := by
  have hspaces : ByteStream.spaces indent = .ok (List.replicate indent 32) := if_pos hindent
  rw [hexdump, hspaces]
  rfl

/-- **What `hexdump` writes.** Up to the greatest `int` it writes a dump, from which the bytes can
be read and in which the characters of all lines are in the same column, and it leaves the stream
as it was but for the fill character; with more bytes than that its behaviour is undefined. -/
theorem hexdump_readable (data : Bytes) (indent : ℕ) (cout : Ostream)
    (hindent : indent ≤ maxStringSize) (hcout : cout.Usual) (fuel : ℕ)
    (hfuel : data.length < fuel) :
    (data.length < 2 ^ 31 →
      hexdump data data.length indent cout fuel =
        some (pure { cout with text := cout.text ++ dump indent data, fill := 48 }) ∧
      readDump indent (dump indent data) = some data ∧
      (data ≠ [] → ∀ k, (lines indent data)[k]?.map (·.drop (indent + 56)) =
        if 16 * k < data.length then some ((row data k).map shown) else none)) ∧
    (2 ^ 31 ≤ data.length →
      hexdump data data.length indent cout fuel = some (.error (.undefined .intOverflow))) := by
  refine ⟨fun h31 ↦ ⟨?_, readDump_dump (by omega), getElem?_lines (by omega)⟩, fun h31 ↦ ?_⟩
  · have hfinish : finish (progress indent data (cout.hex.setfill 48) data.length) = _ :=
      finish_progress hcout.plain
    rw [hexdump_eq hindent, loop_progress hcout.plain h31 hfuel]
    exact congrArg (fun o : Ostream ↦ some (Except.ok (o.setFlags cout.flags))) hfinish
  · rw [hexdump_eq hindent, loop_overflow hcout.plain h31 hfuel]
    rfl

theorem hexdump_readable_three :
    let cout : Ostream := ⟨[], ⟨.dec, .right, false, false⟩, 32, 0⟩
    hexdump [72, 105, 10] 3 2 cout 4 =
        some (pure { cout with text := dump 2 [72, 105, 10], fill := 48 }) ∧
      readDump 2 (dump 2 [72, 105, 10]) = some [72, 105, 10] := by
  intro cout
  have h := (hexdump_readable [72, 105, 10] 2 cout (by decide) ⟨rfl, by decide, rfl, rfl⟩ 4
    (by decide)).1 (by decide)
  exact ⟨h.1, h.2.1⟩

end Hexdump
