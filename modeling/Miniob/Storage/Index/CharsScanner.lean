import Miniob.Storage.Index.KeyComparator
import Miniob.Storage.Index.Reference
import Miniob.Storage.Index.Scanner

/-!
# Scans of a `CHARS` index

A bound of a scan on a `CHARS` column is a string of any length. `fix_user_key` makes it as long as
the column: a shorter one is padded with zeros, a longer one is cut, and the last byte of a left
bound that is cut is incremented, so that the scan starts after the strings that the cut bound
would admit.

* `CharsValue`: what the comparison sees of the bytes of a column, the string before the first zero.
* `compareChars_sign`: values are compared by the lexicographic order of the strings.
* `fixUserKey`, `openChars`: a bound of the length of the column, and `open` with such bounds.
* `AttrType.openScanner`: `open` on any of the types that an index supports.
-/

namespace Miniob.Storage.Index

open Miniob.Common

/-! ## Values of a column -/

theorem stringOf_length_le (data : List Byte) : (stringOf data).length ≤ data.length :=
  List.IsPrefix.length_le (List.takeWhile_prefix _)

theorem zero_notMem_stringOf (data : List Byte) : 0 ∉ stringOf data := by
  intro h
  simpa using List.mem_takeWhile_imp h

/-- Behind the end of the string nothing is read. -/
theorem stringOf_append_zeros {s : List Byte} (hs : 0 ∉ s) (n : ℕ) :
    stringOf (s ++ List.replicate n 0) = s := by
  have hall : ∀ c ∈ s, decide (c ≠ 0) = true := by
    intro c hc
    exact decide_eq_true fun h => hs (h ▸ hc)
  unfold stringOf
  rw [List.takeWhile_append_of_pos hall]
  cases n with
  | zero => simp
  | succ n => simp [List.replicate_succ]

/-- The value of a `CHARS` column: a string that fits in it. -/
structure CharsValue (attrLength : ℕ) where
  /-- The bytes before the first zero. -/
  bytes : List Byte
  /-- They fit in the column. -/
  length_le : bytes.length ≤ attrLength
  /-- None of them is a zero. -/
  no_zero : 0 ∉ bytes
  deriving DecidableEq

namespace CharsValue

variable {attrLength : ℕ}

theorem zero_notMem_nil : (0 : Byte) ∉ ([] : List Byte) := List.not_mem_nil

/-- The empty string: all bytes are zero. -/
instance : Inhabited (CharsValue attrLength) := ⟨⟨[], Nat.zero_le _, zero_notMem_nil⟩⟩

/-- The bytes of a column that holds the value. -/
def data (v : CharsValue attrLength) : List Byte :=
  v.bytes ++ List.replicate (attrLength - v.bytes.length) 0

theorem length_data (v : CharsValue attrLength) : v.data.length = attrLength := by
  have := v.length_le
  simp only [data, List.length_append, List.length_replicate]
  omega

theorem stringOf_data (v : CharsValue attrLength) : stringOf v.data = v.bytes :=
  stringOf_append_zeros v.no_zero _

/-- The value that the bytes of a column hold. -/
def ofData (data : List Byte) (h : data.length ≤ attrLength) : CharsValue attrLength :=
  ⟨stringOf data, (stringOf_length_le data).trans h, zero_notMem_stringOf data⟩

theorem bytes_injective : Function.Injective (bytes : CharsValue attrLength → List Byte) := by
  rintro ⟨s, hs, hs'⟩ ⟨t, ht, ht'⟩ h
  cases h
  rfl

/-- Values are in the lexicographic order of their strings. -/
instance : LinearOrder (CharsValue attrLength) := LinearOrder.lift' bytes bytes_injective

theorem lt_iff {v w : CharsValue attrLength} : v < w ↔ v.bytes < w.bytes := Iff.rfl

theorem le_iff {v w : CharsValue attrLength} : v ≤ w ↔ v.bytes ≤ w.bytes := Iff.rfl

end CharsValue

/-- The comparison of two `CHARS` attributes. Source: `bplus_tree.h`, `AttrComparator::operator()` -/
def compareChars {attrLength : ℕ} (v₁ v₂ : CharsValue attrLength) : Int :=
  compareString v₁.data v₂.data

theorem compareChars_sign {attrLength : ℕ} (v₁ v₂ : CharsValue attrLength) :
    SignOfOrder (compareChars v₁ v₂) v₁ v₂ := by
  have hlength : v₁.data.length = v₂.data.length := by rw [v₁.length_data, v₂.length_data]
  have hsign := strncmp_sign_of_length rfl hlength.symm
  rw [← compareString_of_length hlength, v₁.stringOf_data, v₂.stringOf_data] at hsign
  exact ⟨hsign.neg, hsign.zero.trans CharsValue.bytes_injective.eq_iff, hsign.pos⟩

/-- The bytes of two columns are compared as the values they hold: what stands behind the first zero
is not read. -/
theorem attrComparator_chars_sign {attrLength : ℕ} (v₁ v₂ : List.Vector Byte attrLength) :
    SignOfOrder (attrComparator (.chars attrLength) v₁ v₂)
      (CharsValue.ofData v₁.toList (v₁.toList_length).le)
      (CharsValue.ofData v₂.toList (v₂.toList_length).le) := by
  have hlength : v₁.toList.length = v₂.toList.length := by simp
  have hdata := strncmp_sign_of_length rfl hlength.symm
  rw [← compareString_of_length hlength] at hdata
  have hvalues : CharsValue.ofData v₁.toList (v₁.toList_length).le =
      CharsValue.ofData v₂.toList (v₂.toList_length).le ↔
        stringOf v₁.toList = stringOf v₂.toList := CharsValue.bytes_injective.eq_iff.symm
  exact ⟨hdata.neg, hdata.zero.trans hvalues.symm, hdata.pos⟩

/-! ## Bounds -/

/-- The buffer of the length of the column that stands for a bound, and whether the bound counts as
included from now on. The string before the zero is `userKey`; `keyBuf[attr_length - 1]++` is
computed in a `char`, so that `0xff` becomes zero.
Source: `bplus_tree.cpp`, `BplusTreeScanner::fix_user_key` -/
def fixUserKey (attrLength : ℕ) (userKey : List Byte) (keyLen : ℕ) (wantGreater : Bool) :
    List Byte × Bool :=
  if keyLen ≤ attrLength then
    (userKey.take keyLen ++ List.replicate (attrLength - keyLen) 0, false)
  else
    let keyBuf := userKey.take attrLength
    if userKey.getD attrLength 0 = 0 then (keyBuf, false)
    else (if wantGreater then keyBuf.modify (attrLength - 1) (· + 1) else keyBuf, true)

theorem length_fixUserKey_le (attrLength : ℕ) (userKey : List Byte) (wantGreater : Bool) :
    (fixUserKey attrLength userKey userKey.length wantGreater).1.length ≤ attrLength := by
  unfold fixUserKey
  split
  case isTrue h => simp [h]
  case isFalse h => split_ifs <;> simp

/-- The value and the inclusiveness that `open` uses for a bound; `key_len` is the length of the
string. -/
def fixedBound (attrLength : ℕ) (wantGreater : Bool) (bound : List Byte × Bool) :
    CharsValue attrLength × Bool :=
  (.ofData (fixUserKey attrLength bound.1 bound.1.length wantGreater).1
      (length_fixUserKey_le attrLength bound.1 wantGreater),
    bound.2 || (fixUserKey attrLength bound.1 bound.1.length wantGreater).2)

/-- `open` on a `CHARS` attribute. The bounds are compared by their first `attr_length` bytes before
they are made fit. A bound is a string and whether it is included.
Source: `bplus_tree.cpp`, `BplusTreeScanner::open` -/
def openChars (attrLength fuel : ℕ) (left right : Option (List Byte × Bool))
    (scanner : BplusTreeScanner) :
    TreeM (IndexKey (CharsValue attrLength)) (RC × BplusTreeScanner) := do
  if scanner.inited then
    return (.internal, scanner)
  let scanner := { scanner with inited := true }
  if !validRange (strncmp attrLength) left right then
    return (.invalidArgument, scanner)
  openKeys (keyComparator compareChars) fuel
    (left.map fun bound => leftKey (fixedBound attrLength true bound))
    (right.map fun bound => rightKey (fixedBound attrLength false bound)) scanner

/-! ## Any type of column -/

namespace AttrType

/-- The values in the keys of an index. -/
abbrev KeyValue : AttrType → Type
  | ints => Int
  | floats => Float32
  | chars attrLength => CharsValue attrLength

instance : (type : AttrType) → Inhabited type.KeyValue
  | ints => inferInstanceAs (Inhabited Int)
  | floats => inferInstanceAs (Inhabited Float32)
  | chars _ => inferInstanceAs (Inhabited (CharsValue _))

/-- The number of bytes of a value. -/
def attrLength : AttrType → Int
  | ints => 4
  | floats => 4
  | chars attrLength => attrLength

/-- The bounds of a scan. -/
abbrev UserKey : AttrType → Type
  | ints => Int
  | floats => Float32
  | chars _ => List Byte

/-- Source: `bplus_tree.h`, `AttrComparator::operator()` -/
def compare : (type : AttrType) → type.KeyValue → type.KeyValue → Int
  | ints => compareInt
  | floats => compareFloat
  | chars _ => compareChars

/-- `open` on an attribute of any type. -/
def openScanner : (type : AttrType) → ℕ → Option (type.UserKey × Bool) →
    Option (type.UserKey × Bool) → BplusTreeScanner →
    TreeM (IndexKey type.KeyValue) (RC × BplusTreeScanner)
  | ints => openInts compareInt
  | floats => openInts compareFloat
  | chars attrLength => openChars attrLength

end AttrType

end Miniob.Storage.Index
