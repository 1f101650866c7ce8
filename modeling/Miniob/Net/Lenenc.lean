import Mathlib.Data.List.TakeDrop
import Miniob.Common.Comparator
import Miniob.Lib.LittleEndian

/-!
# Numbers and strings of the MySQL protocol

A number is written with a length that depends on its value, and a string as the number of its bytes
and its bytes. The thresholds for two and three bytes are twice what they should be.

* `storeLenencInt`, `storeLenencString`: the writers.
* `readLenencInt`, `readLenencStrings`: the rule of the protocol for a reader.
* `InBand`: the numbers that lose their highest bit. `lenenc_iff` says that exactly these are not
  read back, and which lists of strings are.

A string is written through a pointer to it, so it has no zero. Its length is an `int`.
-/

namespace Miniob.Net

open Miniob.Common Miniob.Lib

/-! ## Writing -/

/-- The bytes that a function has written, and the number that it returns. -/
structure Stored where
  /-- The bytes. -/
  bytes : List Byte
  /-- What is returned. -/
  returned : ℕ

/-- Source: `mysql_communicator.cpp`, `store_lenenc_int` -/
def storeLenencInt (value : ℕ) : Stored :=
  if value < 251 then ⟨leBytes 1 value, 1⟩
  else if value < 2 * 2 ^ 16 then ⟨0xFC :: leBytes 2 value, 3⟩
  else if value < 2 * 2 ^ 24 then ⟨0xFD :: leBytes 3 value, 4⟩
  else ⟨0xFE :: leBytes 8 value, 9⟩

/-- A string without zeros, as a pointer to it stands for. -/
structure CString where
  /-- The bytes before the zero. -/
  bytes : List Byte
  zero_notMem : 0 ∉ bytes

/-- The length of a string as an `int`. -/
def CString.strlen (s : CString) : Int := wrap32 s.bytes.length

/-- A negative number of bytes cannot be copied.
Source: `mysql_communicator.cpp`, `store_fix_length_string` -/
def storeFixLengthString (s : List Byte) (len : Int) : Option Stored :=
  if len < 0 then none else some ⟨s.take len.toNat, len.toNat⟩

/-- A length is converted to an `uint64_t`.
Source: `mysql_communicator.cpp`, `store_lenenc_string` -/
def storeLenencString (s : CString) : Option Stored := do
  let pos := storeLenencInt (s.strlen % 18446744073709551616).toNat
  let copied ← storeFixLengthString s.bytes s.strlen
  return ⟨pos.bytes ++ copied.bytes, pos.returned + copied.returned⟩

/-- The strings of a row, one behind the other.
Source: `mysql_communicator.cpp`, `MysqlCommunicator::send_result_rows` -/
def storeLenencStrings : List CString → Option Stored
  | [] => some ⟨[], 0⟩
  | s :: strings => do
    let first ← storeLenencString s
    let rest ← storeLenencStrings strings
    return ⟨first.bytes ++ rest.bytes, first.returned + rest.returned⟩

/-! ## Reading -/

/-- A number by the rule of the protocol. -/
def readLenencInt : List Byte → Option (ℕ × List Byte)
  | [] => none
  | b :: rest =>
    if b.val < 0xFB then some (b.val, rest)
    else if b = 0xFC then readLe 2 rest
    else if b = 0xFD then readLe 3 rest
    else if b = 0xFE then readLe 8 rest
    else none

/-- A string by the rule of the protocol. -/
def readLenencString (bytes : List Byte) : Option (List Byte × List Byte) := do
  let (len, rest) ← readLenencInt bytes
  if len ≤ rest.length then return (rest.take len, rest.drop len) else none

/-- Strings up to the end, at most as many as the first argument says. -/
def readLenencStrings : ℕ → List Byte → Option (List (List Byte))
  | _, [] => some []
  | 0, _ :: _ => none
  | n + 1, bytes => do
    let (s, rest) ← readLenencString bytes
    return s :: (← readLenencStrings n rest)

/-! ## The thresholds -/

/-- A number that needs more bytes than it gets. -/
def InBand (v : ℕ) : Prop := 2 ^ 16 ≤ v ∧ v < 2 ^ 17 ∨ 2 ^ 24 ≤ v ∧ v < 2 ^ 25

instance (v : ℕ) : Decidable (InBand v) := inferInstanceAs (Decidable (_ ∨ _))

/-- The number that a reader gets. -/
def announced (v : ℕ) : ℕ :=
  if 2 ^ 16 ≤ v ∧ v < 2 ^ 17 then v - 2 ^ 16
  else if 2 ^ 24 ≤ v ∧ v < 2 ^ 25 then v - 2 ^ 24
  else v

theorem announced_eq_iff {v : ℕ} : announced v = v ↔ ¬ InBand v := by
  unfold announced InBand
  split_ifs <;> omega

theorem announced_le (v : ℕ) : announced v ≤ v := by
  unfold announced
  split_ifs <;> omega

/-- The number that is returned is that of the bytes. -/
theorem returned_storeLenencInt (v : ℕ) :
    (storeLenencInt v).returned = (storeLenencInt v).bytes.length := by
  unfold storeLenencInt
  split_ifs <;> simp

/-- **What a reader gets** of a number. The cases are those of the writer. -/
theorem readLenencInt_store {v : ℕ} (h : v < 2 ^ 64) (rest : List Byte) :
    readLenencInt ((storeLenencInt v).bytes ++ rest) = some (announced v, rest) := by
  unfold storeLenencInt
  by_cases h₁ : v < 251
  · have hlt : v % 256 < 0xFB := by omega
    have hval : announced v = v % 256 := by
      unfold announced
      split_ifs <;> omega
    rw [if_pos h₁, hval]
    exact if_pos hlt
  rw [if_neg h₁]
  by_cases h₂ : v < 2 * 2 ^ 16
  · have hval : v % 256 ^ 2 = announced v := by
      unfold announced
      split_ifs <;> omega
    rw [if_pos h₂, ← hval]
    exact readLe_leBytes 2 v rest
  rw [if_neg h₂]
  by_cases h₃ : v < 2 * 2 ^ 24
  · have hval : v % 256 ^ 3 = announced v := by
      unfold announced
      split_ifs <;> omega
    rw [if_pos h₃, ← hval]
    exact readLe_leBytes 3 v rest
  · have hval : v % 256 ^ 8 = announced v := by
      unfold announced
      split_ifs <;> omega
    rw [if_neg h₃, ← hval]
    exact readLe_leBytes 8 v rest

/-! ## Strings -/

/-- A string of these many bytes is read back. -/
def Encodable (len : ℕ) : Prop := len < 2 ^ 31 ∧ ¬ InBand len

instance (len : ℕ) : Decidable (Encodable len) := inferInstanceAs (Decidable (_ ∧ _))

variable {s : CString} {first : Stored} {strings : List CString} {rest : List Byte}

/-- The length of a string that is copied is not negative. -/
theorem storeLenencString_eq_some (h : storeLenencString s = some first) :
    0 ≤ s.strlen ∧ first.bytes = (storeLenencInt s.strlen.toNat).bytes ++
      s.bytes.take s.strlen.toNat := by
  unfold storeLenencString storeFixLengthString at h
  by_cases hneg : s.strlen < 0
  · rw [if_pos hneg] at h
    cases h
  · rw [if_neg hneg, Option.bind_eq_bind, Option.bind_some] at h
    have hlt : s.strlen < 4294967296 := by
      unfold CString.strlen wrap32
      rw [Int.bmod_def]
      split <;> omega
    have hmod : (s.strlen % 18446744073709551616).toNat = s.strlen.toNat := by omega
    refine ⟨by omega, ?_⟩
    rw [← Option.some.inj h]
    dsimp only
    rw [hmod]

/-- The bytes that a reader takes for a string of `v` bytes. -/
theorem readLenencString_append {v : ℕ} (h : v < 2 ^ 64) {bytes : List Byte}
    (hlen : bytes.length = v) (rest : List Byte) :
    readLenencString ((storeLenencInt v).bytes ++ (bytes ++ rest)) =
      some (bytes.take (announced v), bytes.drop (announced v) ++ rest) := by
  have hle : announced v ≤ bytes.length := (announced_le v).trans hlen.ge
  rw [readLenencString, readLenencInt_store h]
  simp only [Option.bind_eq_bind, Option.bind_some]
  rw [if_pos (by rw [List.length_append]; omega), List.take_append_of_le_length hle,
    List.drop_append_of_le_length hle]
  rfl

/-- The length of a string as an `int`: it is exact, or too small, if it is not negative. -/
theorem strlen_cases (h : 0 ≤ s.strlen) :
    s.strlen.toNat = s.bytes.length ∧ s.bytes.length < 2 ^ 31 ∨
      s.strlen.toNat < s.bytes.length ∧ s.strlen.toNat < 2 ^ 31 ∧ 2 ^ 31 ≤ s.bytes.length := by
  unfold CString.strlen wrap32 at h ⊢
  rw [Int.bmod_def] at h ⊢
  split at h <;> split <;> omega

/-- A string that is read back has a length that is. -/
theorem le_announced_iff {n len : ℕ}
    (h : n = len ∧ len < 2 ^ 31 ∨ n < len ∧ n < 2 ^ 31 ∧ 2 ^ 31 ≤ len) :
    len ≤ announced n ↔ Encodable len := by
  unfold Encodable announced InBand
  split_ifs <;> omega

/-- The bytes that a reader takes for a string. -/
theorem readLenencString_store (h : storeLenencString s = some first) (rest : List Byte) :
    readLenencString (first.bytes ++ rest) =
      some ((s.bytes.take s.strlen.toNat).take (announced s.strlen.toNat),
        (s.bytes.take s.strlen.toNat).drop (announced s.strlen.toNat) ++ rest) := by
  obtain ⟨hpos, hbytes⟩ := storeLenencString_eq_some h
  have hcases := strlen_cases hpos
  rw [hbytes, List.append_assoc]
  exact readLenencString_append (by omega) (by rw [List.length_take]; omega) rest

/-- The number that is returned is that of the bytes, and there is one. -/
theorem returned_storeLenencString (h : storeLenencString s = some first) :
    first.returned = first.bytes.length ∧ first.bytes ≠ [] := by
  obtain ⟨hpos, hbytes⟩ := storeLenencString_eq_some h
  have hcases := strlen_cases hpos
  have hreturned := returned_storeLenencInt (s.strlen % 18446744073709551616).toNat
  have hne : (storeLenencInt s.strlen.toNat).bytes ≠ [] := by
    unfold storeLenencInt
    split_ifs <;> simp [leBytes]
  refine ⟨?_, by simp [hbytes, hne]⟩
  unfold storeLenencString storeFixLengthString at h
  rw [if_neg (by omega), Option.bind_eq_bind, Option.bind_some] at h
  rw [← Option.some.inj h]
  dsimp only
  rw [hreturned, List.length_append, List.length_take]
  omega

/-- A string of less than 2 GiB is written. -/
theorem storeLenencString_of_lt (h : s.bytes.length < 2 ^ 31) :
    ∃ first, storeLenencString s = some first := by
  have hlen : s.strlen = s.bytes.length := wrap32_eq (by omega) (by omega)
  unfold storeLenencString storeFixLengthString
  rw [if_neg (by omega)]
  exact ⟨_, rfl⟩

/-- A list of strings is written if all of them are. -/
theorem storeLenencStrings_cons {stored : Stored}
    (h : storeLenencStrings (s :: strings) = some stored) :
    ∃ first rest, storeLenencString s = some first ∧ storeLenencStrings strings = some rest ∧
      stored = ⟨first.bytes ++ rest.bytes, first.returned + rest.returned⟩ := by
  simp only [storeLenencStrings, Option.bind_eq_bind, Option.bind_eq_some_iff] at h
  obtain ⟨first, hfirst, rest, hrest, heq⟩ := h
  exact ⟨first, rest, hfirst, hrest, (Option.some.inj heq).symm⟩

/-- One turn of the reader. -/
theorem readLenencStrings_succ (n : ℕ) {bytes : List Byte} (h : bytes ≠ []) :
    readLenencStrings (n + 1) bytes = (readLenencString bytes).bind fun p =>
      (readLenencStrings n p.2).map (p.1 :: ·) := by
  obtain ⟨b, bs, rfl⟩ := List.exists_cons_of_ne_nil h
  rw [readLenencStrings, Option.bind_eq_bind]
  · congr 1
    funext ⟨s, rest⟩
    dsimp only
    cases readLenencStrings n rest <;> rfl
  · exact fun h => nomatch h

/-- Strings with the right lengths are read back. By induction on the list. -/
theorem readLenencStrings_of_encodable (h : ∀ s ∈ strings, Encodable s.bytes.length) :
    ∃ stored, storeLenencStrings strings = some stored ∧
      stored.returned = stored.bytes.length ∧ strings.length ≤ stored.bytes.length ∧
        ∀ n, strings.length ≤ n →
          readLenencStrings n stored.bytes = some (strings.map CString.bytes) := by
  induction strings with
  | nil => exact ⟨⟨[], 0⟩, rfl, rfl, le_rfl, fun n _ => by cases n <;> rfl⟩
  | cons s strings ih =>
    obtain ⟨hs, h⟩ := List.forall_mem_cons.mp h
    obtain ⟨rest, hrest, hreturned, hle, hread⟩ := ih h
    obtain ⟨first, hfirst⟩ := storeLenencString_of_lt hs.1
    obtain ⟨hreturned', hne⟩ := returned_storeLenencString hfirst
    have hlen : s.strlen = s.bytes.length :=
      wrap32_eq (by omega) (by have := hs.1; omega)
    have hann : announced s.bytes.length = s.bytes.length := announced_eq_iff.mpr hs.2
    have hpos := List.length_pos_iff.mpr hne
    refine ⟨⟨first.bytes ++ rest.bytes, first.returned + rest.returned⟩, ?_, ?_, ?_, ?_⟩
    · rw [storeLenencStrings, hfirst, hrest]
      rfl
    · simp [hreturned, hreturned']
    · simp only [List.length_cons, List.length_append]
      omega
    · intro n hn
      obtain ⟨k, rfl⟩ := Nat.exists_eq_add_of_le' (Nat.one_le_of_lt hn)
      rw [readLenencStrings_succ k (by simp [hne]), readLenencString_store hfirst, hlen,
        Int.toNat_natCast, hann, List.take_length, List.take_length, List.drop_length]
      simp only [Option.bind_some, List.nil_append]
      rw [hread k (by simpa using hn)]
      rfl

/-- Strings that are read back have the right lengths. By induction on the list: the first string
that has not is read as a shorter one. -/
theorem encodable_of_readLenencStrings {stored : Stored} {n : ℕ}
    (h : storeLenencStrings strings = some stored)
    (hread : readLenencStrings n stored.bytes = some (strings.map CString.bytes)) :
    ∀ s ∈ strings, Encodable s.bytes.length := by
  induction strings generalizing stored n with
  | nil => exact List.forall_mem_nil _
  | cons s strings ih =>
    obtain ⟨first, rest, hfirst, hrest, rfl⟩ := storeLenencStrings_cons h
    obtain ⟨-, hne⟩ := returned_storeLenencString hfirst
    have hcases := strlen_cases (storeLenencString_eq_some hfirst).1
    have happend : first.bytes ++ rest.bytes ≠ [] := by simp [hne]
    cases n with
    | zero =>
      obtain ⟨b, bs, hcons⟩ := List.exists_cons_of_ne_nil happend
      dsimp only at hread
      rw [hcons, readLenencStrings] at hread
      cases hread
    | succ n =>
      rw [readLenencStrings_succ n happend, readLenencString_store hfirst, Option.bind_some,
        Option.map_eq_some_iff] at hread
      obtain ⟨strings', hread, heq⟩ := hread
      obtain ⟨htake, rfl⟩ := List.cons.inj heq
      have hs : Encodable s.bytes.length := by
        refine (le_announced_iff hcases).mp ?_
        have hlen := congrArg List.length htake
        simp only [List.length_take] at hlen
        omega
      have hann := announced_eq_iff.mpr hs.2
      have hlen : s.strlen.toNat = s.bytes.length := by
        have := hs.1
        omega
      rw [hlen, hann, List.take_length, List.drop_length, List.nil_append] at hread
      exact List.forall_mem_cons.mpr ⟨hs, ih hrest hread⟩

/-! ## The theorem -/

/-- The strings are read back, and the number of bytes that is returned is theirs. -/
def ReadBack (strings : List CString) : Prop :=
  ∃ stored, storeLenencStrings strings = some stored ∧
    stored.returned = stored.bytes.length ∧
      readLenencStrings stored.bytes.length stored.bytes = some (strings.map CString.bytes)

/-- **Which lists of strings are read back.** -/
theorem readBack_iff : ReadBack strings ↔ ∀ s ∈ strings, Encodable s.bytes.length := by
  constructor
  · rintro ⟨stored, hstored, -, hread⟩
    exact encodable_of_readLenencStrings hstored hread
  · intro h
    obtain ⟨stored, hstored, hreturned, hle, hread⟩ := readLenencStrings_of_encodable h
    exact ⟨stored, hstored, hreturned, hread _ hle⟩

/-- The number is read back from its bytes, whatever follows, and their number is returned. -/
def IntReadBack (v : ℕ) : Prop :=
  (storeLenencInt v).returned = (storeLenencInt v).bytes.length ∧
    ∀ rest, readLenencInt ((storeLenencInt v).bytes ++ rest) = some (v, rest)

/-- **Numbers and strings are read back** if and only if their values, or their lengths, are not
from 2^16 to 2^17 or from 2^24 to 2^25, and the strings have less than 2^31 bytes. -/
theorem lenenc_iff (v : BitVec 64) (strings : List CString) :
    (IntReadBack v.toNat ↔ ¬ InBand v.toNat) ∧
      (ReadBack strings ↔ ∀ s ∈ strings, Encodable s.bytes.length) := by
  refine ⟨?_, readBack_iff⟩
  rw [← announced_eq_iff]
  constructor
  · rintro ⟨-, hread⟩
    have hread := hread []
    rw [readLenencInt_store v.isLt] at hread
    simpa using hread
  · intro hann
    refine ⟨returned_storeLenencInt _, fun rest => ?_⟩
    rw [readLenencInt_store v.isLt, hann]

/-- The least number that loses its highest bit. -/
theorem lenenc_65536 : readLenencInt (storeLenencInt 65536).bytes = some (0, []) ∧
    ¬ IntReadBack 65536 := by
  refine ⟨by decide, fun h => ?_⟩
  have hread := h.2 []
  exact absurd hread (by decide)

end Miniob.Net
