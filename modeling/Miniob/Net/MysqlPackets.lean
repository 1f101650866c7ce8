import Mathlib.Data.List.TakeWhile
import Miniob.Net.Lenenc

/-!
# Packets of the MySQL protocol

A packet is three bytes for the length of its payload, its sequence id and its payload. It is
written into a buffer of a fixed size, whatever the strings are that go into it.

* `IsFrame`, `Framed`: a packet, and packets with consecutive sequence ids.
* `packetBytes`: what all encoders do.
* `OkPacket`, `EofPacket`, `ErrPacket`, `columnCountBytes`, `columnDefinitionBytes`, `rowBytes`: the
  encoders. For each of them there is a theorem that says when its packet fits into its buffer
  (`Writes`).

A write past the buffer, and a copy of a negative number of bytes, is `none`.
-/

namespace Miniob.Net

open Miniob.Common Miniob.Lib

/-! ## Packets -/

/-- A packet with a sequence id. The length is that of the payload. -/
def IsFrame (id : Byte) (bytes : List Byte) : Prop :=
  ∃ payload : List Byte, payload.length < 2 ^ 24 ∧
    bytes = leBytes 3 payload.length ++ id :: payload

/-- Packets with consecutive sequence ids, modulo 256. -/
def Framed : Byte → List (List Byte) → Prop
  | _, [] => True
  | id, bytes :: rest => IsFrame id bytes ∧ Framed (id + 1) rest

/-- A packet has one sequence id. -/
theorem IsFrame.id_unique {a b : Byte} {bytes : List Byte} (ha : IsFrame a bytes)
    (hb : IsFrame b bytes) : a = b := by
  obtain ⟨payload, -, rfl⟩ := ha
  obtain ⟨payload', -, heq⟩ := hb
  have hcons := (List.append_inj heq (by rw [length_leBytes, length_leBytes])).2
  exact (List.cons.inj hcons).1

/-! ## Capabilities -/

/-- `CLIENT_PROTOCOL_41` -/
def clientProtocol41 : BitVec 32 := 512

/-- `CLIENT_TRANSACTIONS` -/
def clientTransactions : BitVec 32 := 8192

/-- `CLIENT_SESSION_TRACK` -/
def clientSessionTrack : BitVec 32 := 8388608

/-- `CLIENT_DEPRECATE_EOF` -/
def clientDeprecateEof : BitVec 32 := 16777216

/-- `CLIENT_OPTIONAL_RESULTSET_METADATA` -/
def clientOptionalResultsetMetadata : BitVec 32 := 33554432

/-- A flag of the client is set. -/
def hasFlag (capabilities flag : BitVec 32) : Bool := capabilities &&& flag ≠ 0

/-! ## Pieces -/

/-- A number in a fixed number of bytes. -/
def storeInt (n value : ℕ) : Stored := ⟨leBytes n value, n⟩

/-- Source: `mysql_communicator.cpp`, `store_int1` -/
def storeInt1 (value : ℕ) : Stored := storeInt 1 value

/-- Source: `mysql_communicator.cpp`, `store_int2` -/
def storeInt2 (value : ℕ) : Stored := storeInt 2 value

/-- Source: `mysql_communicator.cpp`, `store_int3` -/
def storeInt3 (value : ℕ) : Stored := storeInt 3 value

/-- Source: `mysql_communicator.cpp`, `store_int4` -/
def storeInt4 (value : ℕ) : Stored := storeInt 4 value

/-- The conversion of an `int` to an `uint64_t`. -/
def toUInt64 (v : Int) : ℕ := (v % 18446744073709551616).toNat

/-- The characters of a text as bytes. -/
def bytesOf (s : String) : List Byte := s.toList.map fun c => Fin.ofNat 256 c.toNat

/-- The bytes before the first zero: what a pointer to these bytes stands for. -/
def CString.ofBytes (bytes : List Byte) : CString where
  bytes := bytes.takeWhile fun b => b ≠ 0
  zero_notMem h := by simpa using List.mem_takeWhile_imp h

/-- What the functions write, one behind the other. -/
def storeAll : List (Option Stored) → Option Stored
  | [] => some ⟨[], 0⟩
  | piece :: pieces => do
    let first ← piece
    let rest ← storeAll pieces
    return ⟨first.bytes ++ rest.bytes, first.returned + rest.returned⟩

/-- A packet in a buffer of `size` bytes. The payload is what the pieces return. -/
def packetBytes (size : ℕ) (sequenceId : Byte) (pieces : List (Option Stored)) :
    Option (List Byte) := do
  let payload ← storeAll pieces
  if 4 + payload.returned ≤ size then
    return (storeInt3 payload.returned).bytes ++ sequenceId :: payload.bytes
  else none

/-! ## Encoders -/

/-- Source: `mysql_communicator.cpp`, `struct OkPacket` -/
structure OkPacket where
  /-- `packet_header.sequence_id` -/
  sequenceId : Byte := 0
  /-- `header` -/
  header : ℕ := 0
  /-- `affected_rows` -/
  affectedRows : Int := 0
  /-- `last_insert_id` -/
  lastInsertId : Int := 0
  /-- `status_flags` -/
  statusFlags : ℕ := 0x22
  /-- `warnings` -/
  warnings : ℕ := 0
  /-- `info` -/
  info : List Byte := []

/-- Source: `mysql_communicator.cpp`, `OkPacket::encode` -/
def OkPacket.encode (capabilities : BitVec 32) (p : OkPacket) : Option (List Byte) :=
  packetBytes 100 p.sequenceId <|
    [some (storeInt1 p.header), some (storeLenencInt (toUInt64 p.affectedRows)),
      some (storeLenencInt (toUInt64 p.lastInsertId))] ++
    (if hasFlag capabilities clientProtocol41 then
      [some (storeInt2 p.statusFlags), some (storeInt2 p.warnings)]
    else if hasFlag capabilities clientTransactions then [some (storeInt2 p.statusFlags)]
    else []) ++
    [if hasFlag capabilities clientSessionTrack then storeLenencString (CString.ofBytes p.info)
    else storeFixLengthString p.info (wrap32 p.info.length)]

/-- Source: `mysql_communicator.cpp`, `struct EofPacket` -/
structure EofPacket where
  /-- `packet_header.sequence_id` -/
  sequenceId : Byte := 0
  /-- `header` -/
  header : ℕ := 0xFE
  /-- `warnings` -/
  warnings : ℕ := 0
  /-- `status_flags` -/
  statusFlags : ℕ := 0x22

/-- Source: `mysql_communicator.cpp`, `EofPacket::encode` -/
def EofPacket.encode (capabilities : BitVec 32) (p : EofPacket) : Option (List Byte) :=
  packetBytes 10 p.sequenceId <|
    [some (storeInt1 p.header)] ++
    (if hasFlag capabilities clientProtocol41 then
      [some (storeInt2 p.warnings), some (storeInt2 p.statusFlags)] else [])

/-- Source: `mysql_communicator.cpp`, `struct ErrPacket` -/
structure ErrPacket where
  /-- `packet_header.sequence_id` -/
  sequenceId : Byte := 0
  /-- `header` -/
  header : ℕ := 0xFF
  /-- `error_code`, the two low bytes of it -/
  errorCode : ℕ := 0
  /-- `sql_state_marker` -/
  sqlStateMarker : List Byte := bytesOf "#"
  /-- `sql_state` -/
  sqlState : List Byte := bytesOf "HY000"
  /-- `error_message` -/
  errorMessage : List Byte

/-- Source: `mysql_communicator.cpp`, `ErrPacket::encode` -/
def ErrPacket.encode (capabilities : BitVec 32) (p : ErrPacket) : Option (List Byte) :=
  packetBytes 1000 p.sequenceId <|
    [some (storeInt1 p.header), some (storeInt2 p.errorCode)] ++
    (if hasFlag capabilities clientProtocol41 then
      [storeFixLengthString p.sqlStateMarker 1, storeFixLengthString p.sqlState 5] else []) ++
    [storeFixLengthString p.errorMessage (wrap32 p.errorMessage.length)]

/-- The number of columns. Source: `mysql_communicator.cpp`, `send_column_definition` -/
def columnCountBytes (capabilities : BitVec 32) (sequenceId : Byte) (cellNum : ℕ) :
    Option (List Byte) :=
  packetBytes 1024 sequenceId <|
    (if hasFlag capabilities clientOptionalResultsetMetadata then [some (storeInt1 1)] else []) ++
    [some (storeLenencInt (toUInt64 cellNum))]

/-- Source: `tuple_cell.h`, `class TupleCellSpec` -/
structure TupleCellSpec where
  /-- `table_name_` -/
  tableName : CString
  /-- `alias_` -/
  aliasName : CString

/-- The catalog of all columns. -/
def catalogDef : CString := ⟨bytesOf "def", by decide⟩

/-- The schema of all columns. -/
def schemaSys : CString := ⟨bytesOf "sys", by decide⟩

/-- One column. Source: `mysql_communicator.cpp`, `send_column_definition` -/
def columnDefinitionBytes (sequenceId : Byte) (spec : TupleCellSpec) : Option (List Byte) :=
  packetBytes 1024 sequenceId
    [storeLenencString catalogDef, storeLenencString schemaSys,
      storeLenencString spec.tableName, storeLenencString spec.tableName,
      storeLenencString spec.aliasName, storeLenencString spec.aliasName,
      some (storeLenencInt 0x0c), some (storeInt2 33), some (storeInt4 16384),
      some (storeInt1 253), some (storeInt2 0), some (storeInt1 0x1f), some (storeInt2 0)]

/-- The texts of a row up to the first cell that cannot be read.
Source: `mysql_communicator.cpp`, `send_result_rows` -/
def rowStrings : List (Option CString) → List CString
  | some s :: cells => s :: rowStrings cells
  | _ => []

/-- One row. The buffer is that of all rows.
Source: `mysql_communicator.cpp`, `send_result_rows` -/
def rowBytes (sequenceId : Byte) (row : List (Option CString)) : Option (List Byte) :=
  packetBytes (4 * 1024 * 1024) sequenceId ((rowStrings row).map storeLenencString)

/-! ## What is written -/

/-- The number that is returned is that of the bytes. -/
def Exact (piece : Option Stored) : Prop := ∀ st ∈ piece, st.returned = st.bytes.length

/-- The number of bytes that the pieces take, if all of them can be copied. -/
def total : List (Option Stored) → Option ℕ
  | [] => some 0
  | piece :: pieces => do
    let first ← piece.map Stored.returned
    let rest ← total pieces
    return first + rest

/-- What the encoder of a packet does: the packet is written if a condition holds, and else there is
a write past the buffer. -/
def Writes (encode : Byte → Option (List Byte)) (fits : Prop) : Prop :=
  ∀ id, (fits → ∃ bytes, encode id = some bytes ∧ IsFrame id bytes) ∧ (¬ fits → encode id = none)

theorem exact_storeInt (n value : ℕ) : Exact (some (storeInt n value)) := by
  rintro st ⟨⟩
  exact (length_leBytes n value).symm

theorem exact_storeLenencInt (value : ℕ) : Exact (some (storeLenencInt value)) := by
  rintro st ⟨⟩
  exact returned_storeLenencInt value

theorem exact_storeLenencString (s : CString) : Exact (storeLenencString s) :=
  fun _ h => (returned_storeLenencString h).1

/-- A copy of no more bytes than there are. -/
theorem exact_storeFixLengthString {s : List Byte} {len : Int} (h : len ≤ s.length) :
    Exact (storeFixLengthString s len) := by
  intro st hst
  unfold storeFixLengthString at hst
  by_cases hneg : len < 0
  · rw [if_pos hneg] at hst
    exact nomatch hst
  · rw [if_neg hneg] at hst
    obtain rfl := Option.some.inj hst
    dsimp only
    rw [List.length_take]
    omega

variable {pieces pieces' : List (Option Stored)} {payload : Stored} {size : ℕ}

/-- The payload has as many bytes as the pieces return. By induction on the pieces. -/
theorem storeAll_spec (h : ∀ piece ∈ pieces, Exact piece) :
    total pieces = (storeAll pieces).map Stored.returned ∧ Exact (storeAll pieces) := by
  induction pieces with
  | nil =>
    refine ⟨rfl, ?_⟩
    rintro st ⟨⟩
    rfl
  | cons piece pieces ih =>
    obtain ⟨hpiece, h⟩ := List.forall_mem_cons.mp h
    obtain ⟨htotal, hexact⟩ := ih h
    cases piece with
    | none => exact ⟨rfl, fun _ hst => nomatch hst⟩
    | some first =>
      rw [total, storeAll, htotal]
      cases hrest : storeAll pieces with
      | none => exact ⟨rfl, fun _ hst => nomatch hst⟩
      | some rest =>
        refine ⟨rfl, ?_⟩
        rintro st ⟨⟩
        dsimp only
        rw [hpiece first rfl, hexact rest hrest, List.length_append]

/-- **What an encoder does.** -/
theorem writes_packetBytes (h : ∀ piece ∈ pieces, Exact piece) (hsize : size ≤ 2 ^ 24) :
    Writes (fun id => packetBytes size id pieces) (∃ n ∈ total pieces, 4 + n ≤ size) := by
  obtain ⟨htotal, hexact⟩ := storeAll_spec h
  intro id
  unfold packetBytes
  dsimp only
  rw [htotal]
  cases hpayload : storeAll pieces with
  | none => exact ⟨fun ⟨n, hn, _⟩ => (nomatch hn), fun _ => rfl⟩
  | some payload =>
    have hlen := hexact payload hpayload
    rw [Option.bind_eq_bind, Option.bind_some]
    constructor
    · rintro ⟨n, ⟨⟩, hn⟩
      refine ⟨_, if_pos hn, payload.bytes, by omega, ?_⟩
      rw [← hlen]
      rfl
    · intro hfits
      exact if_neg fun hle => hfits ⟨_, rfl, hle⟩

/-! ## What fits -/

/-- The number of bytes that a string takes. -/
def encodedLength (s : CString) : ℕ :=
  (storeLenencInt s.strlen.toNat).returned + s.strlen.toNat

/-- The number of bytes that a string takes, unless its length is negative. -/
theorem returned_map_storeLenencString (s : CString) :
    (storeLenencString s).map Stored.returned =
      if 0 ≤ s.strlen then some (encodedLength s) else none := by
  cases hst : storeLenencString s with
  | none =>
    rw [if_neg]
    · exact Option.map_none _
    · intro hpos
      unfold storeLenencString storeFixLengthString at hst
      rw [if_neg (by omega), Option.bind_eq_bind, Option.bind_some] at hst
      exact absurd hst (Option.some_ne_none _)
  | some st =>
    obtain ⟨hpos, hbytes⟩ := storeLenencString_eq_some hst
    have hcases := strlen_cases hpos
    rw [if_pos hpos, Option.map_some, (returned_storeLenencString hst).1, hbytes,
      List.length_append, List.length_take, encodedLength, returned_storeLenencInt]
    rw [min_eq_left (by omega)]

/-- The number of bytes of a number. -/
theorem returned_storeLenencInt_cases (v : ℕ) :
    (storeLenencInt v).returned = 1 ∧ v < 251 ∨
      3 ≤ (storeLenencInt v).returned ∧ (storeLenencInt v).returned ≤ 9 ∧ 251 ≤ v := by
  unfold storeLenencInt
  split_ifs <;> dsimp only <;> omega

/-- The bytes of the flags of an OK packet. -/
def flagBytes (capabilities : BitVec 32) : ℕ :=
  if hasFlag capabilities clientProtocol41 then 4
  else if hasFlag capabilities clientTransactions then 2 else 0

/-- The message of an OK packet fits into 100 bytes. -/
def OkFits (capabilities : BitVec 32) (info : List Byte) : Prop :=
  if hasFlag capabilities clientSessionTrack then
    flagBytes capabilities + (CString.ofBytes info).bytes.length ≤ 92
  else flagBytes capabilities + info.length ≤ 93

/-- The message of an error packet fits into 1000 bytes. -/
def ErrFits (capabilities : BitVec 32) (message : List Byte) : Prop :=
  (if hasFlag capabilities clientProtocol41 then 6 else 0) + message.length ≤ 993

/-- The names of a column fit into 1024 bytes. -/
def ColumnFits (spec : TupleCellSpec) : Prop :=
  0 ≤ spec.tableName.strlen ∧ 0 ≤ spec.aliasName.strlen ∧
    25 + 2 * encodedLength spec.tableName + 2 * encodedLength spec.aliasName ≤ 1024

instance (spec : TupleCellSpec) : Decidable (ColumnFits spec) :=
  inferInstanceAs (Decidable (_ ∧ _ ∧ _))

/-- The texts of a row fit into 4 MiB. -/
def RowFits (row : List (Option CString)) : Prop :=
  (∀ s ∈ rowStrings row, 0 ≤ s.strlen) ∧
    4 + ((rowStrings row).map encodedLength).sum ≤ 4194304

instance (row : List (Option CString)) : Decidable (RowFits row) :=
  inferInstanceAs (Decidable (_ ∧ _))

/-! ## What the encoders do -/

/-- Another form of the condition. -/
theorem Writes.congr {encode : Byte → Option (List Byte)} {p q : Prop} (h : Writes encode p)
    (hpq : p ↔ q) : Writes encode q :=
  fun id => ⟨fun hq => (h id).1 (hpq.mpr hq), fun hq => (h id).2 (mt hpq.mp hq)⟩

/-- A string that is copied as a whole. -/
theorem storeFixLengthString_all {s : List Byte} (h : s.length < 2 ^ 31) :
    storeFixLengthString s (wrap32 s.length) = some ⟨s, s.length⟩ := by
  rw [wrap32_eq (by omega) (by omega), storeFixLengthString, if_neg (by omega), Int.toNat_natCast,
    List.take_length]

/-- The number of bytes of the message of an OK packet. -/
def infoBytes (capabilities : BitVec 32) (info : List Byte) : ℕ :=
  if hasFlag capabilities clientSessionTrack then
    (storeLenencInt (CString.ofBytes info).bytes.length).returned +
      (CString.ofBytes info).bytes.length
  else info.length

section okPacket

variable (capabilities : BitVec 32) {info : List Byte}

/-- The bytes before the first zero of a short text. -/
theorem strlen_ofBytes (h : info.length < 2 ^ 31) :
    (CString.ofBytes info).strlen = (CString.ofBytes info).bytes.length := by
  have hle : (CString.ofBytes info).bytes.length ≤ info.length :=
    (List.takeWhile_sublist _).length_le
  exact wrap32_eq (by omega) (by omega)

/-- The bytes of an OK packet. -/
theorem writes_okPacket (affectedRows : Int) (h : info.length < 2 ^ 31) :
    Writes (fun id => OkPacket.encode capabilities
        { sequenceId := id, affectedRows := affectedRows, info := info })
      ((storeLenencInt (toUInt64 affectedRows)).returned + flagBytes capabilities +
        infoBytes capabilities info ≤ 94) := by
  have hlen := strlen_ofBytes h
  have hall := storeFixLengthString_all h
  have hzero : (storeLenencInt (toUInt64 0)).returned = 1 := rfl
  unfold OkPacket.encode
  dsimp only
  rw [hall]
  refine (writes_packetBytes ?_ (by decide)).congr ?_
  · simp only [List.forall_mem_append, List.forall_mem_singleton, List.forall_mem_cons]
    refine ⟨⟨⟨exact_storeInt _ _, exact_storeLenencInt _, exact_storeLenencInt _⟩, ?_⟩, ?_⟩
    · split_ifs <;> simp [exact_storeInt, storeInt2]
    · split_ifs
      · exact exact_storeLenencString _
      · rintro st ⟨⟩
        rfl
  · unfold flagBytes infoBytes
    split_ifs <;> simp [total, returned_map_storeLenencString, encodedLength, hlen, hzero,
      storeInt1, storeInt2, storeInt] <;> omega

/-- An OK packet with a message is written if the message is short. -/
theorem writes_okPacket_info (h : info.length < 2 ^ 31) :
    Writes (fun id => OkPacket.encode capabilities { sequenceId := id, info := info })
      (OkFits capabilities info) := by
  refine (writes_okPacket capabilities 0 h).congr ?_
  have hcases := returned_storeLenencInt_cases (CString.ofBytes info).bytes.length
  have hzero : (storeLenencInt (toUInt64 0)).returned = 1 := rfl
  unfold OkFits infoBytes
  split_ifs <;> omega

/-- An OK packet with a number of rows is always written. -/
theorem writes_okPacket_rows (affectedRows : Int) :
    Writes (fun id => OkPacket.encode capabilities
      { sequenceId := id, affectedRows := affectedRows }) True := by
  refine (writes_okPacket capabilities affectedRows (by decide)).congr (iff_true_intro ?_)
  have hcases := returned_storeLenencInt_cases (toUInt64 affectedRows)
  have hflags : flagBytes capabilities ≤ 4 := by
    unfold flagBytes
    split_ifs <;> decide
  have hinfo : infoBytes capabilities [] ≤ 1 := by
    unfold infoBytes
    split_ifs <;> decide
  omega

end okPacket

/-- An EOF packet is always written. -/
theorem writes_eofPacket (capabilities : BitVec 32) (statusFlags : ℕ) :
    Writes (fun id => EofPacket.encode capabilities
      { sequenceId := id, statusFlags := statusFlags }) True := by
  unfold EofPacket.encode
  dsimp only
  refine (writes_packetBytes ?_ (by decide)).congr (iff_true_intro ?_)
  · split_ifs <;> simp [exact_storeInt, storeInt1, storeInt2]
  · split_ifs <;> simp [total, storeInt1, storeInt2, storeInt]

/-- An error packet is written if its message is short. -/
theorem writes_errPacket (capabilities : BitVec 32) (errorCode : ℕ) {message : List Byte}
    (h : message.length < 2 ^ 31) :
    Writes (fun id => ErrPacket.encode capabilities
      { sequenceId := id, errorCode := errorCode, errorMessage := message })
      (ErrFits capabilities message) := by
  have hall := storeFixLengthString_all h
  unfold ErrPacket.encode
  dsimp only
  rw [hall]
  refine (writes_packetBytes ?_ (by decide)).congr ?_
  · simp only [List.forall_mem_append, List.forall_mem_singleton, List.forall_mem_cons]
    refine ⟨⟨⟨exact_storeInt _ _, exact_storeInt _ _⟩, ?_⟩, ?_⟩
    · split_ifs
      · simp [exact_storeFixLengthString, bytesOf]
      · simp
    · rintro st ⟨⟩
      rfl
  · unfold ErrFits
    split_ifs <;> simp [total, storeFixLengthString, storeInt1, storeInt2, storeInt] <;> omega

/-- The number of columns is always written. -/
theorem writes_columnCount (capabilities : BitVec 32) (cellNum : ℕ) :
    Writes (fun id => columnCountBytes capabilities id cellNum) True := by
  have hcases := returned_storeLenencInt_cases (toUInt64 cellNum)
  unfold columnCountBytes
  refine (writes_packetBytes ?_ (by decide)).congr (iff_true_intro ?_)
  · split_ifs <;> simp [exact_storeInt, exact_storeLenencInt, storeInt1]
  · split_ifs <;> simp [total, storeInt1, storeInt] <;> omega

/-- A column is written if its names are short. -/
theorem writes_columnDefinition (spec : TupleCellSpec) :
    Writes (fun id => columnDefinitionBytes id spec) (ColumnFits spec) := by
  unfold columnDefinitionBytes
  refine (writes_packetBytes ?_ (by decide)).congr ?_
  · simp [exact_storeInt, exact_storeLenencInt, exact_storeLenencString, storeInt1, storeInt2,
      storeInt4]
  · have hdef : encodedLength catalogDef = 4 := by decide
    have hsys : encodedLength schemaSys = 4 := by decide
    have hfixed : (storeLenencInt 0x0c).returned = 1 := by decide
    have hpos : 0 ≤ catalogDef.strlen ∧ 0 ≤ schemaSys.strlen := by decide
    unfold ColumnFits
    by_cases htable : 0 ≤ spec.tableName.strlen
    · by_cases halias : 0 ≤ spec.aliasName.strlen
      · simp [total, returned_map_storeLenencString, htable, halias, hdef, hsys, hfixed, hpos,
          storeInt1, storeInt2, storeInt4, storeInt]
        omega
      · simp [total, returned_map_storeLenencString, htable, halias]
    · simp [total, returned_map_storeLenencString, htable]

/-- The pieces of a row. By induction on its texts. -/
theorem total_map_storeLenencString (strings : List CString) :
    total (strings.map storeLenencString) =
      if ∀ s ∈ strings, 0 ≤ s.strlen then some (strings.map encodedLength).sum else none := by
  induction strings with
  | nil => rfl
  | cons s strings ih =>
    rw [List.map_cons, total, ih, returned_map_storeLenencString]
    simp only [List.forall_mem_cons]
    by_cases hs : 0 ≤ s.strlen
    · by_cases hrest : ∀ s ∈ strings, 0 ≤ s.strlen
      · rw [if_pos hs, if_pos hrest, if_pos ⟨hs, hrest⟩]
        simp
      · have hnot : ¬ (0 ≤ s.strlen ∧ ∀ s ∈ strings, 0 ≤ s.strlen) := fun h => hrest h.2
        rw [if_pos hs, if_neg hrest, if_neg hnot]
        simp
    · have hnot : ¬ (0 ≤ s.strlen ∧ ∀ s ∈ strings, 0 ≤ s.strlen) := fun h => hs h.1
      rw [if_neg hs, if_neg hnot]
      simp

/-- A row is written if its texts are short. -/
theorem writes_row (row : List (Option CString)) :
    Writes (fun id => rowBytes id row) (RowFits row) := by
  unfold rowBytes
  refine (writes_packetBytes ?_ (by decide)).congr ?_
  · simp [exact_storeLenencString]
  · rw [total_map_storeLenencString, RowFits]
    split_ifs with h
    · simpa using fun _ => h
    · simp [h]

end Miniob.Net
