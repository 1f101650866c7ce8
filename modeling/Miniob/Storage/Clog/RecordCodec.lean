import Miniob.Storage.Clog.Clog
import Mathlib.Data.List.TakeWhile

/-!
# Reading a log record back

A record is built by the constructor of `CLogRecord`, copied out in pieces by `copy_record`, and
built again by the constructor that takes bytes. The name of its table is copied with `strcpy` both
times, into a field of 20 bytes that the identifier of the record follows.

* `CLogRecord.new`: the constructor that takes the fields.
* `CLogRecord.copyPieces`: the bytes that `copy_record` gives for consecutive pieces.
* `DecodedRecord.decode`: the constructor that takes bytes.
* `roundTrips_iff`: a record comes back as it was if and only if its table's name fits.

What a constructor does not set is a parameter. A read or a write outside of the memory that is
there is undefined.
-/

namespace Miniob.Storage.Clog

/-! ## Building a record -/

/-- A row of a table as the constructor gets it. Source: `record.h`, `class Record` -/
structure Record where
  /-- `rid_` -/
  rid : RID
  /-- `data_` -/
  data : List UInt8
  deriving DecidableEq

/-- The bytes from `table_name_` to the end of a record object. -/
def tableNameRoom : ℕ := 40

/-- The field after `strcpy` to its begin. A name of 20 bytes and more goes on behind the field,
where the other fields are set later.
Source: `clog.cpp`, `CLogRecord::CLogRecord` -/
def TableName.strcpy (old : TableName) (name : List UInt8) : TableName where
  bytes := (name ++ 0 :: old.bytes.drop (name.length + 1)).take tableNameMaxLen
  length_eq := by
    have := old.length_eq
    simp only [List.length_take, List.length_append, List.length_cons, List.length_drop]
    omega

theorem TableName.strcpy_bytes (old : TableName) (name : List UInt8) :
    (old.strcpy name).bytes =
      (name ++ 0 :: old.bytes.drop (name.length + 1)).take tableNameMaxLen := rfl

/-- The bytes behind the data of an insertion, which `new char[]` leaves as they are. -/
def padding (heap : ℕ → UInt8) (dataLen : ℕ) : List UInt8 :=
  (List.range (align8 (clogInsRecNodataSize + dataLen) - (clogInsRecNodataSize + dataLen))).map heap

theorem padding_length (heap : ℕ → UInt8) (data : List UInt8) :
    clogInsRecNodataSize + data.length + (padding heap data.length).length =
      align8 (clogInsRecNodataSize + data.length) := by
  have := le_align8 (clogInsRecNodataSize + data.length)
  rw [padding, List.length_map, List.length_range]
  omega

/-- A name that does not fit into the object is written past its end. `lsn` is the number that
`CLogManager::get_next_lsn` gives.
Source: `clog.cpp`, `CLogRecord::CLogRecord` -/
def CLogRecord.new (flag : CLogType) (lsn trxId : Int) (tableName : List UInt8) (rec : Record)
    (old : TableName) (heap : ℕ → UInt8) : Option CLogRecord :=
  match flag with
  | .redoMtrBegin => some (.mtr false lsn trxId)
  | .redoMtrCommit => some (.mtr true lsn trxId)
  | .redoInsert =>
    if tableName.length < tableNameRoom then
      some (.ins lsn trxId (old.strcpy tableName) rec.rid rec.data (padding heap rec.data.length)
        (padding_length heap rec.data))
    else none
  | .redoDelete =>
    if tableName.length < tableNameRoom then
      some (.del lsn trxId (old.strcpy tableName) rec.rid)
    else none
  | .redoError => none

/-! ## Copying it out -/

/-- The bytes of consecutive pieces of these lengths, from an offset on. -/
def CLogRecord.copyPieces (r : CLogRecord) : ℕ → List ℕ → Except RC (List UInt8)
  | _, [] => .ok []
  | startOff, copyLen :: lens => do
    let bytes ← r.copyRecord startOff copyLen
    let rest ← r.copyPieces (startOff + copyLen) lens
    return bytes ++ rest

/-- Wherever the record is cut, the pieces are its bytes. -/
theorem CLogRecord.copyPieces_eq (r : CLogRecord) (lens : List ℕ) :
    ∀ startOff, startOff + lens.sum ≤ r.getLogrecLen →
      r.copyPieces startOff lens = .ok ((r.encoding.drop startOff).take lens.sum) := by
  induction lens with
  | nil =>
    intro startOff _
    rfl
  | cons copyLen lens ih =>
    intro startOff h
    rw [List.sum_cons] at h
    have hcopy : r.copyRecord startOff copyLen = _ := r.copyRecord_eq (by omega)
    rw [copyPieces, hcopy, ih _ (by omega), List.sum_cons, List.take_add, List.drop_drop]
    rfl

/-! ## Reading it back -/

/-- Four bytes of memory as an integer of 32 bits. -/
def readInt (bytes : List UInt8) : Option Int :=
  match bytes with
  | b₀ :: b₁ :: b₂ :: b₃ :: _ =>
    some (wrap32 (b₀.toNat + 256 * b₁.toNat + 65536 * b₂.toNat + 16777216 * b₃.toNat))
  | _ => none

/-- A record header as it stands in memory. -/
structure RawHeader where
  /-- `lsn_` -/
  lsn : Int
  /-- `trx_id_` -/
  trxId : Int
  /-- `type_` -/
  type : Int
  /-- `logrec_len_` -/
  logrecLen : Int
  deriving DecidableEq, Repr

/-- The header at the begin of these bytes. -/
def RawHeader.read (bytes : List UInt8) : Option RawHeader := do
  return ⟨← readInt bytes, ← readInt (bytes.drop 4), ← readInt (bytes.drop 8),
    ← readInt (bytes.drop 12)⟩

/-- The identifier at the begin of these bytes. -/
def readRid (bytes : List UInt8) : Option RID := do
  return ⟨← readInt bytes, ← readInt (bytes.drop 4)⟩

/-- The string at the begin of these bytes, copied to a place with `room` bytes. -/
def readString (room : ℕ) (bytes : List UInt8) : Option (List UInt8) :=
  let string := bytes.takeWhile (· ≠ 0)
  if string.length < bytes.length ∧ string.length < room then some string else none

/-- A record that was built from bytes. -/
inductive DecodedRecord
  /-- `CLogMTRRecord` -/
  | mtr (hdr : RawHeader)
  /-- `CLogInsertRecord`, with the `data_len_` bytes of its data. -/
  | ins (hdr : RawHeader) (tableName : List UInt8) (rid : RID) (data : List UInt8)
  /-- `CLogDeleteRecord` -/
  | del (hdr : RawHeader) (tableName : List UInt8) (rid : RID)
  /-- "flag is error": nothing but the flag is set. -/
  | error (flag : Int)
  deriving DecidableEq

namespace DecodedRecord

/-- `data_` of an insertion is set after the name has been copied, so a name that reaches it does
not stay as it was.
Source: `clog.cpp`, `CLogRecord::CLogRecord(char *)` -/
def decode (bytes : List UInt8) : Option DecodedRecord := do
  let hdr ← RawHeader.read bytes
  let body := bytes.drop 16
  if hdr.type = CLogType.redoMtrBegin.toNat ∨ hdr.type = CLogType.redoMtrCommit.toNat then
    return .mtr hdr
  else if hdr.type = CLogType.redoInsert.toNat then
    let tableName ← readString 32 body
    let rid ← readRid (body.drop tableNameMaxLen)
    let dataLen ← readInt (body.drop (tableNameMaxLen + 8))
    let data := body.drop (tableNameMaxLen + 12)
    if 0 ≤ dataLen ∧ dataLen ≤ hdr.logrecLen - clogInsRecNodataSize ∧ dataLen ≤ data.length then
      return .ins hdr tableName rid (data.take dataLen.toNat)
    else none
  else if hdr.type = CLogType.redoDelete.toNat then
    let tableName ← readString tableNameRoom body
    let rid ← readRid (body.drop tableNameMaxLen)
    return .del hdr tableName rid
  else return .error hdr.type

/-- The record that was built from these fields, as it should come back. -/
def original (flag : CLogType) (lsn trxId : Int) (tableName : List UInt8) (rec : Record) :
    DecodedRecord :=
  match flag with
  | .redoMtrBegin => .mtr ⟨lsn, trxId, flag.toNat, 16⟩
  | .redoMtrCommit => .mtr ⟨lsn, trxId, flag.toNat, 16⟩
  | .redoInsert =>
    .ins ⟨lsn, trxId, flag.toNat, align8 (clogInsRecNodataSize + rec.data.length)⟩ tableName rec.rid
      rec.data
  | .redoDelete => .del ⟨lsn, trxId, flag.toNat, 44⟩ tableName rec.rid
  | .redoError => .error flag.toNat

end DecodedRecord

/-! ## Reading what was written -/

/-- The values of an integer of 32 bits. -/
def IsInt32 (x : Int) : Prop := -2147483648 ≤ x ∧ x ≤ 2147483647

instance (x : Int) : Decidable (IsInt32 x) := inferInstanceAs (Decidable (_ ∧ _))

theorem readInt_intBytes {x : Int} (h : IsInt32 x) (rest : List UInt8) :
    readInt (intBytes x ++ rest) = some x := by
  obtain ⟨h₁, h₂⟩ := h
  have hn : ((x % 4294967296).toNat : Int) = x % 4294967296 := Int.toNat_of_nonneg (by omega)
  have hsum : (((x % 4294967296).toNat % 256 : ℕ) : Int) +
      256 * ((x % 4294967296).toNat / 256 % 256 : ℕ) +
      65536 * ((x % 4294967296).toNat / 65536 % 256 : ℕ) +
      16777216 * ((x % 4294967296).toNat / 16777216 % 256 : ℕ) = x % 4294967296 := by
    omega
  have hwrap : wrap32 (x % 4294967296) = x := by
    unfold wrap32
    rw [Int.bmod_def]
    omega
  simp only [intBytes, List.cons_append, readInt, UInt8.toNat_ofNat', Nat.reducePow]
  rw [hsum, hwrap]

theorem readRid_ridBytes {rid : RID} (hpage : IsInt32 rid.pageNum) (hslot : IsInt32 rid.slotNum)
    (rest : List UInt8) : readRid (ridBytes rid ++ rest) = some rid := by
  have hdrop : (ridBytes rid ++ rest).drop 4 = intBytes rid.slotNum ++ rest := rfl
  rw [readRid, ridBytes, List.append_assoc, readInt_intBytes hpage, ← List.append_assoc, ← ridBytes,
    hdrop, readInt_intBytes hslot]
  rfl

theorem read_bytes (hdr : CLogRecordHeader) (hlsn : IsInt32 hdr.lsn) (htrx : IsInt32 hdr.trxId)
    (hlen : IsInt32 hdr.logrecLen) (rest : List UInt8) :
    RawHeader.read (hdr.bytes ++ rest) =
      some ⟨hdr.lsn, hdr.trxId, hdr.type.toNat, hdr.logrecLen⟩ := by
  have htype : IsInt32 hdr.type.toNat := by cases hdr.type <;> decide
  have h₄ : (hdr.bytes ++ rest).drop 4 = intBytes hdr.trxId ++
      (intBytes hdr.type.toNat ++ (intBytes hdr.logrecLen ++ rest)) := rfl
  have h₈ : (hdr.bytes ++ rest).drop 8 = intBytes hdr.type.toNat ++
      (intBytes hdr.logrecLen ++ rest) := rfl
  have h₁₂ : (hdr.bytes ++ rest).drop 12 = intBytes hdr.logrecLen ++ rest := rfl
  have h₀ : hdr.bytes ++ rest = intBytes hdr.lsn ++ (intBytes hdr.trxId ++
      (intBytes hdr.type.toNat ++ (intBytes hdr.logrecLen ++ rest))) := rfl
  rw [RawHeader.read, h₄, h₈, h₁₂, h₀, readInt_intBytes hlsn, readInt_intBytes htrx,
    readInt_intBytes htype, readInt_intBytes hlen]
  rfl

/-- The byte that ends a string is 0. -/
theorem takeWhile_append_zero_prefix (bytes : List UInt8)
    (h : (bytes.takeWhile (· ≠ 0)).length < bytes.length) :
    bytes.takeWhile (· ≠ 0) ++ [0] <+: bytes := by
  induction bytes with
  | nil => cases h
  | cons b bytes ih =>
    by_cases hb : b = 0
    · subst hb
      exact ⟨bytes, rfl⟩
    · have htake : (b :: bytes).takeWhile (· ≠ 0) = b :: bytes.takeWhile (· ≠ 0) := by simp [hb]
      rw [htake] at h ⊢
      exact (List.prefix_cons_inj b).mpr (ih (Nat.lt_of_succ_lt_succ h))

/-- A string is read when it and the 0 behind it are there and it fits. -/
theorem readString_eq_some {room : ℕ} {bytes name : List UInt8} :
    readString room bytes = some name ↔
      0 ∉ name ∧ name ++ [0] <+: bytes ∧ name.length < room := by
  unfold readString
  constructor
  · intro h
    obtain ⟨⟨hlt, hroom⟩, hname⟩ := Option.ite_none_right_eq_some.mp h
    obtain rfl := Option.some.inj hname
    refine ⟨fun hmem => ?_, takeWhile_append_zero_prefix bytes hlt, hroom⟩
    simpa using List.mem_takeWhile_imp hmem
  · rintro ⟨hmem, ⟨rest, rfl⟩, hroom⟩
    have htake : (name ++ [0] ++ rest).takeWhile (· ≠ 0) = name := by
      rw [List.append_assoc, List.takeWhile_append_of_pos]
      · simp
      · intro b hb
        simpa using ne_of_mem_of_not_mem hb hmem
    rw [htake, if_pos ⟨by simp, hroom⟩]

/-- The name stands in the memory from its field on when it fits into the field, or what is behind
the field happens to go on like the name. -/
theorem prefix_strcpy (old : TableName) (name tail : List UInt8) :
    name ++ [0] <+: (old.strcpy name).bytes ++ tail ↔
      name.length < tableNameMaxLen ∨ name.drop tableNameMaxLen ++ [0] <+: tail := by
  by_cases hlen : name.length < tableNameMaxLen
  · refine iff_of_true ?_ (Or.inl hlen)
    refine List.IsPrefix.trans ?_ (List.prefix_append _ _)
    rw [TableName.strcpy_bytes, List.prefix_take_iff]
    refine ⟨⟨old.bytes.drop (name.length + 1), by simp⟩, ?_⟩
    rw [List.length_append, List.length_singleton]
    omega
  · have hfield : (old.strcpy name).bytes = name.take tableNameMaxLen := by
      rw [TableName.strcpy_bytes, List.take_append_of_le_length (by omega)]
    rw [or_iff_right hlen, hfield]
    conv_lhs => rw [← List.take_append_drop tableNameMaxLen name, List.append_assoc]
    rw [List.take_append_drop, List.prefix_append_right_inj]

namespace DecodedRecord

variable {lsn trxId : Int} (hlsn : IsInt32 lsn) (htrx : IsInt32 trxId)

include hlsn htrx

theorem decode_mtr (commit : Bool) (rest : List UInt8) :
    decode ((CLogRecord.mtr commit lsn trxId).encoding ++ rest) =
      some (.mtr ⟨lsn, trxId, (CLogRecord.mtr commit lsn trxId).getLogType.toNat, 16⟩) := by
  have hlen : IsInt32 16 := by decide
  have hread := read_bytes (CLogRecord.mtr commit lsn trxId).hdr hlsn htrx hlen rest
  have hbytes : (CLogRecord.mtr commit lsn trxId).encoding =
      (CLogRecord.mtr commit lsn trxId).hdr.bytes := List.append_nil _
  unfold decode
  rw [hbytes, hread]
  cases commit <;> rfl

theorem decode_ins {tableName : TableName} {rid : RID} {data padding : List UInt8}
    (h : clogInsRecNodataSize + data.length + padding.length =
      align8 (clogInsRecNodataSize + data.length))
    (hpage : IsInt32 rid.pageNum) (hslot : IsInt32 rid.slotNum)
    (hlen : IsInt32 (align8 (clogInsRecNodataSize + data.length) : ℕ)) (rest : List UInt8) :
    decode ((CLogRecord.ins lsn trxId tableName rid data padding h).encoding ++ rest) =
      (readString 32 (tableName.bytes ++
        (ridBytes rid ++ (intBytes data.length ++ (data ++ padding ++ rest))))).map fun name =>
          .ins ⟨lsn, trxId, CLogType.redoInsert.toNat,
            align8 (clogInsRecNodataSize + data.length)⟩ name rid data := by
  have hread := read_bytes (CLogRecord.ins lsn trxId tableName rid data padding h).hdr hlsn htrx
    hlen
  obtain ⟨body, hbody⟩ : ∃ body, body = tableName.bytes ++
      (ridBytes rid ++ (intBytes data.length ++ (data ++ padding ++ rest))) := ⟨_, rfl⟩
  have hbytes : (CLogRecord.ins lsn trxId tableName rid data padding h).encoding ++ rest =
      (CLogRecord.ins lsn trxId tableName rid data padding h).hdr.bytes ++ body := by
    simp only [hbody, CLogRecord.encoding, CLogRecord.recordBytes, CLogRecord.dataBytes,
      List.append_assoc]
  have hdrop : ∀ n, body.drop (tableNameMaxLen + n) =
      (ridBytes rid ++ (intBytes data.length ++ (data ++ padding ++ rest))).drop n := by
    intro n
    rw [hbody, ← List.drop_drop, List.drop_append_of_le_length tableName.length_eq.ge,
      List.drop_of_length_le tableName.length_eq.le, List.nil_append]
  have hdata : IsInt32 data.length := by
    have := le_align8 (clogInsRecNodataSize + data.length)
    unfold IsInt32 at hlen ⊢
    omega
  have h₁ : body.drop tableNameMaxLen = _ := hdrop 0
  have h₂ : body.drop (tableNameMaxLen + 8) = intBytes data.length ++ (data ++ padding ++ rest) :=
    hdrop 8
  have h₃ : body.drop (tableNameMaxLen + 12) = data ++ padding ++ rest := hdrop 12
  unfold decode
  rw [hbytes, hread, ← hbody]
  have hskip : ((CLogRecord.ins lsn trxId tableName rid data padding h).hdr.bytes ++ body).drop 16 =
      body := rfl
  simp only [hskip, Option.bind_eq_bind, Option.bind_some, h₁, h₂, h₃, List.drop_zero,
    readRid_ridBytes hpage hslot, readInt_intBytes hdata]
  cases readString 32 body with
  | none => rfl
  | some name =>
    have hle : (data.length : Int) ≤ (align8 (clogInsRecNodataSize + data.length) : ℕ) -
        (clogInsRecNodataSize : ℕ) := by
      have := le_align8 (clogInsRecNodataSize + data.length)
      omega
    simp [CLogRecord.hdr, CLogRecord.getLogType, CLogRecord.getLogrecLen, CLogType.toNat, hle]
    omega

theorem decode_del {tableName : TableName} {rid : RID} (hpage : IsInt32 rid.pageNum)
    (hslot : IsInt32 rid.slotNum) (rest : List UInt8) :
    decode ((CLogRecord.del lsn trxId tableName rid).encoding ++ rest) =
      (readString tableNameRoom (tableName.bytes ++ (ridBytes rid ++ rest))).map fun name =>
        .del ⟨lsn, trxId, CLogType.redoDelete.toNat, 44⟩ name rid := by
  have hlen : IsInt32 44 := by decide
  have hread := read_bytes (CLogRecord.del lsn trxId tableName rid).hdr hlsn htrx hlen
  obtain ⟨body, hbody⟩ : ∃ body, body = tableName.bytes ++ (ridBytes rid ++ rest) := ⟨_, rfl⟩
  have hbytes : (CLogRecord.del lsn trxId tableName rid).encoding ++ rest =
      (CLogRecord.del lsn trxId tableName rid).hdr.bytes ++ body := by
    simp only [hbody, CLogRecord.encoding, CLogRecord.recordBytes, CLogRecord.dataBytes,
      List.append_assoc, List.nil_append]
  have hdrop : body.drop tableNameMaxLen = ridBytes rid ++ rest := by
    rw [hbody, List.drop_append_of_le_length tableName.length_eq.ge,
      List.drop_of_length_le tableName.length_eq.le, List.nil_append]
  unfold decode
  rw [hbytes, hread, ← hbody]
  have hskip : ((CLogRecord.del lsn trxId tableName rid).hdr.bytes ++ body).drop 16 = body := rfl
  simp only [hskip, Option.bind_eq_bind, Option.bind_some, hdrop, readRid_ridBytes hpage hslot]
  cases readString tableNameRoom body with
  | none => rfl
  | some name => rfl

end DecodedRecord

/-! ## Which records come back -/

/-- The record is built, and from its pieces it is built again with the same fields. -/
def RoundTrips (flag : CLogType) (lsn trxId : Int) (tableName : List UInt8) (rec : Record)
    (old : TableName) (heap : ℕ → UInt8) : Prop :=
  ∃ r, CLogRecord.new flag lsn trxId tableName rec old heap = some r ∧
    ∀ lens : List ℕ, lens.sum = r.getLogrecLen → ∃ bytes, r.copyPieces 0 lens = .ok bytes ∧
      DecodedRecord.decode bytes = some (.original flag lsn trxId tableName rec)

/-- The name is shorter than its field, or what the record has behind the field goes on like the
name and ends with 0: its identifier, and the length of the data of an insertion. -/
def NameFits (flag : CLogType) (tableName : List UInt8) (rec : Record) : Prop :=
  match flag with
  | .redoInsert => tableName.length < tableNameMaxLen ∨
      tableName.drop tableNameMaxLen ++ [0] <+: ridBytes rec.rid ++ intBytes rec.data.length
  | .redoDelete => tableName.length < tableNameMaxLen ∨
      tableName.drop tableNameMaxLen ++ [0] <+: ridBytes rec.rid
  | _ => True

/-- The values of the fields of a record: all of them are integers of 32 bits. -/
structure Record.InRange (rec : Record) : Prop where
  pageNum : IsInt32 rec.rid.pageNum
  slotNum : IsInt32 rec.rid.slotNum
  logrecLen : IsInt32 (align8 (clogInsRecNodataSize + rec.data.length) : ℕ)

/-- All pieces together decode like the bytes of the record. -/
theorem roundTrips_iff_of_new {flag : CLogType} {lsn trxId : Int} {tableName : List UInt8}
    {rec : Record} {old : TableName} {heap : ℕ → UInt8} {r : CLogRecord}
    (hnew : CLogRecord.new flag lsn trxId tableName rec old heap = some r) :
    RoundTrips flag lsn trxId tableName rec old heap ↔
      DecodedRecord.decode r.encoding = some (.original flag lsn trxId tableName rec) := by
  have hpieces : ∀ lens : List ℕ, lens.sum = r.getLogrecLen →
      r.copyPieces 0 lens = .ok r.encoding := by
    intro lens hsum
    rw [r.copyPieces_eq lens 0 (by omega), List.drop_zero, hsum, ← r.encoding_length,
      List.take_length]
  constructor
  · rintro ⟨r', hnew', h⟩
    obtain rfl := Option.some.inj (hnew.symm.trans hnew')
    obtain ⟨bytes, hbytes, hdecode⟩ := h [r.getLogrecLen] List.sum_singleton
    rw [hpieces _ List.sum_singleton] at hbytes
    cases hbytes
    exact hdecode
  · intro h
    exact ⟨r, hnew, fun lens hsum => ⟨r.encoding, hpieces lens hsum, h⟩⟩

/-- The name is read back if and only if it fits, when the copy ends where the fields behind it end
or there is nothing behind them. -/
theorem readString_strcpy {tableName : List UInt8} (hname : 0 ∉ tableName) (old : TableName)
    {room : ℕ} (fields rest : List UInt8) (hpos : 0 < fields.length)
    (hroom : tableNameMaxLen + fields.length ≤ room)
    (hrest : rest = [] ∨ room = tableNameMaxLen + fields.length) :
    readString room ((old.strcpy tableName).bytes ++ (fields ++ rest)) = some tableName ↔
      tableName.length < tableNameMaxLen ∨
        tableName.drop tableNameMaxLen ++ [0] <+: fields := by
  rw [readString_eq_some, prefix_strcpy, and_iff_right hname]
  by_cases hlen : tableName.length < tableNameMaxLen
  · exact iff_of_true ⟨Or.inl hlen, by omega⟩ (Or.inl hlen)
  · rw [or_iff_right hlen, or_iff_right hlen]
    have hlength : (tableName.drop tableNameMaxLen ++ [0]).length =
        tableName.length - tableNameMaxLen + 1 := by
      rw [List.length_append, List.length_drop, List.length_singleton]
    constructor
    · rintro ⟨h, hlt⟩
      rcases hrest with rfl | hroom
      · rwa [List.append_nil] at h
      · exact List.prefix_of_prefix_length_le h (List.prefix_append _ _) (by omega)
    · intro h
      have := h.length_le
      exact ⟨h.trans (List.prefix_append _ _), by omega⟩

/-- A name that does not fit into the object does not fit. -/
theorem lt_tableNameRoom {tableName fields : List UInt8}
    (hfields : tableNameMaxLen + fields.length ≤ tableNameRoom)
    (h : tableName.length < tableNameMaxLen ∨ tableName.drop tableNameMaxLen ++ [0] <+: fields) :
    tableName.length < tableNameRoom := by
  rcases h with h | h
  · exact h.trans (by decide)
  · have := h.length_le
    rw [List.length_append, List.length_drop, List.length_singleton] at this
    omega

section

variable {lsn trxId : Int} (hlsn : IsInt32 lsn) (htrx : IsInt32 trxId) {tableName : List UInt8}
  (hname : 0 ∉ tableName) {rec : Record} (hrec : rec.InRange) (old : TableName) (heap : ℕ → UInt8)

include hlsn htrx hname hrec

theorem roundTrips_insert :
    RoundTrips .redoInsert lsn trxId tableName rec old heap ↔
      NameFits .redoInsert tableName rec := by
  have hfields : tableNameMaxLen + (ridBytes rec.rid ++ intBytes rec.data.length).length = 32 := rfl
  have hread := readString_strcpy hname old (ridBytes rec.rid ++ intBytes rec.data.length)
    (rec.data ++ padding heap rec.data.length ++ []) (Nat.succ_pos _) hfields.le (Or.inr hfields.symm)
  rw [List.append_assoc] at hread
  by_cases hlen : tableName.length < tableNameRoom
  · have hnew : CLogRecord.new .redoInsert lsn trxId tableName rec old heap = some _ := if_pos hlen
    rw [roundTrips_iff_of_new hnew, ← List.append_nil (CLogRecord.encoding _),
      DecodedRecord.decode_ins hlsn htrx _ hrec.pageNum hrec.slotNum hrec.logrecLen, NameFits,
      ← hread, DecodedRecord.original, Option.map_eq_some_iff]
    constructor
    · rintro ⟨name, hstring, heq⟩
      cases heq
      exact hstring
    · exact fun hstring => ⟨tableName, hstring, rfl⟩
  · refine iff_of_false ?_ fun h => hlen (lt_tableNameRoom (by rw [hfields]; decide) h)
    rintro ⟨r, hnew, -⟩
    rw [CLogRecord.new, if_neg hlen] at hnew
    cases hnew

theorem roundTrips_delete :
    RoundTrips .redoDelete lsn trxId tableName rec old heap ↔
      NameFits .redoDelete tableName rec := by
  have hfields : tableNameMaxLen + (ridBytes rec.rid).length ≤ tableNameRoom := by
    rw [ridBytes_length]
    decide
  have hread := readString_strcpy hname old (ridBytes rec.rid) [] (Nat.succ_pos _) hfields
    (Or.inl rfl)
  by_cases hlen : tableName.length < tableNameRoom
  · have hnew : CLogRecord.new .redoDelete lsn trxId tableName rec old heap = some _ := if_pos hlen
    rw [roundTrips_iff_of_new hnew, ← List.append_nil (CLogRecord.encoding _),
      DecodedRecord.decode_del hlsn htrx hrec.pageNum hrec.slotNum, NameFits, ← hread,
      DecodedRecord.original, Option.map_eq_some_iff]
    constructor
    · rintro ⟨name, hstring, heq⟩
      cases heq
      exact hstring
    · exact fun hstring => ⟨tableName, hstring, rfl⟩
  · refine iff_of_false ?_ fun h => hlen (lt_tableNameRoom hfields h)
    rintro ⟨r, hnew, -⟩
    rw [CLogRecord.new, if_neg hlen] at hnew
    cases hnew

/-- Whatever the memory held before, a record comes back as it was, however it is cut, if and only
if the name of its table fits. -/
theorem roundTrips_iff {flag : CLogType} (hflag : flag ≠ .redoError) :
    RoundTrips flag lsn trxId tableName rec old heap ↔ NameFits flag tableName rec := by
  cases flag with
  | redoError => exact absurd rfl hflag
  | redoMtrBegin =>
    rw [roundTrips_iff_of_new rfl, ← List.append_nil (CLogRecord.encoding _),
      DecodedRecord.decode_mtr hlsn htrx]
    exact iff_of_true rfl trivial
  | redoMtrCommit =>
    rw [roundTrips_iff_of_new rfl, ← List.append_nil (CLogRecord.encoding _),
      DecodedRecord.decode_mtr hlsn htrx]
    exact iff_of_true rfl trivial
  | redoInsert => exact roundTrips_insert hlsn htrx hname hrec old heap
  | redoDelete => exact roundTrips_delete hlsn htrx hname hrec old heap

end

/-- A field of zero bytes. -/
def TableName.zero : TableName := ⟨List.replicate tableNameMaxLen 0, List.length_replicate⟩

theorem insert_roundTrips :
    RoundTrips .redoInsert 16 1 [116] ⟨⟨1, 0⟩, [1, 0, 0, 0, 7]⟩ .zero (fun _ => 0) ↔
      NameFits .redoInsert [116] ⟨⟨1, 0⟩, [1, 0, 0, 0, 7]⟩ :=
  roundTrips_iff (by decide) (by decide) (by decide)
    ⟨by decide, by decide, by decide⟩ .zero (fun _ => 0) (by decide)

/-- A name of 20 letters comes back with the number of the record's page behind it. -/
theorem long_name_changed :
    (∃ r, CLogRecord.new .redoDelete 16 1 (List.replicate 20 97) ⟨⟨1, 0⟩, []⟩ .zero (fun _ => 0) =
        some r ∧ DecodedRecord.decode r.encoding =
          some (.del ⟨16, 1, 4, 44⟩ (List.replicate 20 97 ++ [1]) ⟨1, 0⟩)) ∧
      ¬ RoundTrips .redoDelete 16 1 (List.replicate 20 97) ⟨⟨1, 0⟩, []⟩ .zero (fun _ => 0) := by
  have hdecode : DecodedRecord.decode (CLogRecord.del 16 1 (TableName.zero.strcpy
      (List.replicate 20 97)) ⟨1, 0⟩).encoding =
        some (.del ⟨16, 1, 4, 44⟩ (List.replicate 20 97 ++ [1]) ⟨1, 0⟩) := by decide
  refine ⟨⟨_, rfl, hdecode⟩, ?_⟩
  rw [roundTrips_iff_of_new rfl, hdecode]
  decide

end Miniob.Storage.Clog
