import Miniob.Basic
import Mathlib.Data.List.Basic
import Mathlib.Logic.Function.Basic

/-!
# The redo log

Records of the redo log are written one after the other into blocks of 512 bytes. A block has a
header of 8 bytes and 504 bytes of data; a record goes on in the next block when the current one is
full. `CLogBuffer` holds the blocks that have not been written to the file yet, `CLogFile` the
blocks of the file.

* `CLogRecord`: the records and their bytes, as `copy_record` copies them.
* `CLogBuffer`: `appendLogRecord` and `flushBuffer`.
* `CLogManager`: `clogAppendRecord` and `clogSync`, with `LogOp.run` for whole runs.

Input and output succeed. A copy that would leave the data of one block of the buffer is undefined.
Block numbers are natural numbers: they stay below `2 ^ 31` as long as the file does.
-/

namespace Miniob.Storage.Clog

/-! ## Records -/

/-- Source: `clog.h`, `enum CLogType` -/
inductive CLogType
  | redoError
  | redoMtrBegin
  | redoMtrCommit
  | redoInsert
  | redoDelete
  deriving DecidableEq, Repr

/-- The value of the enumerator. -/
def CLogType.toNat : CLogType → ℕ
  | redoError => 0
  | redoMtrBegin => 1
  | redoMtrCommit => 2
  | redoInsert => 3
  | redoDelete => 4

/-- Source: `clog.h`, `struct CLogRecordHeader` -/
structure CLogRecordHeader where
  /-- `lsn_` -/
  lsn : Int
  /-- `trx_id_` -/
  trxId : Int
  /-- `type_` -/
  type : CLogType
  /-- `logrec_len_` -/
  logrecLen : ℕ
  deriving DecidableEq, Repr

/-- The bytes of a 32-bit integer, the lowest first. -/
def intBytes (x : Int) : List UInt8 :=
  let n := (x % 4294967296).toNat
  [UInt8.ofNat n, UInt8.ofNat (n / 256), UInt8.ofNat (n / 65536), UInt8.ofNat (n / 16777216)]

@[simp] theorem intBytes_length (x : Int) : (intBytes x).length = 4 := rfl

/-- The bytes of a record header. -/
def CLogRecordHeader.bytes (hdr : CLogRecordHeader) : List UInt8 :=
  intBytes hdr.lsn ++ intBytes hdr.trxId ++ intBytes hdr.type.toNat ++ intBytes hdr.logrecLen

@[simp] theorem CLogRecordHeader.bytes_length (hdr : CLogRecordHeader) :
    hdr.bytes.length = 16 := rfl

/-- The bytes of a record identifier. -/
def ridBytes (rid : RID) : List UInt8 := intBytes rid.pageNum ++ intBytes rid.slotNum

@[simp] theorem ridBytes_length (rid : RID) : (ridBytes rid).length = 8 := rfl

/-- Source: `clog.h`, `TABLE_NAME_MAX_LEN` -/
def tableNameMaxLen : ℕ := 20

/-- `table_name_`, a field of fixed size. -/
structure TableName where
  /-- The bytes of the field. -/
  bytes : List UInt8
  length_eq : bytes.length = tableNameMaxLen
  deriving DecidableEq

/-- Source: `clog.cpp`, `CLOG_INS_REC_NODATA_SIZE` -/
def clogInsRecNodataSize : ℕ := 48

/-- Source: `clog.cpp`, `_align8` -/
def align8 (size : ℕ) : ℕ := size / 8 * 8 + if size % 8 = 0 then 0 else 8

theorem le_align8 (size : ℕ) : size ≤ align8 size := by
  unfold align8
  split <;> omega

/-- A log record. The length in the header is the one that the constructor computes; `data_` of an
insertion has the bytes of the record and, up to the length in the header, bytes that nothing has
set. Source: `clog.h`, `union CLogRecords`; `clog.cpp`, `CLogRecord::CLogRecord` -/
inductive CLogRecord
  /-- `CLogMTRRecord` -/
  | mtr (commit : Bool) (lsn trxId : Int)
  /-- `CLogInsertRecord` -/
  | ins (lsn trxId : Int) (tableName : TableName) (rid : RID) (data padding : List UInt8)
    (h : clogInsRecNodataSize + data.length + padding.length =
      align8 (clogInsRecNodataSize + data.length))
  /-- `CLogDeleteRecord` -/
  | del (lsn trxId : Int) (tableName : TableName) (rid : RID)

namespace CLogRecord

/-- Source: `clog.h`, `CLogRecord::get_log_type` -/
def getLogType : CLogRecord → CLogType
  | mtr false _ _ => .redoMtrBegin
  | mtr true _ _ => .redoMtrCommit
  | ins .. => .redoInsert
  | del .. => .redoDelete

/-- Source: `clog.h`, `CLogRecord::get_logrec_len` -/
def getLogrecLen : CLogRecord → ℕ
  | mtr .. => 16
  | ins _ _ _ _ data _ _ => align8 (clogInsRecNodataSize + data.length)
  | del .. => 44

/-- `hdr_` -/
def hdr : CLogRecord → CLogRecordHeader
  | r@(mtr _ lsn trxId) => ⟨lsn, trxId, r.getLogType, r.getLogrecLen⟩
  | r@(ins lsn trxId _ _ _ _ _) => ⟨lsn, trxId, r.getLogType, r.getLogrecLen⟩
  | r@(del lsn trxId _ _) => ⟨lsn, trxId, r.getLogType, r.getLogrecLen⟩

/-- The bytes of `log_record_` that lie in the record itself, up to `data_`. -/
def recordBytes : CLogRecord → List UInt8
  | r@(mtr ..) => r.hdr.bytes
  | r@(ins _ _ tableName rid data _ _) =>
      r.hdr.bytes ++ tableName.bytes ++ ridBytes rid ++ intBytes data.length
  | r@(del _ _ tableName rid) => r.hdr.bytes ++ tableName.bytes ++ ridBytes rid

/-- The bytes that `data_` points to. -/
def dataBytes : CLogRecord → List UInt8
  | ins _ _ _ _ data padding _ => data ++ padding
  | _ => []

/-- The bytes of the record in the log. -/
def encoding (r : CLogRecord) : List UInt8 := r.recordBytes ++ r.dataBytes

/-- An error stands for a copy that is not made.
Source: `clog.cpp`, `CLogRecord::copy_record` -/
def copyRecord (r : CLogRecord) (startOff copyLen : ℕ) : Except RC (List UInt8) :=
  if r.getLogrecLen < startOff + copyLen then .error .genericError
  else if r.getLogType ≠ .redoInsert then .ok ((r.recordBytes.drop startOff).take copyLen)
  else if clogInsRecNodataSize < startOff then
    .ok ((r.dataBytes.drop (startOff - clogInsRecNodataSize)).take copyLen)
  else if startOff + copyLen ≤ clogInsRecNodataSize then
    .ok ((r.recordBytes.drop startOff).take copyLen)
  else
    .ok ((r.recordBytes.drop startOff).take (clogInsRecNodataSize - startOff) ++
      r.dataBytes.take (copyLen - (clogInsRecNodataSize - startOff)))

theorem recordBytes_length_ins (lsn trxId : Int) (tableName : TableName) (rid : RID)
    (data padding : List UInt8) (h) :
    (ins lsn trxId tableName rid data padding h).recordBytes.length = clogInsRecNodataSize := by
  simp [recordBytes, tableName.length_eq, tableNameMaxLen, clogInsRecNodataSize]

/-- The header has the length of the record. -/
theorem encoding_length (r : CLogRecord) : r.encoding.length = r.getLogrecLen := by
  cases r with
  | mtr commit lsn trxId => rfl
  | ins lsn trxId tableName rid data padding h =>
    rw [encoding, List.length_append, recordBytes_length_ins]
    simp only [dataBytes, getLogrecLen, List.length_append]
    omega
  | del lsn trxId tableName rid =>
    simp [encoding, recordBytes, dataBytes, getLogrecLen, tableName.length_eq, tableNameMaxLen]

theorem getLogrecLen_pos (r : CLogRecord) : 0 < r.getLogrecLen := by
  cases r with
  | mtr => simp [getLogrecLen]
  | ins lsn trxId tableName rid data padding h =>
    have := le_align8 (clogInsRecNodataSize + data.length)
    simp only [getLogrecLen, clogInsRecNodataSize] at this ⊢
    omega
  | del => simp [getLogrecLen]

/-- `copy_record` copies the bytes from `start_off` on, whichever parts of the record they are in. -/
theorem copyRecord_eq (r : CLogRecord) {startOff copyLen : ℕ}
    (h : startOff + copyLen ≤ r.getLogrecLen) :
    r.copyRecord startOff copyLen = .ok ((r.encoding.drop startOff).take copyLen) := by
  unfold copyRecord
  rw [if_neg (by omega)]
  cases r with
  | mtr commit lsn trxId =>
    rw [if_pos (by cases commit <;> simp [getLogType])]
    simp [encoding, dataBytes]
  | del lsn trxId tableName rid =>
    rw [if_pos (by simp [getLogType])]
    simp [encoding, dataBytes]
  | ins lsn trxId tableName rid data padding hlen =>
    rw [if_neg (by simp [getLogType])]
    have hrec := recordBytes_length_ins lsn trxId tableName rid data padding hlen
    split_ifs with h₁ h₂
    · have hdrop := List.drop_eq_nil_of_le (hrec.trans_le h₁.le)
      rw [encoding, List.drop_append, hdrop, List.nil_append, hrec]
    · rw [encoding, List.drop_append_of_le_length (by omega),
        List.take_append_of_le_length (by rw [List.length_drop, hrec]; omega)]
    · rw [encoding, List.drop_append_of_le_length (by omega), List.take_append,
        List.length_drop, hrec,
        List.take_of_length_le
          (by rw [List.length_drop, hrec] : _ ≤ clogInsRecNodataSize - startOff),
        List.take_of_length_le (by rw [List.length_drop, hrec]; omega : _ ≤ copyLen)]

end CLogRecord

/-! ## Blocks -/

/-- Source: `clog.h`, `CLOG_BLOCK_SIZE` -/
def clogBlockSize : ℕ := 512

/-- Source: `clog.h`, `CLOG_BLOCK_HDR_SIZE` -/
def clogBlockHdrSize : ℕ := 8

/-- Source: `clog.h`, `CLOG_BLOCK_DATA_SIZE` -/
def clogBlockDataSize : ℕ := 504

/-- Source: `clog.h`, `CLOG_BUFFER_SIZE` -/
def clogBufferSize : ℕ := 4194304

/-- Source: `clog.h`, `CLOG_REDO_BUFFER_SIZE` -/
def clogRedoBufferSize : ℕ := 4096

/-- Source: `clog.h`, `struct CLogBlock`, `struct CLogBlockHeader` -/
@[ext] structure CLogBlock where
  /-- `log_block_no` -/
  logBlockNo : ℕ
  /-- `log_data_len_` -/
  logDataLen : ℕ
  /-- `first_rec_offset_` -/
  firstRecOffset : ℕ
  /-- `data` -/
  data : List UInt8
  data_length : data.length = clogBlockDataSize
  deriving DecidableEq

namespace CLogBlock

/-- A block of zero bytes. -/
def zero : CLogBlock := ⟨0, 0, 0, List.replicate clogBlockDataSize 0, List.length_replicate⟩

instance : Inhabited CLogBlock := ⟨zero⟩

/-- The bytes of the log in the block. -/
def logData (b : CLogBlock) : List UInt8 := b.data.take b.logDataLen

/-- Copy bytes into the data from a position on. -/
def copyTo (b : CLogBlock) (pos : ℕ) (bytes : List UInt8) : Option CLogBlock :=
  if h : pos + bytes.length ≤ clogBlockDataSize then
    some { b with
      data := b.data.take pos ++ bytes ++ b.data.drop (pos + bytes.length)
      data_length := by
        have := b.data_length
        simp only [List.length_append, List.length_take, List.length_drop]
        omega }
  else none

end CLogBlock

/-! ## The buffer -/

/-- Source: `clog.h`, `class CLogBuffer` -/
@[ext] structure CLogBuffer where
  /-- `current_block_no_` -/
  currentBlockNo : ℕ
  /-- `write_block_offset_` -/
  writeBlockOffset : ℕ
  /-- `write_offset_` -/
  writeOffset : ℕ
  /-- `buffer_`, as the blocks it is made of. -/
  buffer : ℕ → CLogBlock

/-- Source: `clog.h`, `class CLogFile`. The blocks of the file by their offset in blocks; the first
one is the header of the file. -/
def CLogFile := ℕ → Option CLogBlock

/-- Write whole blocks at an offset. An offset inside a block is not defined here.
Source: `clog.cpp`, `CLogFile::write` -/
def CLogFile.write (file : CLogFile) (offset : ℕ) (blocks : List CLogBlock) : Option CLogFile :=
  if offset % clogBlockSize = 0 then
    some fun i => if offset / clogBlockSize ≤ i then
      (blocks[i - offset / clogBlockSize]?).or (file i) else file i
  else none

namespace CLogBuffer

/-- Source: `clog.cpp`, `CLogBuffer::CLogBuffer` -/
def init : CLogBuffer := ⟨0, 0, 0, fun _ => .zero⟩

/-- The block at an offset of the buffer. -/
def block (b : CLogBuffer) (offset : ℕ) : CLogBlock := b.buffer (offset / clogBlockSize)

/-- Change the block at an offset of the buffer. -/
def setBlock (b : CLogBuffer) (offset : ℕ) (block : CLogBlock) : CLogBuffer :=
  { b with buffer := Function.update b.buffer (offset / clogBlockSize) block }

/-- Copy bytes to an offset of the buffer. They have to stay in the data of one block. -/
def copyTo (b : CLogBuffer) (offset : ℕ) (bytes : List UInt8) : Option CLogBuffer :=
  if clogBlockHdrSize ≤ offset % clogBlockSize ∧ offset < clogBufferSize then
    ((b.block offset).copyTo (offset % clogBlockSize - clogBlockHdrSize) bytes).map
      (b.setBlock offset)
  else none

/-- Start a block at `write_block_offset_`. -/
def newBlock (b : CLogBuffer) : Option CLogBuffer :=
  if b.writeBlockOffset + clogBlockSize ≤ clogBufferSize then
    let b := { b with currentBlockNo := b.currentBlockNo + clogBlockSize }
    let b := b.setBlock b.writeBlockOffset { CLogBlock.zero with logBlockNo := b.currentBlockNo }
    some { b with writeOffset := b.writeOffset + clogBlockHdrSize }
  else none

/-- The first block of an empty buffer. -/
def firstBlock (b : CLogBuffer) : Option CLogBuffer :=
  if b.writeOffset = 0 ∧ b.writeBlockOffset = 0 then b.newBlock else some b

/-- Copy `len` bytes of the record to the end of the current block. -/
def copyRecord (b : CLogBuffer) (logRec : CLogRecord) (startOff len : ℕ) : Option CLogBuffer := do
  let b ← match logRec.copyRecord startOff len with
    | .ok bytes => b.copyTo b.writeOffset bytes
    | .error _ => some b
  let block := b.block b.writeBlockOffset
  let b := { b with writeOffset := b.writeOffset + len }
  return b.setBlock b.writeBlockOffset { block with logDataLen := block.logDataLen + len }

/-- Set `first_rec_offset_` of a block without data. -/
def setFirstRecOffset (b : CLogBuffer) (offset : ℕ) : CLogBuffer :=
  let block := b.block b.writeBlockOffset
  if block.logDataLen = 0 then
    b.setBlock b.writeBlockOffset { block with firstRecOffset := offset }
  else b

/-- The answer has the offset of the first byte of the record that is not in the buffer yet.
Source: `clog.cpp`, `CLogBuffer::append_log_record` -/
def appendLogRecord : ℕ → CLogBuffer → CLogRecord → ℕ → Option (RC × ℕ × CLogBuffer)
  | 0, _, _, _ => none
  | fuel + 1, b, logRec, startOff =>
    if b.writeOffset = clogBufferSize then some (.logbufFull, startOff, b)
    else do
      let leftLen := logRec.getLogrecLen - startOff
      let b ← b.firstBlock
      let dataLen := (b.block b.writeBlockOffset).logDataLen
      if dataLen = clogBlockDataSize then
        let b ← { b with writeBlockOffset := b.writeBlockOffset + clogBlockSize }.newBlock
        appendLogRecord fuel b logRec startOff
      else if leftLen ≤ clogBlockDataSize - dataLen then
        let b := b.setFirstRecOffset
          (if startOff = 0 then clogBlockHdrSize else clogBlockHdrSize + leftLen)
        let b ← b.copyRecord logRec startOff leftLen
        return (.success, startOff + leftLen, b)
      else
        let b := b.setFirstRecOffset clogBlockSize
        let blockLeftLen := clogBlockDataSize - dataLen
        let b ← b.copyRecord logRec startOff blockLeftLen
        appendLogRecord fuel b logRec (startOff + blockLeftLen)

/-- The first `n` blocks of the buffer. -/
def blocks (b : CLogBuffer) (n : ℕ) : List CLogBlock := (List.range n).map b.buffer

/-- Nothing is left in the buffer. -/
def reset (b : CLogBuffer) : CLogBuffer := ⟨b.currentBlockNo, 0, 0, fun _ => .zero⟩

/-- Source: `clog.cpp`, `CLogBuffer::flush_buffer` -/
def flushBuffer (b : CLogBuffer) (file : CLogFile) : Option (CLogFile × CLogBuffer) := do
  let blockNo := (b.block 0).logBlockNo
  if b.writeOffset = clogBufferSize then
    let file ← file.write blockNo (b.blocks (clogBufferSize / clogBlockSize))
    return (file, b.reset)
  else
    let file ← file.write blockNo (b.blocks ((b.writeBlockOffset + clogBlockSize) / clogBlockSize))
    let block := b.block b.writeBlockOffset
    if block.logDataLen = clogBlockDataSize then
      return (file, b.reset)
    else if b.writeBlockOffset ≠ 0 then
      -- the block that is not full yet moves to the front
      return (file, ⟨b.currentBlockNo, 0, block.logDataLen + clogBlockHdrSize,
        Function.update (fun _ => .zero) 0 block⟩)
    else
      return (file, b)

end CLogBuffer

/-! ## The log -/

/-- Source: `clog.h`, `class CLogManager` -/
structure CLogManager where
  /-- `log_buffer_` -/
  logBuffer : CLogBuffer
  /-- `log_file_` -/
  logFile : CLogFile

namespace CLogManager

/-- A log whose file has been created: it holds its header only.
Source: `clog.cpp`, `CLogManager::CLogManager`, `CLogFile::CLogFile` -/
def fresh (fhd : CLogBlock) : CLogManager where
  logBuffer := .init
  logFile := fun i => if i = 0 then some fhd else none

/-- Source: `clog.cpp`, `CLogManager::clog_sync` -/
def clogSync (m : CLogManager) : Option CLogManager := do
  let (file, buffer) ← m.logBuffer.flushBuffer m.logFile
  return ⟨buffer, file⟩

/-- Enough fuel for a record: every second call copies a byte. -/
def appendFuel (logRec : CLogRecord) : ℕ := 2 * logRec.getLogrecLen + 2

/-- The rest of a record that did not fit into the buffer. -/
def appendRest (m : CLogManager) (logRec : CLogRecord) (startOff : ℕ) : Option CLogManager :=
  if startOff ≠ logRec.getLogrecLen then do
    let (_, _, buffer) ← m.logBuffer.appendLogRecord (appendFuel logRec) logRec startOff
    return { m with logBuffer := buffer }
  else some m

/-- Source: `clog.cpp`, `CLogManager::clog_append_record` -/
def clogAppendRecord (m : CLogManager) (logRec : CLogRecord) : Option (RC × CLogManager) := do
  let (rc, startOff, buffer) ← m.logBuffer.appendLogRecord (appendFuel logRec) logRec 0
  let m := { m with logBuffer := buffer }
  if rc = .logbufFull ∨ logRec.getLogType = .redoMtrCommit then
    let m ← m.clogSync
    let m ← m.appendRest logRec startOff
    return (rc, m)
  return (rc, m)

end CLogManager

/-- A call of the log. -/
inductive LogOp
  /-- `clog_append_record` -/
  | append (logRec : CLogRecord)
  /-- `clog_sync` -/
  | sync

/-- One call. -/
def LogOp.step (m : CLogManager) : LogOp → Option CLogManager
  | append logRec => (m.clogAppendRecord logRec).map (·.2)
  | sync => m.clogSync

/-- A run of calls. -/
def runLog (ops : List LogOp) (m : CLogManager) : Option CLogManager :=
  ops.foldlM LogOp.step m

/-- The bytes that the call adds to the log. -/
def LogOp.bytes : LogOp → List UInt8
  | append logRec => logRec.encoding
  | sync => []

end Miniob.Storage.Clog
