import Miniob.Storage.Clog.RecordCodec

/-!
# Reading the log file back

When a database is opened, its log file is read in batches of eight blocks. The records are found
by the header of each block: `first_rec_offset_` says where the first record starts in it, and the
bytes in front of it belong to a record that started in an earlier block. Such a record is put
together in a buffer.

* `CLogRecordBuf`: the buffer for a record that goes over blocks.
* `CLogFile.blockRecover`: one step inside a block, with `CLogFile.recoverBlock` for the block.
* `CLogFile.recover`: the whole file. It gives the records, the number for the next one and the
  buffer in which the log goes on.

A copy that would leave its buffer is undefined, and so is a string that does not end in its block.
What is on the stack when the function is called is a parameter.
-/

namespace Miniob.Storage.Clog

/-! ## The buffer of a record -/

/-- The bytes up to `write_offset_`; those behind it are 0.
Source: `clog.h`, `struct CLogRecordBuf` -/
structure CLogRecordBuf where
  /-- `buffer_` -/
  bytes : List UInt8
  deriving DecidableEq

namespace CLogRecordBuf

/-- No byte has been put into the buffer. -/
def empty : CLogRecordBuf := ⟨[]⟩

/-- Add bytes at `write_offset_`. -/
def append (buf : CLogRecordBuf) (bytes : List UInt8) : Option CLogRecordBuf :=
  if buf.bytes.length + bytes.length ≤ clogRedoBufferSize then some ⟨buf.bytes ++ bytes⟩ else none

/-- The record that the buffer holds. -/
def decode (buf : CLogRecordBuf) : Option DecodedRecord :=
  DecodedRecord.decode (buf.bytes ++ List.replicate (clogRedoBufferSize - buf.bytes.length) 0)

end CLogRecordBuf

/-! ## One block -/

/-- The memory of the block from an offset on. -/
def CLogBlock.memory (block : CLogBlock) (offset : ℕ) : List UInt8 :=
  block.data.drop (offset - clogBlockHdrSize)

/-- One step inside a block. The answer has the new offset, the buffer and the record that is
complete.
Source: `clog.cpp`, `CLogFile::block_recover` -/
def CLogFile.blockRecover (block : CLogBlock) (offset : ℕ) (buf : CLogRecordBuf) :
    Option (ℕ × CLogRecordBuf × Option DecodedRecord) :=
  if offset = clogBlockHdrSize ∧ block.firstRecOffset ≠ clogBlockHdrSize then
    -- the block starts inside a record
    if clogBlockHdrSize ≤ block.firstRecOffset ∧ block.firstRecOffset ≤ clogBlockSize then do
      let len := block.firstRecOffset - clogBlockHdrSize
      let buf ← buf.append ((block.memory offset).take len)
      return (offset + len, buf, none)
    else none
  else if clogBlockSize - offset < 16 then do
    -- not even the header of the record is in this block
    let buf ← buf.append (block.memory offset)
    return (clogBlockSize, buf, none)
  else if buf ≠ .empty then do
    let logRec ← buf.decode
    return (offset, .empty, some logRec)
  else do
    let logrecLen ← readInt ((block.memory offset).drop 12)
    if logrecLen ≤ clogBlockSize - offset then do
      let logRec ← DecodedRecord.decode (block.memory offset)
      if 0 ≤ logrecLen then return (offset + logrecLen.toNat, buf, some logRec) else none
    else do
      let buf ← buf.append (block.memory offset)
      return (clogBlockSize, buf, none)

/-- Where the end of the record is: the number of the next one. The header of a record without a
valid flag is not set.
Source: `clog.h`, `CLogRecord::get_lsn`, `CLogRecord::get_logrec_len` -/
def DecodedRecord.nextLsn : DecodedRecord → Option Int
  | mtr hdr => some (hdr.lsn + hdr.logrecLen)
  | ins hdr _ _ _ => some (hdr.lsn + hdr.logrecLen)
  | del hdr _ _ => some (hdr.lsn + hdr.logrecLen)
  | error _ => none

/-- What has been read so far. -/
structure Recovery where
  /-- `CLogManager::gloabl_lsn_` -/
  gloablLsn : Int
  /-- The records that `log_record_manage` has got. -/
  records : List DecodedRecord
  /-- `logrec_buf` -/
  logrecBuf : CLogRecordBuf
  /-- `log_buffer` -/
  logBuffer : CLogBuffer

namespace Recovery

/-- A process that has just started. -/
def init : Recovery := ⟨0, [], .empty, .init⟩

/-- A record that was found in a block. -/
def deliver (s : Recovery) (logRec : Option DecodedRecord) : Option Recovery :=
  match logRec with
  | none => some s
  | some logRec => do
    let next ← logRec.nextLsn
    return { s with gloablLsn := next, records := s.records ++ [logRec] }

/-- The loop over the records of a block.
Source: `clog.cpp`, `CLogFile::recover` -/
def recoverRecords (block : CLogBlock) : ℕ → ℕ → Recovery → Option Recovery
  | 0, _, _ => none
  | fuel + 1, offset, s =>
    if offset < clogBlockHdrSize + block.logDataLen then do
      let (offset, buf, logRec) ← CLogFile.blockRecover block offset s.logrecBuf
      let s ← ({ s with logrecBuf := buf } : Recovery).deliver logRec
      recoverRecords block fuel offset s
    else some s

/-- Enough fuel for a block: a record has 16 bytes, and the buffer is emptied once in between. -/
def blockFuel : ℕ := 2 * clogBlockDataSize + 2

/-- The records of a block. The last block of the log goes to the buffer, where the log goes on.
The answer says whether this was the last block.
Source: `clog.cpp`, `CLogFile::recover` -/
def recoverBlock (s : Recovery) (block : CLogBlock) : Option (Recovery × Bool) := do
  let s ← recoverRecords block blockFuel clogBlockHdrSize
    { s with logBuffer := { s.logBuffer with currentBlockNo := block.logBlockNo } }
  if block.logDataLen < clogBlockDataSize then
    let buffer := s.logBuffer.setBlock 0 block
    return ({ s with
      logBuffer := { buffer with
        writeBlockOffset := 0
        writeOffset := block.logDataLen + clogBlockHdrSize } }, true)
  else return (s, false)

/-- The blocks of a batch, up to the last block of the log. -/
def recoverBlocks : Recovery → List CLogBlock → Option (Recovery × Bool)
  | s, [] => some (s, false)
  | s, block :: blocks => do
    let (s, last) ← s.recoverBlock block
    if last then return (s, true) else s.recoverBlocks blocks

/-- A record that is still in its buffer at the end.
Source: `clog.cpp`, `CLogFile::recover` -/
def done (s : Recovery) : Option Recovery :=
  if s.logrecBuf ≠ .empty then do
    let logRec ← s.logrecBuf.decode
    return { s with records := s.records ++ [logRec] }
  else some s

end Recovery

/-! ## The file -/

namespace CLogFile

/-- The number of blocks that fit into `redo_buffer`. -/
def redoBlocks : ℕ := clogRedoBufferSize / clogBlockSize

/-- The blocks of the file from one on, at most `n`. -/
def readAt (file : CLogFile) (offset : ℕ) : ℕ → List CLogBlock
  | 0 => []
  | n + 1 =>
    match file offset with
    | none => []
    | some block => block :: readAt file (offset + 1) n

/-- The loop over the batches. A batch that is shorter than `redo_buffer` leaves the blocks behind
it as they were, and all blocks of `redo_buffer` are gone through.
Source: `clog.cpp`, `CLogFile::recover` -/
def recoverLoop (file : CLogFile) : ℕ → ℕ → (ℕ → CLogBlock) → Recovery → Option Recovery
  | 0, _, _, _ => none
  | fuel + 1, offset, redoBuffer, s =>
    let batch := file.readAt offset redoBlocks
    if batch = [] then s.done
    else do
      let redoBuffer := fun i => batch[i]?.getD (redoBuffer i)
      let (s, last) ← s.recoverBlocks ((List.range redoBlocks).map redoBuffer)
      if last then s.done
      else file.recoverLoop fuel (offset + batch.length) redoBuffer s

/-- Read the file from its second block on. `stack` is what `redo_buffer` holds at the begin.
Source: `clog.cpp`, `CLogFile::recover` -/
def recover (file : CLogFile) (fuel : ℕ) (stack : ℕ → CLogBlock) : Option Recovery :=
  file.recoverLoop fuel 1 stack .init

end CLogFile

/-- A new process that opens the log: the buffer is the one that recovery has filled.
Source: `clog.cpp`, `CLogManager::CLogManager`, `CLogManager::recover` -/
def CLogManager.restart (m : CLogManager) (fuel : ℕ) (stack : ℕ → CLogBlock) :
    Option (CLogManager × Recovery) := do
  let s ← m.logFile.recover fuel stack
  return (⟨s.logBuffer, m.logFile⟩, s)

end Miniob.Storage.Clog
