import Miniob.Storage.Clog.LogRestart
import Mathlib.Data.List.Infix

/-!
# What recovery reads

The blocks of a log say where the records are, and recovery reads the records off the blocks. A
record that goes over blocks waits in the buffer until the next record is found. A record that
starts at the begin of a block and is longer than it, or too close to the end of a block for its
header, is put behind the one that waits, and is lost.

* `frameAt`, `Framed`: what the blocks of a log look like.
* `replay`: the records that are found and those that wait, record by record.
* `recoverBlocks_replay`: recovery finds what `replay` says.
-/

namespace Miniob.Storage.Clog

/-! ## The blocks of some records -/

/-- The bytes of some records. -/
def encodings (rs : List CLogRecord) : List UInt8 := rs.flatMap CLogRecord.encoding

@[simp] theorem encodings_nil : encodings [] = [] := rfl

@[simp] theorem encodings_cons (r : CLogRecord) (rs : List CLogRecord) :
    encodings (r :: rs) = r.encoding ++ encodings rs := rfl

@[simp] theorem encodings_append (rs rs' : List CLogRecord) :
    encodings (rs ++ rs') = encodings rs ++ encodings rs' := List.flatMap_append

theorem encoding_ne_nil (r : CLogRecord) : r.encoding ≠ [] := by
  rw [← List.length_pos_iff, r.encoding_length]
  exact r.getLogrecLen_pos

theorem encodings_eq_nil {rs : List CLogRecord} : encodings rs = [] ↔ rs = [] := by
  cases rs with
  | nil => simp
  | cons r rs => simp [encoding_ne_nil r]

/-- `first_rec_offset_` of a block that starts at a position of the records. -/
def frameAt : List CLogRecord → ℕ → ℕ
  | [], _ => clogBlockHdrSize
  | r :: rs, pos => if pos < r.getLogrecLen then r.frame pos else frameAt rs (pos - r.getLogrecLen)

/-- A block that is not the last one is full. -/
def Packed (blocks : List CLogBlock) : Prop :=
  (∀ block ∈ blocks, block.logDataLen ≠ 0 ∧ block.logDataLen ≤ clogBlockDataSize) ∧
    ∀ block ∈ blocks.dropLast, block.logDataLen = clogBlockDataSize

/-- The blocks, of which the first is read from an offset on where a record starts, hold these
records. -/
structure ReadAt (block : CLogBlock) (offset : ℕ) (blocks : List CLogBlock)
    (rs : List CLogRecord) : Prop where
  packed : Packed (block :: blocks)
  ge : clogBlockHdrSize ≤ offset
  le : offset ≤ clogBlockHdrSize + block.logDataLen
  bytes : block.logData.drop (offset - clogBlockHdrSize) ++ logBytes blocks = encodings rs
  first : offset = clogBlockHdrSize → block.firstRecOffset = frameAt rs 0
  frame : ∀ i next, blocks[i]? = some next → next.firstRecOffset =
    frameAt rs (clogBlockHdrSize + block.logDataLen - offset + clogBlockDataSize * i)

/-! ## Record by record -/

namespace CLogRecord

/-- The record goes on in the next block. -/
def Crosses (r : CLogRecord) (pos : ℕ) : Prop :=
  clogBlockDataSize - pos % clogBlockDataSize < r.getLogrecLen

/-- The reader does not see that a record starts: it crosses the end of its block, and either the
block starts with it or its header is not in the block. -/
def Blind (r : CLogRecord) (pos : ℕ) : Prop :=
  r.Crosses pos ∧ (pos % clogBlockDataSize = 0 ∨ clogBlockDataSize - pos % clogBlockDataSize < 16)

instance (r : CLogRecord) (pos : ℕ) : Decidable (r.Crosses pos) := Nat.decLt _ _

instance (r : CLogRecord) (pos : ℕ) : Decidable (r.Blind pos) := inferInstanceAs (Decidable (_ ∧ _))

end CLogRecord

/-- The records that are found, and those that are in the buffer at the end, of which only the
first will be found. -/
def replay (pos : ℕ) (waiting : List CLogRecord) :
    List CLogRecord → List CLogRecord × List CLogRecord
  | [] => ([], waiting)
  | r :: rs =>
    if r.Blind pos then replay (pos + r.getLogrecLen) (waiting ++ [r]) rs
    else if r.Crosses pos then
      let (found, waiting') := replay (pos + r.getLogrecLen) [r] rs
      (waiting.head?.toList ++ found, waiting')
    else
      let (found, waiting') := replay (pos + r.getLogrecLen) [] rs
      (waiting.head?.toList ++ r :: found, waiting')

/-! ## One record in a block -/

namespace CLogRecord

/-- The fields of the record are integers of 32 bits. -/
structure InRange (r : CLogRecord) : Prop where
  lsn : IsInt32 r.hdr.lsn
  trxId : IsInt32 r.hdr.trxId
  logrecLen : IsInt32 (r.getLogrecLen : ℕ)
  rid : match r with
    | mtr .. => True
    | ins _ _ _ rid _ _ _ => IsInt32 rid.pageNum ∧ IsInt32 rid.slotNum
    | del _ _ _ rid => IsInt32 rid.pageNum ∧ IsInt32 rid.slotNum

theorem hdr_logrecLen (r : CLogRecord) : r.hdr.logrecLen = r.getLogrecLen := by cases r <;> rfl

/-- A record starts with its header. -/
theorem encoding_eq_hdr (r : CLogRecord) : ∃ body, r.encoding = r.hdr.bytes ++ body :=
  ⟨r.encoding.drop 16, by cases r <;> rfl⟩

/-- The length in the header is read. -/
theorem readInt_logrecLen {r : CLogRecord} (h : r.InRange) {bytes : List UInt8} {k : ℕ}
    (hk : 16 ≤ k) (hbytes : r.encoding.take k <+: bytes) :
    readInt (bytes.drop 12) = some ((r.getLogrecLen : ℕ) : Int) := by
  obtain ⟨body, hbody⟩ := r.encoding_eq_hdr
  obtain ⟨rest, rfl⟩ := hbytes
  have htake : r.encoding.take k = r.hdr.bytes ++ body.take (k - 16) := by
    rw [hbody, List.take_append, r.hdr.bytes_length,
      List.take_of_length_le (r.hdr.bytes_length.trans_le hk)]
  have hdrop : (r.encoding.take k ++ rest).drop 12 =
      intBytes r.hdr.logrecLen ++ (body.take (k - 16) ++ rest) := by
    rw [htake, List.append_assoc]
    rfl
  rw [hdrop, r.hdr_logrecLen, readInt_intBytes h.logrecLen]

/-- What comes back has the number and the length of the record. -/
theorem nextLsn_of_decode {r : CLogRecord} (h : r.InRange) {rest : List UInt8} {d : DecodedRecord}
    (hd : DecodedRecord.decode (r.encoding ++ rest) = some d) :
    d.nextLsn = some (r.hdr.lsn + r.getLogrecLen) := by
  cases r with
  | mtr commit lsn trxId =>
    have hlsn : IsInt32 lsn := h.lsn
    have htrx : IsInt32 trxId := h.trxId
    rw [DecodedRecord.decode_mtr hlsn htrx] at hd
    cases hd
    rfl
  | ins lsn trxId tableName rid data padding hlen =>
    have hlsn : IsInt32 lsn := h.lsn
    have htrx : IsInt32 trxId := h.trxId
    rw [DecodedRecord.decode_ins hlsn htrx hlen h.rid.1 h.rid.2 h.logrecLen,
      Option.map_eq_some_iff] at hd
    obtain ⟨name, -, rfl⟩ := hd
    rfl
  | del lsn trxId tableName rid =>
    have hlsn : IsInt32 lsn := h.lsn
    have htrx : IsInt32 trxId := h.trxId
    rw [DecodedRecord.decode_del hlsn htrx h.rid.1 h.rid.2, Option.map_eq_some_iff] at hd
    obtain ⟨name, -, rfl⟩ := hd
    rfl

end CLogRecord

namespace Recovery

/-- Bytes of a record that goes on in the next block. -/
def keep (s : Recovery) (bytes : List UInt8) : Option Recovery :=
  (s.logrecBuf.append bytes).map fun buf => { s with logrecBuf := buf }

/-- The record in the buffer is found. -/
def release (s : Recovery) : Option Recovery :=
  s.logrecBuf.decode.bind fun logRec =>
    ({ s with logrecBuf := .empty } : Recovery).deliver (some logRec)

variable {block : CLogBlock} {offset : ℕ} {s : Recovery} {r : CLogRecord}

/-- The block starts inside a record. -/
theorem recoverRecords_middle (fuel : ℕ) (hne : block.logDataLen ≠ 0)
    (hfirst : block.firstRecOffset ≠ clogBlockHdrSize)
    (hge : clogBlockHdrSize ≤ block.firstRecOffset) (hle : block.firstRecOffset ≤ clogBlockSize) :
    recoverRecords block (fuel + 1) clogBlockHdrSize s =
      (s.keep (block.data.take (block.firstRecOffset - clogBlockHdrSize))).bind
        (recoverRecords block fuel block.firstRecOffset) := by
  have hmem : block.memory clogBlockHdrSize = block.data := by
    rw [CLogBlock.memory, Nat.sub_self, List.drop_zero]
  rw [recoverRecords, if_pos (by omega), CLogFile.blockRecover, if_pos ⟨rfl, hfirst⟩,
    if_pos ⟨hge, hle⟩, hmem, keep]
  simp only [Option.bind_eq_bind]
  cases s.logrecBuf.append (block.data.take (block.firstRecOffset - clogBlockHdrSize)) with
  | none => rfl
  | some buf =>
    simp only [Option.bind_some, Option.pure_def, deliver, Option.map_some,
      Nat.add_sub_cancel' hge]

section

variable (hlt : offset < clogBlockHdrSize + block.logDataLen)
  (hfirst : offset = clogBlockHdrSize → block.firstRecOffset = clogBlockHdrSize)

include hlt hfirst

/-- The header of the record is not in the block. -/
theorem recoverRecords_tail (fuel : ℕ) (hend : clogBlockSize - offset < 16) :
    recoverRecords block (fuel + 1) offset s =
      (s.keep (block.memory offset)).bind (recoverRecords block fuel clogBlockSize) := by
  rw [recoverRecords, if_pos hlt, CLogFile.blockRecover, if_neg fun h => h.2 (hfirst h.1),
    if_pos hend, keep]
  cases s.logrecBuf.append (block.memory offset) with
  | none => rfl
  | some buf => rfl

/-- The record that waits comes first. -/
theorem recoverRecords_waiting (fuel : ℕ) (hend : 16 ≤ clogBlockSize - offset)
    (hbuf : s.logrecBuf ≠ .empty) :
    recoverRecords block (fuel + 1) offset s =
      s.release.bind (recoverRecords block fuel offset) := by
  rw [recoverRecords, if_pos hlt, CLogFile.blockRecover, if_neg fun h => h.2 (hfirst h.1),
    if_neg hend.not_gt, if_pos hbuf, release]
  cases s.logrecBuf.decode with
  | none => rfl
  | some logRec => rfl

/-- The record ends in the block. -/
theorem recoverRecords_record (fuel : ℕ) (hend : 16 ≤ clogBlockSize - offset)
    (hbuf : s.logrecBuf = .empty) (hr : r.InRange) (hbytes : r.encoding <+: block.memory offset)
    (hlen : r.getLogrecLen ≤ clogBlockSize - offset) (hoff : offset ≤ clogBlockSize) :
    recoverRecords block (fuel + 1) offset s =
      ((DecodedRecord.decode (block.memory offset)).bind fun logRec =>
        s.deliver (some logRec)).bind (recoverRecords block fuel (offset + r.getLogrecLen)) := by
  have hread := CLogRecord.readInt_logrecLen hr hend
    ((List.take_prefix _ _).trans hbytes)
  have hle : ((r.getLogrecLen : ℕ) : Int) ≤ (clogBlockSize : ℕ) - (offset : ℕ) := by omega
  rw [recoverRecords, if_pos hlt, CLogFile.blockRecover, if_neg fun h => h.2 (hfirst h.1),
    if_neg hend.not_gt, if_neg (not_not.mpr hbuf), hread]
  simp only [Option.bind_eq_bind, Option.bind_some, if_pos hle, if_pos (Int.natCast_nonneg _),
    Int.toNat_natCast]
  cases DecodedRecord.decode (block.memory offset) with
  | none => rfl
  | some logRec => rfl

/-- The record goes on in the next block. -/
theorem recoverRecords_head (fuel : ℕ) (hend : 16 ≤ clogBlockSize - offset)
    (hbuf : s.logrecBuf = .empty) (hr : r.InRange)
    (hbytes : r.encoding.take (clogBlockSize - offset) <+: block.memory offset)
    (hlen : clogBlockSize - offset < r.getLogrecLen) :
    recoverRecords block (fuel + 1) offset s =
      (s.keep (block.memory offset)).bind (recoverRecords block fuel clogBlockSize) := by
  have hread := CLogRecord.readInt_logrecLen hr hend hbytes
  have hle : ¬ ((r.getLogrecLen : ℕ) : Int) ≤ (clogBlockSize : ℕ) - (offset : ℕ) := by omega
  rw [recoverRecords, if_pos hlt, CLogFile.blockRecover, if_neg fun h => h.2 (hfirst h.1),
    if_neg hend.not_gt, if_neg (not_not.mpr hbuf), hread, keep]
  simp only [Option.bind_eq_bind, Option.bind_some, if_neg hle]
  cases s.logrecBuf.append (block.memory offset) with
  | none => rfl
  | some buf => rfl

end

end Recovery

/-! ## One record over several blocks -/

namespace Recovery

/-- The rest of a block, from an offset on, and the blocks behind it. -/
def readFrom (s : Recovery) (block : CLogBlock) (fuel offset : ℕ) (blocks : List CLogBlock) :
    Option Recovery :=
  (recoverRecords block fuel offset s).bind fun s =>
    if block.logDataLen < clogBlockDataSize then
      some { s with
        logBuffer := { s.logBuffer.setBlock 0 block with
          writeBlockOffset := 0
          writeOffset := block.logDataLen + clogBlockHdrSize } }
    else (s.recoverBlocks blocks).map Prod.fst

/-- The same number, records and buffer of a record. -/
structure Same (s s' : Recovery) : Prop where
  gloablLsn : s'.gloablLsn = s.gloablLsn
  records : s'.records = s.records
  logrecBuf : s'.logrecBuf = s.logrecBuf

theorem recoverBlocks_cons (s : Recovery) (block : CLogBlock) (blocks : List CLogBlock) :
    (s.recoverBlocks (block :: blocks)).map Prod.fst =
      ({ s with logBuffer := { s.logBuffer with currentBlockNo := block.logBlockNo } } :
        Recovery).readFrom block blockFuel clogBlockHdrSize blocks := by
  rw [recoverBlocks, recoverBlock, readFrom]
  cases recoverRecords block blockFuel clogBlockHdrSize
      { s with logBuffer := { s.logBuffer with currentBlockNo := block.logBlockNo } } with
  | none => rfl
  | some s₁ =>
    simp only [Option.bind_eq_bind, Option.bind_some]
    split <;> rfl

/-- At the end of a block the next one is read. -/
theorem readFrom_end {s s' : Recovery} {block : CLogBlock} {fuel : ℕ} {blocks : List CLogBlock}
    (hpacked : Packed (block :: blocks))
    (h : s.readFrom block fuel (clogBlockHdrSize + block.logDataLen) blocks = some s') :
    blocks = [] ∧ s.Same s' ∨
      ∃ next rest s₁, blocks = next :: rest ∧ s.Same s₁ ∧
        s₁.readFrom next blockFuel clogBlockHdrSize rest = some s' := by
  rw [readFrom, Option.bind_eq_some_iff] at h
  obtain ⟨s₀, hrecords, h⟩ := h
  obtain rfl : s = s₀ := by
    cases fuel with
    | zero => cases hrecords
    | succ fuel =>
      rw [recoverRecords, if_neg (lt_irrefl _)] at hrecords
      exact Option.some.inj hrecords
  cases blocks with
  | nil =>
    refine Or.inl ⟨rfl, ?_⟩
    split at h
    · cases h
      exact ⟨rfl, rfl, rfl⟩
    · cases h
      exact ⟨rfl, rfl, rfl⟩
  | cons next rest =>
    have hfull : block.logDataLen = clogBlockDataSize := hpacked.2 block (by simp)
    rw [if_neg hfull.not_lt, recoverBlocks_cons] at h
    exact Or.inr ⟨next, rest,
      { s with logBuffer := { s.logBuffer with currentBlockNo := next.logBlockNo } }, rfl,
      ⟨rfl, rfl, rfl⟩, h⟩

theorem keep_eq_some {s s' : Recovery} {bytes : List UInt8} (h : s.keep bytes = some s') :
    s'.logrecBuf.bytes = s.logrecBuf.bytes ++ bytes ∧ s'.records = s.records ∧
      s'.gloablLsn = s.gloablLsn := by
  rw [keep, Option.map_eq_some_iff] at h
  obtain ⟨buf, hbuf, rfl⟩ := h
  rw [CLogRecordBuf.append] at hbuf
  split at hbuf
  · cases hbuf
    exact ⟨rfl, rfl, rfl⟩
  · cases hbuf

end Recovery

theorem Packed.tail {block : CLogBlock} {blocks : List CLogBlock} (h : Packed (block :: blocks)) :
    Packed blocks := by
  refine ⟨fun b hb => h.1 b (List.mem_cons_of_mem _ hb), fun b hb => h.2 b ?_⟩
  cases blocks with
  | nil => cases hb
  | cons next rest =>
    rw [List.dropLast_cons_of_ne_nil (List.cons_ne_nil _ _)]
    exact List.mem_cons_of_mem _ hb

theorem Packed.full {block next : CLogBlock} {rest : List CLogBlock}
    (h : Packed (block :: next :: rest)) : block.logDataLen = clogBlockDataSize :=
  h.2 block (by simp)

/-- All bytes of a block that is not the last one are bytes of the log. -/
theorem CLogBlock.logData_of_full {block : CLogBlock} (h : block.logDataLen = clogBlockDataSize) :
    block.logData = block.data := by
  rw [logData, h, ← block.data_length, List.take_length]

/-- The blocks, the first of which is read from its begin on, hold the end of a record and some
records. -/
structure ReadMid (block : CLogBlock) (blocks : List CLogBlock) (r : CLogRecord) (k : ℕ)
    (rs : List CLogRecord) : Prop where
  packed : Packed (block :: blocks)
  pos : 0 < k
  lt : k < r.getLogrecLen
  bytes : block.logData ++ logBytes blocks = r.encoding.drop k ++ encodings rs
  frame : ∀ i next, (block :: blocks)[i]? = some next →
    next.firstRecOffset = frameAt (r :: rs) (k + clogBlockDataSize * i)

theorem ReadMid.firstRecOffset {block : CLogBlock} {blocks : List CLogBlock} {r : CLogRecord}
    {k : ℕ} {rs : List CLogRecord} (h : ReadMid block blocks r k rs) :
    block.firstRecOffset = r.frame k := by
  have hframe := h.frame 0 block rfl
  rwa [Nat.mul_zero, Nat.add_zero, frameAt, if_pos h.lt] at hframe

namespace Recovery

/-- The reader has come to the end of a record, of which the buffer has got the last bytes. -/
structure Resumed (s s₁ : Recovery) (r : CLogRecord) (k : ℕ) (block : CLogBlock) (offset : ℕ)
    (blocks : List CLogBlock) (rs : List CLogRecord) : Prop where
  readAt : ReadAt block offset blocks rs
  logrecBuf : s₁.logrecBuf.bytes = s.logrecBuf.bytes ++ r.encoding.drop k
  records : s₁.records = s.records
  gloablLsn : s₁.gloablLsn = s.gloablLsn
  pos : (offset - clogBlockHdrSize) % clogBlockDataSize =
    (r.getLogrecLen - k) % clogBlockDataSize

section

variable {r : CLogRecord} {rs : List CLogRecord} {block : CLogBlock} {blocks : List CLogBlock}
  {k : ℕ} (h : ReadMid block blocks r k rs)

include h

/-- A record that ends in the block. -/
theorem readFrom_middle_end {fuel : ℕ} {s s' : Recovery}
    (hshort : r.getLogrecLen - k ≤ clogBlockDataSize)
    (hrun : s.readFrom block fuel clogBlockHdrSize blocks = some s') :
    ∃ fuel' offset s₁, Resumed s s₁ r k block offset blocks rs ∧
      s₁.readFrom block fuel' offset blocks = some s' := by
  have hpos := h.pos
  have hlt := h.lt
  obtain ⟨hne, hle⟩ := h.packed.1 block List.mem_cons_self
  have hfirst : block.firstRecOffset = clogBlockHdrSize + (r.getLogrecLen - k) := by
    rw [h.firstRecOffset, CLogRecord.frame, if_pos hshort, if_neg hpos.ne']
  -- the rest of the record is in the block
  have hdrop : (r.encoding.drop k).length = r.getLogrecLen - k := by
    rw [List.length_drop, r.encoding_length]
  have hfit : r.getLogrecLen - k ≤ block.logDataLen := by
    cases blocks with
    | nil =>
      have := congrArg List.length h.bytes
      rw [List.length_append, List.length_append, CLogBlock.logData_length hle, hdrop] at this
      simp only [logBytes_nil, List.length_nil] at this
      omega
    | cons next rest =>
      rw [h.packed.full]
      exact hshort
  have hlogData : block.logData.take (r.getLogrecLen - k) = r.encoding.drop k := by
    have := congrArg (List.take (r.getLogrecLen - k)) h.bytes
    rwa [List.take_append_of_le_length ((CLogBlock.logData_length hle).symm ▸ hfit),
      ← hdrop, List.take_left, hdrop] at this
  have hdata : block.data.take (r.getLogrecLen - k) = r.encoding.drop k := by
    rw [← hlogData, CLogBlock.logData, List.take_take, Nat.min_eq_left hfit]
  cases fuel with
  | zero => cases hrun
  | succ fuel =>
    rw [readFrom, recoverRecords_middle fuel hne (by rw [hfirst]; omega) (by rw [hfirst]; omega)
      (by rw [hfirst]; simp only [clogBlockHdrSize, clogBlockSize, clogBlockDataSize] at *; omega),
      hfirst, Nat.add_sub_cancel_left, hdata, Option.bind_assoc, Option.bind_eq_some_iff] at hrun
    obtain ⟨s₁, hkeep, hrun⟩ := hrun
    obtain ⟨hbuf, hrecords, hlsn⟩ := keep_eq_some hkeep
    refine ⟨fuel, _, s₁, ⟨⟨h.packed, ?_, ?_, ?_, ?_, ?_⟩, hbuf, hrecords, hlsn, ?_⟩, hrun⟩
    · exact Nat.le_add_right _ _
    · exact Nat.add_le_add_left hfit _
    · rw [Nat.add_sub_cancel_left]
      have := congrArg (List.drop (r.getLogrecLen - k)) h.bytes
      rwa [List.drop_append_of_le_length ((CLogBlock.logData_length hle).symm ▸ hfit),
        ← hdrop, List.drop_left, hdrop] at this
    · intro hoff
      omega
    · intro i next hnext
      have hframe := h.frame (i + 1) next hnext
      have hfull : block.logDataLen = clogBlockDataSize := by
        cases blocks with
        | nil => cases hnext
        | cons next rest => exact h.packed.full
      rw [hframe, frameAt, if_neg (by rw [Nat.mul_succ]; omega), hfull, Nat.mul_succ]
      congr 1
      omega
    · rw [Nat.add_sub_cancel_left]

end

/-- The end of a record is put into the buffer, block by block. -/
theorem readFrom_middle {r : CLogRecord} {rs : List CLogRecord} {blocks : List CLogBlock} :
    ∀ {block : CLogBlock} {k fuel : ℕ} {s s' : Recovery}, ReadMid block blocks r k rs →
      s.readFrom block fuel clogBlockHdrSize blocks = some s' →
      ∃ block' blocks' fuel' offset s₁, Resumed s s₁ r k block' offset blocks' rs ∧
        s₁.readFrom block' fuel' offset blocks' = some s' := by
  induction blocks with
  | nil =>
    intro block k fuel s s' h hrun
    have hle := (h.packed.1 block List.mem_cons_self).2
    have hshort : r.getLogrecLen - k ≤ clogBlockDataSize := by
      have := congrArg List.length h.bytes
      rw [List.length_append, List.length_append, CLogBlock.logData_length hle, List.length_drop,
        r.encoding_length] at this
      simp only [logBytes_nil, List.length_nil] at this
      omega
    obtain ⟨fuel', offset, s₁, hres, hrun'⟩ := readFrom_middle_end h hshort hrun
    exact ⟨block, [], fuel', offset, s₁, hres, hrun'⟩
  | cons next rest ih =>
    intro block k fuel s s' h hrun
    by_cases hshort : r.getLogrecLen - k ≤ clogBlockDataSize
    · obtain ⟨fuel', offset, s₁, hres, hrun'⟩ := readFrom_middle_end h hshort hrun
      exact ⟨block, next :: rest, fuel', offset, s₁, hres, hrun'⟩
    -- the whole block belongs to the record
    have hfull := h.packed.full
    have hne := (h.packed.1 block List.mem_cons_self).1
    have hfirst : block.firstRecOffset = clogBlockSize := by
      rw [h.firstRecOffset, CLogRecord.frame, if_neg hshort]
    have hlogData := CLogBlock.logData_of_full hfull
    have hlen : block.logData.length = clogBlockDataSize := by
      rw [CLogBlock.logData_length hfull.le, hfull]
    have hdrop : (r.encoding.drop k).length = r.getLogrecLen - k := by
      rw [List.length_drop, r.encoding_length]
    have hpart : block.logData = (r.encoding.drop k).take clogBlockDataSize := by
      have := congrArg (List.take clogBlockDataSize) h.bytes
      rwa [← hlen, List.take_left, hlen, List.take_append_of_le_length (by omega)] at this
    have hrest : logBytes (next :: rest) =
        r.encoding.drop (k + clogBlockDataSize) ++ encodings rs := by
      have := congrArg (List.drop clogBlockDataSize) h.bytes
      rwa [← hlen, List.drop_left, hlen, List.drop_append_of_le_length (by omega),
        List.drop_drop] at this
    cases fuel with
    | zero => cases hrun
    | succ fuel =>
      rw [readFrom, recoverRecords_middle fuel hne (by rw [hfirst]; decide)
        (by rw [hfirst]; decide) hfirst.le, hfirst, Option.bind_assoc,
        Option.bind_eq_some_iff] at hrun
      obtain ⟨s₁, hkeep, hrun⟩ := hrun
      obtain ⟨hbuf, hrecords, hlsn⟩ := keep_eq_some hkeep
      have hend : clogBlockSize = clogBlockHdrSize + block.logDataLen := by
        rw [hfull]
        rfl
      rw [hend] at hrun
      rcases readFrom_end h.packed hrun with ⟨hnil, -⟩ | ⟨next', rest', s₂, heq, hsame, hrun₂⟩
      · cases hnil
      · obtain ⟨rfl, rfl⟩ := List.cons.inj heq
        have hmid : ReadMid next rest r (k + clogBlockDataSize) rs := by
          refine ⟨h.packed.tail, ?_, ?_, hrest, ?_⟩
          · exact Nat.lt_of_lt_of_le h.pos (Nat.le_add_right _ _)
          · omega
          · intro i b hb
            have hpos : k + clogBlockDataSize * (i + 1) =
                k + clogBlockDataSize + clogBlockDataSize * i := by
              rw [Nat.mul_succ]
              omega
            rw [h.frame (i + 1) b hb, hpos]
        obtain ⟨block', blocks', fuel', offset, s₃, hres, hrun₃⟩ := ih hmid hrun₂
        refine ⟨block', blocks', fuel', offset, s₃, ⟨hres.readAt, ?_, ?_, ?_, ?_⟩, hrun₃⟩
        · have hjoin : block.data.take (clogBlockSize - clogBlockHdrSize) ++
              r.encoding.drop (k + clogBlockDataSize) = r.encoding.drop k := by
            have hall : block.data.take (clogBlockSize - clogBlockHdrSize) = block.logData :=
              List.take_of_length_le (by rw [block.data_length]; decide) |>.trans hlogData.symm
            rw [hall, hpart, ← List.drop_drop, List.take_append_drop]
          rw [hres.logrecBuf, hsame.logrecBuf, hbuf, List.append_assoc, hjoin]
        · rw [hres.records, hsame.records, hrecords]
        · rw [hres.gloablLsn, hsame.gloablLsn, hlsn]
        · have hsub : r.getLogrecLen - k =
              r.getLogrecLen - (k + clogBlockDataSize) + clogBlockDataSize := by omega
          rw [hsub]
          exact hres.pos.trans (Nat.add_mod_right _ _).symm

end Recovery

/-! ## All records -/

theorem CLogRecord.le_getLogrecLen (r : CLogRecord) : 16 ≤ r.getLogrecLen := by
  cases r with
  | mtr => exact le_rfl
  | ins lsn trxId tableName rid data padding h =>
    have := le_align8 (clogInsRecNodataSize + data.length)
    simp only [CLogRecord.getLogrecLen, clogInsRecNodataSize] at this ⊢
    omega
  | del => simp [CLogRecord.getLogrecLen]

/-- The record that is read when these bytes are followed by others. -/
def CLogRecord.DecodesTo (r : CLogRecord) (d : DecodedRecord) : Prop :=
  ∃ rest, DecodedRecord.decode (r.encoding ++ rest) = some d

/-- The number behind the last record that has been found. -/
def endLsn (lsn : Int) (found : List CLogRecord) : Int :=
  found.foldl (fun _ r => r.hdr.lsn + r.getLogrecLen) lsn

namespace Recovery

/-- These records have been found, and these are in the buffer. -/
structure Replayed (s s' : Recovery) (found waiting : List CLogRecord) : Prop where
  records : ∃ ds, s'.records = s.records ++ ds ∧ List.Forall₂ CLogRecord.DecodesTo found ds
  logrecBuf : s'.logrecBuf.bytes = encodings waiting
  gloablLsn : s'.gloablLsn = endLsn s.gloablLsn found

theorem Replayed.nil {s s' : Recovery} {waiting : List CLogRecord} (hrecords : s'.records = s.records)
    (hlsn : s'.gloablLsn = s.gloablLsn) (hbuf : s'.logrecBuf.bytes = encodings waiting) :
    Replayed s s' [] waiting :=
  ⟨⟨[], by rw [hrecords, List.append_nil], .nil⟩, hbuf, hlsn⟩

theorem Replayed.trans {s s₁ s' : Recovery} {found₁ found₂ waiting₁ waiting₂ : List CLogRecord}
    (h₁ : Replayed s s₁ found₁ waiting₁) (h₂ : Replayed s₁ s' found₂ waiting₂) :
    Replayed s s' (found₁ ++ found₂) waiting₂ := by
  obtain ⟨ds₁, hrecords₁, hds₁⟩ := h₁.records
  obtain ⟨ds₂, hrecords₂, hds₂⟩ := h₂.records
  refine ⟨⟨ds₁ ++ ds₂, ?_, List.rel_append hds₁ hds₂⟩, h₂.logrecBuf, ?_⟩
  · rw [hrecords₂, hrecords₁, List.append_assoc]
  · rw [h₂.gloablLsn, h₁.gloablLsn, endLsn, endLsn, endLsn, List.foldl_append]

/-- Only the number, the records and the buffer count. -/
theorem Replayed.of_eq {s s₁ s' : Recovery} {found waiting : List CLogRecord}
    (h : Replayed s₁ s' found waiting) (hrecords : s₁.records = s.records)
    (hlsn : s₁.gloablLsn = s.gloablLsn) : Replayed s s' found waiting := by
  obtain ⟨ds, hds, hall⟩ := h.records
  exact ⟨⟨ds, by rw [hds, hrecords], hall⟩, h.logrecBuf, by rw [h.gloablLsn, hlsn]⟩

/-- A record is handed over. -/
theorem replayed_of_deliver {s s' : Recovery} {r : CLogRecord} (hr : r.InRange)
    {bytes : List UInt8} (hbytes : r.encoding <+: bytes) (hbuf : s.logrecBuf = .empty)
    (h : ((DecodedRecord.decode bytes).bind fun logRec => s.deliver (some logRec)) = some s') :
    Replayed s s' [r] [] ∧ s'.logrecBuf = .empty := by
  obtain ⟨rest, rfl⟩ := hbytes
  rw [Option.bind_eq_some_iff] at h
  obtain ⟨d, hd, h⟩ := h
  have hnext := CLogRecord.nextLsn_of_decode hr hd
  simp only [deliver, hnext, Option.bind_eq_bind, Option.bind_some, Option.pure_def,
    Option.some.injEq] at h
  subst h
  exact ⟨⟨⟨[d], rfl, .cons ⟨rest, hd⟩ .nil⟩, by rw [hbuf]; rfl, rfl⟩, hbuf⟩

/-- The first of the waiting records is found. -/
theorem replayed_of_release {s s' : Recovery} {w : CLogRecord} {waiting : List CLogRecord}
    (hw : w.InRange) (hbuf : s.logrecBuf.bytes = encodings (w :: waiting))
    (h : s.release = some s') : Replayed s s' [w] [] ∧ s'.logrecBuf = .empty := by
  have hbytes : w.encoding <+: s.logrecBuf.bytes ++
      List.replicate (clogRedoBufferSize - s.logrecBuf.bytes.length) 0 := by
    rw [hbuf, encodings_cons, List.append_assoc]
    exact List.prefix_append _ _
  have hdecode := replayed_of_deliver (s := { s with logrecBuf := .empty }) hw hbytes rfl h
  exact ⟨hdecode.1.of_eq rfl rfl, hdecode.2⟩

end Recovery

/-- The bytes of the log in the rest of the block. -/
theorem ReadAt.logData_length {block : CLogBlock} {offset : ℕ} {blocks : List CLogBlock}
    {rs : List CLogRecord} (h : ReadAt block offset blocks rs) :
    (block.logData.drop (offset - clogBlockHdrSize)).length =
      clogBlockHdrSize + block.logDataLen - offset := by
  have hle := (h.packed.1 block List.mem_cons_self).2
  have hge := h.ge
  rw [List.length_drop, CLogBlock.logData_length hle]
  omega

theorem CLogBlock.logData_prefix (block : CLogBlock) (offset : ℕ) :
    block.logData.drop (offset - clogBlockHdrSize) <+: block.memory offset :=
  List.IsPrefix.drop (List.take_prefix _ _) _

section

variable {block : CLogBlock} {offset : ℕ} {blocks : List CLogBlock} {r : CLogRecord}
  {rs : List CLogRecord} (h : ReadAt block offset blocks (r :: rs))

include h

/-- A record that ends in the block stands there, and the next one is read behind it. -/
theorem ReadAt.skip (hlen : r.getLogrecLen ≤ clogBlockSize - offset) :
    r.encoding <+: block.memory offset ∧ ReadAt block (offset + r.getLogrecLen) blocks rs := by
  have hlength := h.logData_length
  have hge := h.ge
  have hpos := r.getLogrecLen_pos
  have henc := r.encoding_length
  have hbytes := h.bytes
  rw [encodings_cons] at hbytes
  -- the block has the bytes of the record
  have hfit : r.getLogrecLen ≤ clogBlockHdrSize + block.logDataLen - offset := by
    cases hblocks : blocks with
    | nil =>
      have := congrArg List.length hbytes
      rw [hblocks, logBytes_nil, List.append_nil, hlength, List.length_append, henc] at this
      omega
    | cons next rest =>
      have hpacked := h.packed
      rw [hblocks] at hpacked
      rw [hpacked.full]
      exact hlen
  have htake : (block.logData.drop (offset - clogBlockHdrSize)).take r.getLogrecLen =
      r.encoding := by
    have := congrArg (List.take r.getLogrecLen) hbytes
    rwa [List.take_append_of_le_length (by omega), ← henc, List.take_left, henc] at this
  have hrest : (block.logData.drop (offset - clogBlockHdrSize)).drop r.getLogrecLen ++
      logBytes blocks = encodings rs := by
    have := congrArg (List.drop r.getLogrecLen) hbytes
    rwa [List.drop_append_of_le_length (by omega), ← henc, List.drop_left, henc] at this
  refine ⟨?_, h.packed, by omega, by omega, ?_, fun hoff => by omega, ?_⟩
  · rw [← htake]
    exact (List.take_prefix _ _).trans (block.logData_prefix offset)
  · rw [← hrest, List.drop_drop]
    congr 2
    omega
  · intro i next hnext
    rw [h.frame i next hnext, frameAt, if_neg (by omega)]
    congr 1
    omega

/-- A record that goes on in the next block fills the rest of the block. -/
theorem ReadAt.cross (hlt : offset < clogBlockHdrSize + block.logDataLen)
    (hlen : clogBlockSize - offset < r.getLogrecLen) :
    block.logDataLen = clogBlockDataSize ∧
      block.memory offset = r.encoding.take (clogBlockSize - offset) ∧
      ∃ next rest, blocks = next :: rest ∧ ReadMid next rest r (clogBlockSize - offset) rs := by
  have hlength := h.logData_length
  have hge := h.ge
  have hle := (h.packed.1 block List.mem_cons_self).2
  have henc := r.encoding_length
  have hbytes := h.bytes
  rw [encodings_cons] at hbytes
  cases hblocks : blocks with
  | nil =>
    have := congrArg List.length hbytes
    rw [hblocks, logBytes_nil, List.append_nil, hlength, List.length_append, henc] at this
    simp only [clogBlockHdrSize, clogBlockDataSize, clogBlockSize] at *
    omega
  | cons next rest =>
    have hpacked := h.packed
    rw [hblocks] at hpacked hbytes
    have hfull := hpacked.full
    have hroom : clogBlockHdrSize + block.logDataLen - offset = clogBlockSize - offset := by
      rw [hfull]
      rfl
    rw [hroom] at hlength
    have hmem : block.memory offset = block.logData.drop (offset - clogBlockHdrSize) := by
      rw [CLogBlock.memory, CLogBlock.logData_of_full hfull]
    refine ⟨hfull, ?_, next, rest, rfl, ⟨hpacked.tail, ?_, hlen, ?_, ?_⟩⟩
    · have := congrArg (List.take (clogBlockSize - offset)) hbytes
      rw [← hlength, List.take_left, hlength, List.take_append_of_le_length (by omega)] at this
      rw [hmem, this]
    · omega
    · have := congrArg (List.drop (clogBlockSize - offset)) hbytes
      rw [← hlength, List.drop_left, hlength, List.drop_append_of_le_length (by omega)] at this
      exact this
    · intro i b hb
      rw [← hroom]
      exact h.frame i b (by rw [hblocks]; exact hb)

end

namespace Recovery

/-- The rest of a record has been put into the buffer, behind these bytes. -/
structure Crossed (s s₁ : Recovery) (r : CLogRecord) (pos : ℕ) (bytes : List UInt8)
    (block : CLogBlock) (offset : ℕ) (blocks : List CLogBlock) (rs : List CLogRecord) : Prop where
  readAt : ReadAt block offset blocks rs
  logrecBuf : s₁.logrecBuf.bytes = bytes ++ r.encoding
  records : s₁.records = s.records
  gloablLsn : s₁.gloablLsn = s.gloablLsn
  pos : (pos + r.getLogrecLen) % clogBlockDataSize =
    (offset - clogBlockHdrSize) % clogBlockDataSize

/-- From the last bytes of a block on, the rest of the record is put into the buffer. -/
theorem readFrom_cross {block : CLogBlock} {offset : ℕ} {blocks : List CLogBlock} {r : CLogRecord}
    {rs : List CLogRecord} (h : ReadAt block offset blocks (r :: rs))
    (hlt : offset < clogBlockHdrSize + block.logDataLen)
    (hlen : clogBlockSize - offset < r.getLogrecLen) {fuel : ℕ} {s s' : Recovery} {pos : ℕ}
    (hpos : pos % clogBlockDataSize = (offset - clogBlockHdrSize) % clogBlockDataSize)
    {bytes : List UInt8} (hbuf : s.logrecBuf.bytes = bytes ++ block.memory offset)
    (hrun : s.readFrom block fuel clogBlockSize blocks = some s') :
    ∃ block' blocks' fuel' offset' s₁, Crossed s s₁ r pos bytes block' offset' blocks' rs ∧
      s₁.readFrom block' fuel' offset' blocks' = some s' := by
  obtain ⟨hfull, hmem, next, rest, rfl, hmid⟩ := h.cross hlt hlen
  have hge := h.ge
  have hend : clogBlockSize = clogBlockHdrSize + block.logDataLen := by
    rw [hfull]
    rfl
  rw [hend] at hrun
  rcases readFrom_end h.packed hrun with ⟨hnil, -⟩ | ⟨next', rest', s₁, heq, hsame, hrun₁⟩
  · cases hnil
  obtain ⟨rfl, rfl⟩ := List.cons.inj heq
  obtain ⟨block', blocks', fuel', offset', s₂, hres, hrun₂⟩ := readFrom_middle hmid hrun₁
  refine ⟨block', blocks', fuel', offset', s₂, ⟨hres.readAt, ?_, ?_, ?_, ?_⟩, hrun₂⟩
  · rw [hres.logrecBuf, hsame.logrecBuf, hbuf, hmem, List.append_assoc, List.take_append_drop]
  · rw [hres.records, hsame.records]
  · rw [hres.gloablLsn, hsame.gloablLsn]
  · rw [hres.pos, Nat.add_mod, hpos, ← Nat.add_mod]
    have hsum : offset - clogBlockHdrSize + r.getLogrecLen =
        r.getLogrecLen - (clogBlockSize - offset) + clogBlockDataSize := by
      simp only [clogBlockHdrSize, clogBlockSize, clogBlockDataSize] at *
      omega
    rw [hsum]
    exact Nat.add_mod_right _ _

/-- Once the record that waits has been found, the next one is looked at. -/
theorem readFrom_released {block : CLogBlock} {offset : ℕ} {blocks : List CLogBlock}
    (hlt : offset < clogBlockHdrSize + block.logDataLen)
    (hfirst : offset = clogBlockHdrSize → block.firstRecOffset = clogBlockHdrSize)
    (hend : 16 ≤ clogBlockSize - offset) {fuel : ℕ} {s s' : Recovery}
    {waiting : List CLogRecord} (hwaiting : ∀ w ∈ waiting, w.InRange)
    (hbuf : s.logrecBuf.bytes = encodings waiting)
    (hrun : s.readFrom block fuel offset blocks = some s') :
    ∃ fuel' s₁, Replayed s s₁ waiting.head?.toList [] ∧ s₁.logrecBuf = .empty ∧
      s₁.readFrom block (fuel' + 1) offset blocks = some s' := by
  cases fuel with
  | zero => cases hrun
  | succ fuel =>
    cases waiting with
    | nil =>
      have hempty : s.logrecBuf = .empty := by
        rw [CLogRecordBuf.empty, ← encodings_nil, ← hbuf]
      exact ⟨fuel, s, .nil rfl rfl hbuf, hempty, hrun⟩
    | cons w waiting =>
      have hne : s.logrecBuf ≠ .empty := by
        intro hempty
        rw [hempty] at hbuf
        exact List.cons_ne_nil w waiting (encodings_eq_nil.mp hbuf.symm)
      rw [readFrom, recoverRecords_waiting hlt hfirst fuel hend hne, Option.bind_assoc,
        Option.bind_eq_some_iff] at hrun
      obtain ⟨s₁, hrelease, hrun⟩ := hrun
      obtain ⟨hreplayed, hempty⟩ :=
        replayed_of_release (hwaiting w List.mem_cons_self) hbuf hrelease
      cases fuel with
      | zero => cases hrun
      | succ fuel => exact ⟨fuel, s₁, hreplayed, hempty, hrun⟩

/-- One record is read, and the rest from where it ends. -/
theorem readFrom_record {block : CLogBlock} {offset : ℕ} {blocks : List CLogBlock} {r : CLogRecord}
    {rs : List CLogRecord} (h : ReadAt block offset blocks (r :: rs))
    (hlt : offset < clogBlockHdrSize + block.logDataLen) {fuel : ℕ} {s s' : Recovery} {pos : ℕ}
    {waiting : List CLogRecord} (hin : ∀ w ∈ waiting, w.InRange) (hr : r.InRange)
    (hbuf : s.logrecBuf.bytes = encodings waiting)
    (hpos : pos % clogBlockDataSize = (offset - clogBlockHdrSize) % clogBlockDataSize)
    (hrun : s.readFrom block fuel offset blocks = some s') :
    ∃ block' offset' blocks' fuel' s₁ found waiting',
      (∀ rs, replay pos waiting (r :: rs) =
        (found ++ (replay (pos + r.getLogrecLen) waiting' rs).1,
          (replay (pos + r.getLogrecLen) waiting' rs).2)) ∧
      Replayed s s₁ found waiting' ∧ (∀ w ∈ waiting', w ∈ waiting ∨ w = r) ∧
      ReadAt block' offset' blocks' rs ∧
      (pos + r.getLogrecLen) % clogBlockDataSize =
        (offset' - clogBlockHdrSize) % clogBlockDataSize ∧
      s₁.readFrom block' fuel' offset' blocks' = some s' := by
  have hge := h.ge
  have hle := (h.packed.1 block List.mem_cons_self).2
  have hmod : pos % clogBlockDataSize = offset - clogBlockHdrSize := by
    rw [hpos]
    refine Nat.mod_eq_of_lt ?_
    omega
  have hroom : clogBlockDataSize - pos % clogBlockDataSize = clogBlockSize - offset := by
    rw [hmod]
    simp only [clogBlockHdrSize, clogBlockSize, clogBlockDataSize] at *
    omega
  have hframe : offset = clogBlockHdrSize → block.firstRecOffset = r.frame 0 := by
    intro hoff
    rw [h.first hoff, frameAt, if_pos r.getLogrecLen_pos]
  by_cases hcross : r.Crosses pos
  · have hlen : clogBlockSize - offset < r.getLogrecLen := by rwa [← hroom]
    obtain ⟨hfull, hmem, -⟩ := h.cross hlt hlen
    by_cases hblind : r.Blind pos
    · -- the bytes go behind those that wait
      obtain ⟨fuel', s₁, hkeep, hrun₁⟩ : ∃ fuel' s₁, s.keep (block.memory offset) = some s₁ ∧
          s₁.readFrom block fuel' clogBlockSize blocks = some s' := by
        cases fuel with
        | zero => cases hrun
        | succ fuel =>
          by_cases hoff : offset = clogBlockHdrSize
          · have hfirst : block.firstRecOffset = clogBlockSize := by
              rw [hframe hoff, CLogRecord.frame, if_neg]
              rw [hoff] at hlen
              exact hlen.not_ge
            have hall : block.data.take (clogBlockSize - clogBlockHdrSize) =
                block.memory clogBlockHdrSize := by
              rw [CLogBlock.memory, Nat.sub_self, List.drop_zero, List.take_of_length_le]
              rw [block.data_length]
              decide
            subst hoff
            rw [readFrom, recoverRecords_middle fuel (by omega) (by rw [hfirst]; decide)
              (by rw [hfirst]; decide) hfirst.le, hfirst, hall, Option.bind_assoc,
              Option.bind_eq_some_iff] at hrun
            obtain ⟨s₁, hkeep, hrun⟩ := hrun
            exact ⟨fuel, s₁, hkeep, hrun⟩
          · have hend : clogBlockSize - offset < 16 := by
              rw [← hroom]
              refine hblind.2.resolve_left fun hzero => hoff ?_
              omega
            rw [readFrom, recoverRecords_tail hlt (fun hh => absurd hh hoff) fuel hend,
              Option.bind_assoc, Option.bind_eq_some_iff] at hrun
            obtain ⟨s₁, hkeep, hrun⟩ := hrun
            exact ⟨fuel, s₁, hkeep, hrun⟩
      obtain ⟨hbuf₁, hrecords₁, hlsn₁⟩ := keep_eq_some hkeep
      rw [hbuf] at hbuf₁
      obtain ⟨block', blocks', fuel'', offset', s₂, hc, hrun₂⟩ :=
        readFrom_cross h hlt hlen hpos hbuf₁ hrun₁
      refine ⟨block', offset', blocks', fuel'', s₂, [], waiting ++ [r], ?_, ?_, ?_, hc.readAt,
        hc.pos, hrun₂⟩
      · intro rs
        rw [replay, if_pos hblind]
        rfl
      · refine .nil (hc.records.trans hrecords₁) (hc.gloablLsn.trans hlsn₁) ?_
        rw [hc.logrecBuf, encodings_append, encodings_cons, encodings_nil, List.append_nil]
      · intro w hw
        rwa [List.mem_append, List.mem_singleton] at hw
    · -- the record that waits is found, and the buffer is free for this one
      have hvisible : offset ≠ clogBlockHdrSize ∧ 16 ≤ clogBlockSize - offset := by
        rw [CLogRecord.Blind, hroom] at hblind
        have := not_or.mp fun hor => hblind ⟨hcross, hor⟩
        omega
      obtain ⟨fuel', s₁, hreplayed, hempty, hrun₁⟩ := readFrom_released hlt
        (fun hh => absurd hh hvisible.1) hvisible.2 hin hbuf hrun
      rw [readFrom, recoverRecords_head hlt (fun hh => absurd hh hvisible.1) fuel' hvisible.2
        hempty hr (by rw [hmem]) hlen, Option.bind_assoc, Option.bind_eq_some_iff] at hrun₁
      obtain ⟨s₂, hkeep, hrun₂⟩ := hrun₁
      obtain ⟨hbuf₂, hrecords₂, hlsn₂⟩ := keep_eq_some hkeep
      rw [hempty] at hbuf₂
      obtain ⟨block', blocks', fuel'', offset', s₃, hc, hrun₃⟩ :=
        readFrom_cross h hlt hlen hpos hbuf₂ hrun₂
      refine ⟨block', offset', blocks', fuel'', s₃, waiting.head?.toList, [r], ?_, ?_, ?_,
        hc.readAt, hc.pos, hrun₃⟩
      · intro rs
        rw [replay, if_neg hblind, if_pos hcross]
      · rw [← List.append_nil waiting.head?.toList]
        refine hreplayed.trans (.nil (hc.records.trans hrecords₂) (hc.gloablLsn.trans hlsn₂) ?_)
        rw [hc.logrecBuf, encodings_cons, encodings_nil, List.append_nil]
        rfl
      · intro w hw
        exact Or.inr (List.mem_singleton.mp hw)
  · -- the record ends in the block
    have hlen : r.getLogrecLen ≤ clogBlockSize - offset := by
      rw [← hroom]
      exact not_lt.mp hcross
    have hblind : ¬ r.Blind pos := fun hb => hcross hb.1
    obtain ⟨hpre, hnext⟩ := h.skip hlen
    have hend : 16 ≤ clogBlockSize - offset := r.le_getLogrecLen.trans hlen
    have hfirst : offset = clogBlockHdrSize → block.firstRecOffset = clogBlockHdrSize := by
      intro hoff
      rw [hframe hoff, CLogRecord.frame, if_pos, if_pos rfl]
      rw [hoff] at hlen
      exact hlen
    obtain ⟨fuel', s₁, hreplayed, hempty, hrun₁⟩ := readFrom_released hlt hfirst hend hin hbuf hrun
    rw [readFrom, recoverRecords_record hlt hfirst fuel' hend hempty hr hpre hlen (by omega),
      Option.bind_assoc, Option.bind_eq_some_iff] at hrun₁
    obtain ⟨s₂, hdeliver, hrun₂⟩ := hrun₁
    obtain ⟨hreplayed₂, hempty₂⟩ := replayed_of_deliver hr hpre hempty hdeliver
    refine ⟨block, offset + r.getLogrecLen, blocks, fuel', s₂, waiting.head?.toList ++ [r], [], ?_,
      hreplayed.trans hreplayed₂, ?_, hnext, ?_, hrun₂⟩
    · intro rs
      rw [replay, if_neg hblind, if_neg hcross, List.append_assoc]
      rfl
    · intro w hw
      cases hw
    · rw [Nat.add_mod, hpos, ← Nat.add_mod]
      congr 1
      omega

end Recovery

/-- At the end of a block the next one is read from its begin. -/
theorem ReadAt.next {block next : CLogBlock} {rest : List CLogBlock} {rs : List CLogRecord}
    (h : ReadAt block (clogBlockHdrSize + block.logDataLen) (next :: rest) rs) :
    ReadAt next clogBlockHdrSize rest rs := by
  have hfull := h.packed.full
  have hle := (h.packed.1 block List.mem_cons_self).2
  refine ⟨h.packed.tail, le_rfl, Nat.le_add_right _ _, ?_, fun _ => ?_, ?_⟩
  · have hbytes := h.bytes
    rw [Nat.add_sub_cancel_left, List.drop_of_length_le (CLogBlock.logData_length hle).le,
      List.nil_append] at hbytes
    rw [← hbytes, Nat.sub_self, List.drop_zero]
    rfl
  · have hframe := h.frame 0 next rfl
    rwa [Nat.sub_self, Nat.mul_zero] at hframe
  · intro i b hb
    have hlen : next.logDataLen = clogBlockDataSize := by
      cases rest with
      | nil => cases hb
      | cons => exact h.packed.tail.full
    have hpos : clogBlockHdrSize + block.logDataLen - (clogBlockHdrSize + block.logDataLen) +
        clogBlockDataSize * (i + 1) =
        clogBlockHdrSize + next.logDataLen - clogBlockHdrSize + clogBlockDataSize * i := by
      rw [hlen, Nat.mul_succ]
      omega
    rw [h.frame (i + 1) b hb, hpos]

/-- A record is still to be read, in this block or in the next one. -/
theorem ReadAt.eq_nil {block : CLogBlock} {offset : ℕ} {blocks : List CLogBlock}
    {rs : List CLogRecord} (h : ReadAt block offset blocks rs)
    (hend : offset = clogBlockHdrSize + block.logDataLen) : rs = [] ↔ blocks = [] := by
  have hle := (h.packed.1 block List.mem_cons_self).2
  have hbytes := h.bytes
  rw [hend, Nat.add_sub_cancel_left, List.drop_of_length_le (CLogBlock.logData_length hle).le,
    List.nil_append] at hbytes
  rw [← encodings_eq_nil, ← hbytes]
  cases blocks with
  | nil => simp
  | cons next rest =>
    obtain ⟨hne, hle'⟩ := h.packed.1 next (by simp)
    have hlen := CLogBlock.logData_length hle'
    refine iff_of_false (fun hnil => hne ?_) (List.cons_ne_nil _ _)
    rw [logBytes, List.flatMap_cons, List.append_eq_nil_iff] at hnil
    rw [← hlen, hnil.1, List.length_nil]

namespace Recovery

/-- The records are found as `replay` says. -/
theorem readFrom_replay {rs : List CLogRecord} :
    ∀ {block : CLogBlock} {offset : ℕ} {blocks : List CLogBlock} {fuel : ℕ} {s s' : Recovery}
      {waiting : List CLogRecord} {pos : ℕ},
      (∀ w ∈ waiting, w.InRange) → (∀ r ∈ rs, r.InRange) → ReadAt block offset blocks rs →
      s.logrecBuf.bytes = encodings waiting →
      pos % clogBlockDataSize = (offset - clogBlockHdrSize) % clogBlockDataSize →
      s.readFrom block fuel offset blocks = some s' →
      Replayed s s' (replay pos waiting rs).1 (replay pos waiting rs).2 := by
  induction rs with
  | nil =>
    intro block offset blocks fuel s s' waiting pos _ _ h hbuf _ hrun
    have hend : offset = clogBlockHdrSize + block.logDataLen := by
      have hlength := h.logData_length
      have hbytes := h.bytes
      rw [encodings_nil, List.append_eq_nil_iff] at hbytes
      rw [hbytes.1, List.length_nil] at hlength
      have := h.le
      omega
    obtain rfl := (h.eq_nil hend).mp rfl
    subst hend
    rcases readFrom_end h.packed hrun with ⟨-, hsame⟩ | ⟨next, rest, s₁, heq, -⟩
    · refine .nil hsame.records hsame.gloablLsn ?_
      rw [hsame.logrecBuf, hbuf]
      rfl
    · cases heq
  | cons r rs ih =>
    -- the record that comes next starts inside the block
    have hinside : ∀ {block : CLogBlock} {offset : ℕ} {blocks : List CLogBlock} {fuel : ℕ}
        {s s' : Recovery} {waiting : List CLogRecord} {pos : ℕ},
        (∀ w ∈ waiting, w.InRange) → (∀ r' ∈ r :: rs, r'.InRange) →
        ReadAt block offset blocks (r :: rs) → s.logrecBuf.bytes = encodings waiting →
        pos % clogBlockDataSize = (offset - clogBlockHdrSize) % clogBlockDataSize →
        s.readFrom block fuel offset blocks = some s' →
        offset < clogBlockHdrSize + block.logDataLen →
        Replayed s s' (replay pos waiting (r :: rs)).1 (replay pos waiting (r :: rs)).2 := by
      intro block offset blocks fuel s s' waiting pos hwaiting hrs h hbuf hpos hrun hlt
      have hr := hrs r List.mem_cons_self
      obtain ⟨block', offset', blocks', fuel', s₁, found, waiting', hreplay, hreplayed, hmem, h',
        hpos', hrun'⟩ := readFrom_record h hlt hwaiting hr hbuf hpos hrun
      have hwaiting' : ∀ w ∈ waiting', w.InRange := fun w hw =>
        (hmem w hw).elim (hwaiting w) fun heq => heq ▸ hr
      rw [hreplay rs]
      exact hreplayed.trans (ih hwaiting' (fun r' hr' => hrs r' (List.mem_cons_of_mem _ hr')) h'
        hreplayed.logrecBuf hpos' hrun')
    intro block offset blocks fuel s s' waiting pos hwaiting hrs h hbuf hpos hrun
    rcases h.le.lt_or_eq with hlt | hend
    · exact hinside hwaiting hrs h hbuf hpos hrun hlt
    · -- at the end of the block, it is in the next one
      subst hend
      rcases readFrom_end h.packed hrun with ⟨hnil, -⟩ | ⟨next, rest, s₁, rfl, hsame, hrun₁⟩
      · cases (h.eq_nil rfl).mpr hnil
      · have hne := (h.packed.1 next (by simp)).1
        have hfull := h.packed.full
        have hpos₁ : pos % clogBlockDataSize =
            (clogBlockHdrSize - clogBlockHdrSize) % clogBlockDataSize := by
          rw [hpos, Nat.add_sub_cancel_left, hfull, Nat.mod_self, Nat.sub_self]
          rfl
        exact (hinside hwaiting hrs h.next (by rw [hsame.logrecBuf, hbuf]) hpos₁ hrun₁
          (by omega)).of_eq hsame.records hsame.gloablLsn

end Recovery

/-! ## The whole file -/

/-- The blocks hold these records. -/
structure Framed (blocks : List CLogBlock) (rs : List CLogRecord) : Prop where
  bytes : logBytes blocks = encodings rs
  frame : ∀ (i : ℕ) (block : CLogBlock), blocks[i]? = some block →
    block.firstRecOffset = frameAt rs (clogBlockDataSize * i)

theorem Framed.readAt {block : CLogBlock} {blocks : List CLogBlock} {rs : List CLogRecord}
    (h : Framed (block :: blocks) rs) (hpacked : Packed (block :: blocks)) :
    ReadAt block clogBlockHdrSize blocks rs := by
  refine ⟨hpacked, le_rfl, Nat.le_add_right _ _, ?_, fun _ => h.frame 0 block rfl, ?_⟩
  · rw [← h.bytes, Nat.sub_self, List.drop_zero]
    rfl
  · intro i next hnext
    have hfull : block.logDataLen = clogBlockDataSize := by
      cases blocks with
      | nil => cases hnext
      | cons => exact hpacked.full
    have hpos : clogBlockDataSize * (i + 1) =
        clogBlockHdrSize + block.logDataLen - clogBlockHdrSize + clogBlockDataSize * i := by
      rw [hfull, Nat.mul_succ]
      omega
    rw [← hpos]
    exact h.frame (i + 1) next hnext

/-- Recovery hands over the records that `replay` finds, and at the end the first of those that
wait. Only the former count for the number of the next record. -/
theorem recover_replay {file : CLogFile} {blocks : List CLogBlock} {rs : List CLogRecord}
    (hfile : file.Consists blocks) (hread : file.Readable) (hpacked : Packed blocks)
    (hframed : Framed blocks rs) (hrs : ∀ r ∈ rs, r.InRange) {fuel : ℕ} {stack : ℕ → CLogBlock}
    {s : Recovery} (hrun : file.recover fuel stack = some s) :
    List.Forall₂ CLogRecord.DecodesTo ((replay 0 [] rs).1 ++ (replay 0 [] rs).2.head?.toList)
        s.records ∧
      s.gloablLsn = endLsn 0 (replay 0 [] rs).1 := by
  obtain ⟨blocks', hfile', hlast⟩ := hread
  obtain rfl := hfile'.unique hfile
  obtain ⟨s₁, last, hblocks, hdone⟩ := recoverLoop_eq_some hfile fuel (dvd_zero _) hlast hrun
  rw [List.drop_zero] at hblocks
  have hreplayed : Recovery.Replayed .init s₁ (replay 0 [] rs).1 (replay 0 [] rs).2 := by
    cases blocks' with
    | nil =>
      obtain rfl : rs = [] := encodings_eq_nil.mp hframed.bytes.symm
      cases hblocks
      exact .nil rfl rfl rfl
    | cons block blocks =>
      have hmap := congrArg (Option.map Prod.fst) hblocks
      rw [Recovery.recoverBlocks_cons, Option.map_some] at hmap
      exact (Recovery.readFrom_replay (by simp) hrs (hframed.readAt hpacked) rfl rfl hmap).of_eq
        rfl rfl
  obtain ⟨ds, hds, hall⟩ := hreplayed.records
  have hds' : s₁.records = ds := hds
  have hbuf := hreplayed.logrecBuf
  unfold Recovery.done at hdone
  cases hwaiting : (replay 0 [] rs).2 with
  | nil =>
    rw [hwaiting] at hbuf
    have hempty : s₁.logrecBuf = .empty := by
      rw [CLogRecordBuf.empty, ← encodings_nil, ← hbuf]
    rw [if_neg (not_not.mpr hempty)] at hdone
    cases hdone
    refine ⟨?_, hreplayed.gloablLsn⟩
    rw [hds']
    simpa using hall
  | cons w ws =>
    rw [hwaiting] at hbuf
    have hne : s₁.logrecBuf ≠ .empty := by
      intro hempty
      rw [hempty] at hbuf
      exact List.cons_ne_nil w ws (encodings_eq_nil.mp hbuf.symm)
    rw [if_pos hne] at hdone
    simp only [Option.bind_eq_bind, Option.bind_eq_some_iff] at hdone
    obtain ⟨d, hd, hs⟩ := hdone
    cases hs
    refine ⟨?_, hreplayed.gloablLsn⟩
    rw [hds']
    refine List.rel_append hall (.cons ⟨encodings ws ++
      List.replicate (clogRedoBufferSize - s₁.logrecBuf.bytes.length) 0, ?_⟩ .nil)
    rw [← List.append_assoc, ← encodings_cons, ← hbuf]
    exact hd

end Miniob.Storage.Clog
