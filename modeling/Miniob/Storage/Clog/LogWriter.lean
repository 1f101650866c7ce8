import Miniob.Storage.Clog.Clog
import Mathlib.Data.List.Range
import Mathlib.Data.Nat.ModEq

/-!
# The log writer

However the records fall on the blocks and however often the buffer is written out in between, the
log is the concatenation of the records.

* `Holding`, `Vacant`: the states of the buffer between two calls.
* `appendLogRecord_spec`: what `append_log_record` adds, and when it stops with a full buffer.
* `Written`: the state of the log, kept by every call (`Written.append`, `Written.sync`).
* `log_writer`: the log area after any run on a fresh log.
-/

namespace Miniob.Storage.Clog

/-! ## The blocks of the buffer -/

/-- `first_rec_offset_` of a block that starts with byte `off` of the record. -/
def CLogRecord.frame (r : CLogRecord) (off : ℕ) : ℕ :=
  if r.getLogrecLen - off ≤ clogBlockDataSize then
    if off = 0 then clogBlockHdrSize else clogBlockHdrSize + (r.getLogrecLen - off)
  else clogBlockSize

namespace CLogBuffer

/-- The bytes of the log in the first `n` blocks of the buffer. -/
def bytes (b : CLogBuffer) (n : ℕ) : List UInt8 := (b.blocks n).flatMap CLogBlock.logData

@[simp] theorem bytes_zero (b : CLogBuffer) : b.bytes 0 = [] := rfl

theorem bytes_succ (b : CLogBuffer) (n : ℕ) :
    b.bytes (n + 1) = b.bytes n ++ (b.buffer n).logData := by
  simp [bytes, blocks, List.range_succ]

/-- Only the blocks that are read matter. -/
theorem bytes_congr {b b' : CLogBuffer} {n : ℕ} (h : ∀ j < n, b'.buffer j = b.buffer j) :
    b'.bytes n = b.bytes n := by
  have : b'.blocks n = b.blocks n := List.map_congr_left fun j hj => h j (List.mem_range.mp hj)
  rw [bytes, this, bytes]

/-- Bytes have been put behind those of block `k`, and the blocks before it are as they were. -/
structure Extends (b b' : CLogBuffer) (k : ℕ) (bytes : List UInt8) : Prop where
  kept : ∀ j < k, b'.buffer j = b.buffer j
  logData : (b'.buffer k).logData = (b.buffer k).logData ++ bytes

theorem Extends.bytes_eq {b b' : CLogBuffer} {k : ℕ} {bytes : List UInt8}
    (h : b.Extends b' k bytes) : b'.bytes (k + 1) = b.bytes (k + 1) ++ bytes := by
  rw [bytes_succ, bytes_succ, bytes_congr h.kept, h.logData, List.append_assoc]

/-- The buffer holds the blocks `0` to `k`, which follow `n` blocks of the file. All but block `k`
are full, and the next byte goes to the end of block `k`. -/
structure Holding (b : CLogBuffer) (n k : ℕ) : Prop where
  writeBlockOffset : b.writeBlockOffset = clogBlockSize * k
  lt : k < clogBufferSize / clogBlockSize
  writeOffset : b.writeOffset = clogBlockSize * k + clogBlockHdrSize + (b.buffer k).logDataLen
  le : (b.buffer k).logDataLen ≤ clogBlockDataSize
  full : ∀ j < k, (b.buffer j).logDataLen = clogBlockDataSize
  numbered : ∀ j ≤ k, (b.buffer j).logBlockNo = clogBlockSize * (n + 1 + j)
  currentBlockNo : b.currentBlockNo = clogBlockSize * (n + 1 + k)

/-- The buffer holds no block, and the next one follows `n` blocks of the file. -/
structure Vacant (b : CLogBuffer) (n : ℕ) : Prop where
  writeBlockOffset : b.writeBlockOffset = 0
  writeOffset : b.writeOffset = 0
  zero : b.buffer 0 = .zero
  currentBlockNo : b.currentBlockNo = clogBlockSize * n

/-- The bytes of data that the blocks `0` to `k` have room for and that are taken. -/
def used (b : CLogBuffer) (k : ℕ) : ℕ := clogBlockDataSize * k + (b.buffer k).logDataLen

namespace Holding

variable {b : CLogBuffer} {n k : ℕ}

/-- The block that `write_block_offset_` points to. -/
theorem block_eq (h : b.Holding n k) : b.block b.writeBlockOffset = b.buffer k := by
  rw [block, h.writeBlockOffset, Nat.mul_div_cancel_left k (by decide)]

theorem setBlock_eq (h : b.Holding n k) (block : CLogBlock) :
    b.setBlock b.writeBlockOffset block =
      { b with buffer := Function.update b.buffer k block } := by
  rw [setBlock, h.writeBlockOffset, Nat.mul_div_cancel_left k (by decide)]

/-- A buffer that holds a block is not taken for an empty one. -/
theorem firstBlock (h : b.Holding n k) : b.firstBlock = some b := by
  have := h.writeOffset
  rw [CLogBuffer.firstBlock, if_neg]
  simp only [clogBlockHdrSize] at this
  omega

/-- The buffer is full when its last block is. -/
theorem writeOffset_eq_iff (h : b.Holding n k) :
    b.writeOffset = clogBufferSize ↔
      b.used k = clogBlockDataSize * (clogBufferSize / clogBlockSize) := by
  have h₁ := h.writeOffset
  have h₂ := h.lt
  have h₃ := h.le
  simp only [used, clogBlockSize, clogBlockHdrSize, clogBlockDataSize, clogBufferSize] at *
  omega

theorem full_of_writeOffset (h : b.Holding n k) (hfull : b.writeOffset = clogBufferSize) :
    (b.buffer k).logDataLen = clogBlockDataSize := by
  have h₁ := h.writeOffset
  have h₂ := h.lt
  have h₃ := h.le
  simp only [clogBlockSize, clogBlockHdrSize, clogBlockDataSize, clogBufferSize] at *
  omega

/-- Only the last block changes. It keeps its number and ends `len` bytes later. -/
theorem update (h : b.Holding n k) (block : CLogBlock) (len : ℕ)
    (hno : block.logBlockNo = (b.buffer k).logBlockNo)
    (hlen : block.logDataLen = (b.buffer k).logDataLen + len)
    (hle : block.logDataLen ≤ clogBlockDataSize) :
    CLogBuffer.Holding { b with
      writeOffset := b.writeOffset + len
      buffer := Function.update b.buffer k block } n k where
  writeBlockOffset := h.writeBlockOffset
  lt := h.lt
  writeOffset := by
    have := h.writeOffset
    simp only [Function.update_self]
    omega
  le := by simpa using hle
  full := by
    intro j hj
    simpa [Function.update_of_ne hj.ne] using h.full j hj
  numbered := by
    intro j hj
    by_cases hjk : j = k
    · subst hjk
      simpa [hno] using h.numbered j hj
    · simpa [Function.update_of_ne hjk] using h.numbered j hj
  currentBlockNo := h.currentBlockNo

/-- Setting `first_rec_offset_` moves nothing. -/
theorem setFirstRecOffset (h : b.Holding n k) (offset : ℕ) :
    (b.setFirstRecOffset offset).Holding n k ∧
      ((b.setFirstRecOffset offset).buffer k).logDataLen = (b.buffer k).logDataLen ∧
      b.Extends (b.setFirstRecOffset offset) k [] ∧
      ((b.setFirstRecOffset offset).buffer k).firstRecOffset =
        if (b.buffer k).logDataLen = 0 then offset else (b.buffer k).firstRecOffset := by
  unfold CLogBuffer.setFirstRecOffset
  simp only [h.block_eq]
  split
  · rw [h.setBlock_eq]
    refine ⟨?_, ?_, ⟨?_, ?_⟩, ?_⟩
    · exact h.update { b.buffer k with firstRecOffset := offset } 0 rfl rfl h.le
    · simp
    · intro j hj
      simp [Function.update_of_ne hj.ne]
    · simp [CLogBlock.logData]
    · simp
  · exact ⟨h, rfl, ⟨fun _ _ => rfl, (List.append_nil _).symm⟩, rfl⟩

/-- A full block is followed by an empty one, if the buffer has room for it. -/
theorem newBlock (h : b.Holding n k) (hfull : (b.buffer k).logDataLen = clogBlockDataSize)
    (hroom : b.writeOffset ≠ clogBufferSize) :
    ∃ b', CLogBuffer.newBlock { b with writeBlockOffset := b.writeBlockOffset + clogBlockSize } =
        some b' ∧ b'.Holding n (k + 1) ∧ (b'.buffer (k + 1)).logDataLen = 0 ∧
      ∀ j < k + 1, b'.buffer j = b.buffer j := by
  have hw := h.writeOffset
  have hlt := h.lt
  have hnext : k + 1 < clogBufferSize / clogBlockSize := by
    simp only [clogBlockSize, clogBlockHdrSize, clogBlockDataSize, clogBufferSize] at *
    omega
  have hdiv : (b.writeBlockOffset + clogBlockSize) / clogBlockSize = k + 1 := by
    rw [h.writeBlockOffset]
    simp only [clogBlockSize]
    omega
  have hfit : b.writeBlockOffset + clogBlockSize + clogBlockSize ≤ clogBufferSize := by
    rw [h.writeBlockOffset]
    simp only [clogBlockSize, clogBufferSize] at *
    omega
  unfold CLogBuffer.newBlock
  rw [if_pos hfit]
  refine ⟨_, rfl, ?_, ?_, ?_⟩
  · constructor
    · simp only [setBlock, h.writeBlockOffset, clogBlockSize]
      omega
    · exact hnext
    · simp only [setBlock, hdiv, Function.update_self, CLogBlock.zero]
      simp only [clogBlockSize, clogBlockHdrSize, clogBlockDataSize] at *
      omega
    · simp only [setBlock, hdiv, Function.update_self, CLogBlock.zero]
      omega
    · intro j hj
      simp only [setBlock, hdiv, Function.update_of_ne hj.ne]
      rcases Nat.lt_succ_iff_lt_or_eq.mp hj with hj | rfl
      · exact h.full j hj
      · exact hfull
    · intro j hj
      simp only [setBlock, hdiv]
      by_cases hjk : j = k + 1
      · subst hjk
        simp only [Function.update_self, h.currentBlockNo, clogBlockSize]
        omega
      · rw [Function.update_of_ne hjk]
        exact h.numbered j (by omega)
    · simp only [setBlock, h.currentBlockNo, clogBlockSize]
      omega
  · simp [setBlock, hdiv, CLogBlock.zero]
  · intro j hj
    simp [setBlock, hdiv, Function.update_of_ne hj.ne]

/-- What is copied goes to the end of the last block. -/
theorem copyRecord (h : b.Holding n k) (logRec : CLogRecord) {startOff len : ℕ}
    (hoff : startOff + len ≤ logRec.getLogrecLen)
    (hlt : (b.buffer k).logDataLen < clogBlockDataSize)
    (hle : (b.buffer k).logDataLen + len ≤ clogBlockDataSize) :
    ∃ b', b.copyRecord logRec startOff len = some b' ∧ b'.Holding n k ∧
      (b'.buffer k).logDataLen = (b.buffer k).logDataLen + len ∧
      b.Extends b' k ((logRec.encoding.drop startOff).take len) ∧
      (b'.buffer k).firstRecOffset = (b.buffer k).firstRecOffset := by
  have hw := h.writeOffset
  have hk := h.lt
  have hdiv : b.writeOffset / clogBlockSize = k := by
    simp only [clogBlockSize, clogBlockHdrSize, clogBlockDataSize, clogBufferSize] at *
    omega
  have hmod : b.writeOffset % clogBlockSize - clogBlockHdrSize = (b.buffer k).logDataLen := by
    simp only [clogBlockSize, clogBlockHdrSize, clogBlockDataSize, clogBufferSize] at *
    omega
  have hin : clogBlockHdrSize ≤ b.writeOffset % clogBlockSize ∧ b.writeOffset < clogBufferSize := by
    simp only [clogBlockSize, clogBlockHdrSize, clogBlockDataSize, clogBufferSize] at *
    omega
  have hbytes : ((logRec.encoding.drop startOff).take len).length = len := by
    rw [List.length_take, List.length_drop, logRec.encoding_length]
    omega
  -- the bytes go to the data behind those that are there
  obtain ⟨block, hblock, hno, hlen, hfirst, hdata⟩ : ∃ block,
      (b.buffer k).copyTo (b.buffer k).logDataLen ((logRec.encoding.drop startOff).take len) =
        some block ∧ block.logBlockNo = (b.buffer k).logBlockNo ∧
      block.logDataLen = (b.buffer k).logDataLen ∧
      block.firstRecOffset = (b.buffer k).firstRecOffset ∧
      block.data.take ((b.buffer k).logDataLen + len) =
        (b.buffer k).logData ++ (logRec.encoding.drop startOff).take len := by
    rw [CLogBlock.copyTo, dif_pos (by omega)]
    refine ⟨_, rfl, rfl, rfl, rfl, ?_⟩
    have hdl := (b.buffer k).data_length
    rw [List.take_append_of_le_length, List.take_of_length_le, CLogBlock.logData]
    · simp only [List.length_append, List.length_take, hbytes, hdl]
      omega
    · simp only [List.length_append, List.length_take, hbytes, hdl]
      omega
  unfold CLogBuffer.copyRecord
  rw [logRec.copyRecord_eq hoff]
  have hcopy : b.copyTo b.writeOffset ((logRec.encoding.drop startOff).take len) =
      some { b with buffer := Function.update b.buffer k block } := by
    rw [copyTo, if_pos hin, hmod, CLogBuffer.block, hdiv, hblock]
    simp only [Option.map_some, setBlock, hdiv]
  simp only [hcopy, Option.bind_eq_bind, Option.bind_some]
  refine ⟨_, rfl, ?_⟩
  have hdiv' : b.writeBlockOffset / clogBlockSize = k := by
    rw [h.writeBlockOffset, Nat.mul_div_cancel_left k (by decide)]
  simp only [setBlock, CLogBuffer.block, hdiv', Function.update_self, Function.update_idem]
  refine ⟨?_, ?_, ⟨?_, ?_⟩, ?_⟩
  · refine h.update { block with logDataLen := block.logDataLen + len } len hno ?_ ?_
    · simp [hlen]
    · simpa [hlen] using hle
  · simp [hlen]
  · intro j hj
    simp [Function.update_of_ne hj.ne]
  · simp [CLogBlock.logData, hlen, hdata]
  · simp [hfirst]

end Holding

/-- The first block of an empty buffer. -/
theorem Vacant.firstBlock {b : CLogBuffer} {n : ℕ} (h : b.Vacant n) :
    ∃ b', b.firstBlock = some b' ∧ b'.Holding n 0 ∧ (b'.buffer 0).logDataLen = 0 := by
  unfold CLogBuffer.firstBlock
  rw [if_pos ⟨h.writeOffset, h.writeBlockOffset⟩, CLogBuffer.newBlock,
    if_pos (by rw [h.writeBlockOffset]; decide)]
  have hdiv : b.writeBlockOffset / clogBlockSize = 0 := by rw [h.writeBlockOffset]; rfl
  refine ⟨_, rfl, ?_, ?_⟩
  · constructor
    · simp [setBlock, h.writeBlockOffset]
    · decide
    · simp [setBlock, hdiv, h.writeOffset, CLogBlock.zero]
    · simp [setBlock, hdiv, CLogBlock.zero]
    · simp
    · intro j hj
      obtain rfl : j = 0 := by omega
      simp only [setBlock, hdiv, Function.update_self, h.currentBlockNo]
      simp only [clogBlockSize]
      omega
    · simp only [setBlock, h.currentBlockNo, clogBlockSize]
      omega
  · simp [setBlock, hdiv, CLogBlock.zero]

/-- Whether another block has to be started before the next byte. -/
def pending (b : CLogBuffer) (k : ℕ) : ℕ :=
  if (b.buffer k).logDataLen = clogBlockDataSize then 1 else 0

/-- The blocks after a record has been copied from `startOff` on. A block that had bytes keeps its
`first_rec_offset_`. -/
structure Grown (b b' : CLogBuffer) (k k' : ℕ) (logRec : CLogRecord) (startOff : ℕ) : Prop where
  le : k ≤ k'
  kept : ∀ j < k, b'.buffer j = b.buffer j
  logData : (b.buffer k).logData <+: (b'.buffer k).logData
  firstRecOffset : (b.buffer k).logDataLen ≠ 0 →
    (b'.buffer k).firstRecOffset = (b.buffer k).firstRecOffset
  frame : ∀ j, k ≤ j → j ≤ k' → (j = k → (b.buffer k).logDataLen = 0) →
    (b'.buffer j).firstRecOffset = logRec.frame (startOff + clogBlockDataSize * j - b.used k)
  last : (b'.buffer k').logDataLen ≠ 0

/-- The calls copy the record from `start_off` on, either to its end or until the buffer is full. -/
theorem appendLogRecord_spec {n : ℕ} (logRec : CLogRecord) (fuel : ℕ) :
    ∀ (b : CLogBuffer) (k startOff : ℕ), b.Holding n k → startOff < logRec.getLogrecLen →
      2 * (logRec.getLogrecLen - startOff) + b.pending k < fuel →
    ∃ rc off b' k', b.appendLogRecord fuel logRec startOff = some (rc, off, b') ∧
      b'.Holding n k' ∧ startOff ≤ off ∧
      b'.bytes (k' + 1) =
        b.bytes (k + 1) ++ (logRec.encoding.drop startOff).take (off - startOff) ∧
      b'.used k' = b.used k + (off - startOff) ∧
      (rc = .success ∧ off = logRec.getLogrecLen ∨
        rc = .logbufFull ∧ off < logRec.getLogrecLen ∧ b'.writeOffset = clogBufferSize) ∧
      b.Grown b' k k' logRec startOff := by
  induction fuel with
  | zero =>
    intro b k startOff _ _ hfuel
    omega
  | succ fuel ih =>
    intro b k startOff h hoff hfuel
    unfold appendLogRecord
    by_cases hfull : b.writeOffset = clogBufferSize
    · rw [if_pos hfull]
      refine ⟨_, _, _, k, rfl, h, le_rfl, ?_, ?_, Or.inr ⟨rfl, hoff, hfull⟩, ?_⟩
      · simp
      · simp
      · have hlen := h.full_of_writeOffset hfull
        refine ⟨le_rfl, fun _ _ => rfl, List.prefix_rfl, fun _ => rfl, ?_, ?_⟩
        · intro j hj hj' hzero
          rw [hzero (le_antisymm hj' hj)] at hlen
          cases hlen
        · rw [hlen]
          decide
    rw [if_neg hfull]
    simp only [h.firstBlock, Option.bind_eq_bind, Option.bind_some, h.block_eq]
    by_cases hlast : (b.buffer k).logDataLen = clogBlockDataSize
    · -- the current block is full, and the record goes on in a new one
      rw [if_pos hlast]
      obtain ⟨b₁, hnew, h₁, hzero, hkept⟩ := h.newBlock hlast hfull
      have hpend : b₁.pending (k + 1) = 0 := by
        rw [pending, hzero]
        rfl
      have hpend' : b.pending k = 1 := if_pos hlast
      have hused₁ : b₁.used (k + 1) = b.used k := by
        rw [used, used, hzero, hlast, Nat.mul_succ, Nat.add_zero]
      have hbytes : b₁.bytes (k + 1 + 1) = b.bytes (k + 1) := by
        rw [bytes_succ, bytes_congr hkept, CLogBlock.logData, hzero, List.take_zero,
          List.append_nil]
      obtain ⟨rc, off, b', k', hrun, h', hle, hb', hused, hrc, hgrown⟩ :=
        ih b₁ (k + 1) startOff h₁ hoff (by omega)
      rw [hnew, Option.bind_some, hrun]
      have hkept' : ∀ j < k + 1, b'.buffer j = b.buffer j := fun j hj =>
        (hgrown.kept j hj).trans (hkept j hj)
      refine ⟨rc, off, b', k', rfl, h', hle, ?_, ?_, hrc, ?_⟩
      · rw [hb', hbytes]
      · rw [hused, hused₁]
      · refine ⟨(Nat.le_succ k).trans hgrown.le, fun j hj => hkept' j (by omega), ?_, ?_, ?_,
          hgrown.last⟩
        · simp only [hkept' k (Nat.lt_succ_self k), List.prefix_rfl]
        · exact fun _ => by rw [hkept' k (Nat.lt_succ_self k)]
        · intro j hj hj' hempty
          rcases hj.eq_or_lt with rfl | hlt
          · rw [hempty rfl] at hlast
            cases hlast
          · rw [← hused₁]
            exact hgrown.frame j hlt hj' fun _ => hzero
    rw [if_neg hlast]
    have hlt := lt_of_le_of_ne h.le hlast
    by_cases hfit : logRec.getLogrecLen - startOff ≤ clogBlockDataSize - (b.buffer k).logDataLen
    · -- the rest fits into the current block
      rw [if_pos hfit]
      obtain ⟨h₁, hlen₁, hext₁, hfirst₁⟩ := h.setFirstRecOffset
        (if startOff = 0 then clogBlockHdrSize
          else clogBlockHdrSize + (logRec.getLogrecLen - startOff))
      obtain ⟨b₂, hcopy, h₂, hlen₂, hext₂, hfirst₂⟩ := h₁.copyRecord logRec
        (show startOff + (logRec.getLogrecLen - startOff) ≤ _ by omega)
        (by rw [hlen₁]; omega) (by rw [hlen₁]; omega)
      rw [hcopy]
      refine ⟨_, _, b₂, k, rfl, h₂, by omega, ?_, ?_, Or.inl ⟨rfl, by omega⟩, ?_⟩
      · rw [hext₂.bytes_eq, hext₁.bytes_eq, List.append_nil]
        congr 2
        omega
      · rw [used, used, hlen₂, hlen₁]
        omega
      · refine ⟨le_rfl, fun j hj => (hext₂.kept j hj).trans (hext₁.kept j hj), ?_, ?_, ?_, ?_⟩
        · rw [hext₂.logData, hext₁.logData, List.append_nil]
          exact List.prefix_append _ _
        · intro hne
          rw [hfirst₂, hfirst₁, if_neg hne]
        · intro j hj hj' hempty
          obtain rfl := le_antisymm hj' hj
          rw [hfirst₂, hfirst₁, if_pos (hempty rfl), used, hempty rfl, Nat.add_zero,
            Nat.add_sub_cancel, CLogRecord.frame, if_pos (hfit.trans (Nat.sub_le _ _))]
        · rw [hlen₂, hlen₁]
          omega
    · -- the record fills the current block
      rw [if_neg hfit]
      obtain ⟨h₁, hlen₁, hext₁, hfirst₁⟩ := h.setFirstRecOffset clogBlockSize
      obtain ⟨b₂, hcopy, h₂, hlen₂, hext₂, hfirst₂⟩ := h₁.copyRecord logRec
        (show startOff + (clogBlockDataSize - (b.buffer k).logDataLen) ≤ _ by omega)
        (by rw [hlen₁]; omega) (by rw [hlen₁]; omega)
      rw [hlen₁] at hlen₂
      have hpend : b₂.pending k ≤ 1 := by
        unfold pending
        split <;> omega
      obtain ⟨rc, off, b', k', hrun, h', hle, hb', hused, hrc, hgrown⟩ :=
        ih b₂ k (startOff + (clogBlockDataSize - (b.buffer k).logDataLen)) h₂ (by omega) (by omega)
      have hused₂ : b₂.used k = b.used k + (clogBlockDataSize - (b.buffer k).logDataLen) := by
        rw [used, used, hlen₂]
        omega
      rw [hcopy, Option.bind_some, hrun]
      refine ⟨rc, off, b', k', rfl, h', by omega, ?_, ?_, hrc, ?_⟩
      · rw [hb', hext₂.bytes_eq, hext₁.bytes_eq, List.append_nil, List.append_assoc,
          ← List.drop_drop, ← List.take_add]
        congr 2
        omega
      · rw [hused, hused₂]
        omega
      · have hne₂ : (b₂.buffer k).logDataLen ≠ 0 := by
          rw [hlen₂]
          simp only [clogBlockDataSize] at hlt ⊢
          omega
        refine ⟨hgrown.le, fun j hj => ?_, ?_, ?_, ?_, hgrown.last⟩
        · exact (hgrown.kept j hj).trans ((hext₂.kept j hj).trans (hext₁.kept j hj))
        · refine List.IsPrefix.trans ?_ hgrown.logData
          rw [hext₂.logData, hext₁.logData, List.append_nil]
          exact List.prefix_append _ _
        · intro hne
          rw [hgrown.firstRecOffset hne₂, hfirst₂, hfirst₁, if_neg hne]
        · intro j hj hj' hempty
          rcases hj.eq_or_lt with rfl | hlt'
          · have hzero := hempty rfl
            rw [hzero, Nat.sub_zero] at hfit
            rw [hgrown.firstRecOffset hne₂, hfirst₂, hfirst₁, if_pos hzero, used, hzero,
              Nat.add_zero, Nat.add_sub_cancel, CLogRecord.frame, if_neg hfit]
          · rw [hgrown.frame j hj hj' fun hjk => absurd hjk hlt'.ne', hused₂]
            congr 1
            omega

/-- From an empty buffer the first call starts a block. -/
theorem Vacant.appendLogRecord_eq {b b₁ : CLogBuffer} {n : ℕ} (h : b.Vacant n)
    (hfirst : b.firstBlock = some b₁) (h₁ : b₁.Holding n 0) (hzero : (b₁.buffer 0).logDataLen = 0)
    (fuel : ℕ) (logRec : CLogRecord) (startOff : ℕ) :
    b.appendLogRecord (fuel + 1) logRec startOff =
      b₁.appendLogRecord (fuel + 1) logRec startOff := by
  have hw := h₁.writeOffset
  rw [hzero] at hw
  unfold appendLogRecord
  rw [if_neg (by rw [h.writeOffset]; decide), if_neg (by rw [hw]; decide), hfirst, h₁.firstBlock]

end CLogBuffer

/-! ## The file -/

/-- The file holds these blocks and at most one block behind them. -/
structure CLogFile.Flushed (file : CLogFile) (blocks : List CLogBlock) : Prop where
  stored : ∀ i < blocks.length, file (i + 1) = blocks[i]?
  beyond : ∀ i, blocks.length + 1 < i → file i = none
  numbered : ∀ i block, blocks[i]? = some block → block.logBlockNo = clogBlockSize * (i + 1)
  full : ∀ block ∈ blocks, block.logDataLen = clogBlockDataSize

namespace CLogBuffer

theorem blocks_getElem? (b : CLogBuffer) (n i : ℕ) :
    (b.blocks n)[i]? = if i < n then some (b.buffer i) else none := by
  by_cases h : i < n
  · simp [blocks, h]
  · simp [blocks, h]

theorem blocks_getElem?_eq_some {b : CLogBuffer} {n i : ℕ} {block : CLogBlock} :
    (b.blocks n)[i]? = some block ↔ i < n ∧ b.buffer i = block := by
  rw [blocks_getElem?, Option.ite_none_right_eq_some, Option.some_inj]

@[simp] theorem blocks_length (b : CLogBuffer) (n : ℕ) : (b.blocks n).length = n := by
  simp [blocks]

/-- Writing the blocks of the buffer leaves the blocks before them as they are. The blocks that are
full will not be written again. -/
theorem Holding.write {b : CLogBuffer} {file : CLogFile} {blocks : List CLogBlock} {k c : ℕ}
    (h : b.Holding blocks.length k) (hf : file.Flushed blocks) (hc : k ≤ c) (hck : c ≤ k + 1)
    (hfull : ∀ j < c, (b.buffer j).logDataLen = clogBlockDataSize) :
    ∃ file', file.write (b.block 0).logBlockNo (b.blocks (k + 1)) = some file' ∧
      file'.Flushed (blocks ++ b.blocks c) ∧
      file' ((blocks ++ b.blocks c).length + 1) = (b.blocks (k + 1))[c]? := by
  have hno : (b.block 0).logBlockNo = clogBlockSize * (blocks.length + 1) :=
    h.numbered 0 (Nat.zero_le k)
  have hdiv : clogBlockSize * (blocks.length + 1) / clogBlockSize = blocks.length + 1 :=
    Nat.mul_div_cancel_left _ (by decide)
  rw [CLogFile.write, hno, if_pos (Nat.mul_mod_right _ _), hdiv]
  refine ⟨_, rfl, ?_, ?_⟩
  · constructor
    · intro i hi
      rw [List.length_append, blocks_length] at hi
      by_cases hib : i < blocks.length
      · rw [if_neg (by omega), List.getElem?_append_left hib]
        exact hf.stored i hib
      · rw [if_pos (by omega), List.getElem?_append_right (by omega), blocks_getElem?,
          blocks_getElem?, if_pos (by omega), if_pos (by omega)]
        simp
    · intro i hi
      rw [List.length_append, blocks_length] at hi
      rw [if_pos (by omega), blocks_getElem?, if_neg (by omega)]
      exact hf.beyond i (by omega)
    · intro i block hblock
      by_cases hib : i < blocks.length
      · rw [List.getElem?_append_left hib] at hblock
        exact hf.numbered i block hblock
      · rw [List.getElem?_append_right (by omega), blocks_getElem?_eq_some] at hblock
        obtain ⟨hlt, rfl⟩ := hblock
        rw [h.numbered _ (by omega)]
        congr 1
        omega
    · intro block hblock
      rcases List.mem_append.mp hblock with hblock | hblock
      · exact hf.full block hblock
      · obtain ⟨j, hj, rfl⟩ := List.mem_map.mp hblock
        exact hfull j (List.mem_range.mp hj)
  · rw [List.length_append, blocks_length, if_pos (by omega),
      show blocks.length + c + 1 - (blocks.length + 1) = c by omega]
    cases hget : (b.blocks (k + 1))[c]? with
    | some block => rfl
    | none =>
      rw [List.getElem?_eq_none_iff, blocks_length] at hget
      exact hf.beyond _ (by omega)

/-- An empty buffer is written over the header of the file. -/
theorem Vacant.flushBuffer {b : CLogBuffer} {n : ℕ} (h : b.Vacant n) (file : CLogFile) :
    ∃ file', b.flushBuffer file = some (file', b) ∧ ∀ i, 0 < i → file' i = file i := by
  have hblock : b.block b.writeBlockOffset = .zero := by
    rw [h.writeBlockOffset]
    exact h.zero
  have hno : (b.block 0).logBlockNo = 0 := by
    rw [block, Nat.zero_div, h.zero]
    rfl
  unfold CLogBuffer.flushBuffer
  rw [if_neg (by rw [h.writeOffset]; decide), hblock, hno, CLogFile.write, if_pos (Nat.zero_mod _),
    h.writeBlockOffset]
  refine ⟨_, rfl, ?_⟩
  intro i hi
  rw [if_pos (by simp), blocks_getElem?, if_neg]
  · rfl
  · simp only [clogBlockSize]
    omega

/-- The number of blocks up to the current one. -/
theorem Holding.blocks_eq {b : CLogBuffer} {n k : ℕ} (h : b.Holding n k) :
    (b.writeBlockOffset + clogBlockSize) / clogBlockSize = k + 1 := by
  rw [h.writeBlockOffset]
  simp only [clogBlockSize]
  omega

/-- All blocks are written when the last one is full, and the buffer is empty. -/
theorem Holding.flushBuffer_full {b : CLogBuffer} {file : CLogFile} {blocks : List CLogBlock}
    {k : ℕ} (h : b.Holding blocks.length k) (hf : file.Flushed blocks)
    (hlast : (b.buffer k).logDataLen = clogBlockDataSize) :
    ∃ file', b.flushBuffer file = some (file', b.reset) ∧
      file'.Flushed (blocks ++ b.blocks (k + 1)) ∧
      file' ((blocks ++ b.blocks (k + 1)).length + 1) = none := by
  have hall : ∀ j < k + 1, (b.buffer j).logDataLen = clogBlockDataSize := by
    intro j hj
    rcases Nat.lt_succ_iff_lt_or_eq.mp hj with hj | rfl
    · exact h.full j hj
    · exact hlast
  obtain ⟨file', hwrite, hf', hnone⟩ := h.write hf (Nat.le_succ k) le_rfl hall
  rw [List.getElem?_eq_none (blocks_length _ _).le] at hnone
  refine ⟨file', ?_, hf', hnone⟩
  unfold CLogBuffer.flushBuffer
  split
  · rename_i hfull
    have hk : clogBufferSize / clogBlockSize = k + 1 := by
      have hw := h.writeOffset
      have hlt := h.lt
      simp only [clogBlockSize, clogBlockHdrSize, clogBlockDataSize, clogBufferSize] at *
      omega
    simp [hk, hwrite]
  · simp [h.blocks_eq, h.block_eq, hwrite, hlast]

/-- The last block stays in the buffer, at its front, when it is not full. -/
theorem Holding.flushBuffer_partial {b : CLogBuffer} {file : CLogFile} {blocks : List CLogBlock}
    {k : ℕ} (h : b.Holding blocks.length k) (hf : file.Flushed blocks)
    (hlast : (b.buffer k).logDataLen ≠ clogBlockDataSize) :
    ∃ file' b', b.flushBuffer file = some (file', b') ∧ file'.Flushed (blocks ++ b.blocks k) ∧
      file' ((blocks ++ b.blocks k).length + 1) = some (b.buffer k) ∧
      b'.Holding (blocks.length + k) 0 ∧ b'.buffer 0 = b.buffer k := by
  obtain ⟨file', hwrite, hf', hlastBlock⟩ := h.write hf le_rfl (Nat.le_succ k) h.full
  rw [blocks_getElem?, if_pos (Nat.lt_succ_self k)] at hlastBlock
  have hw := h.writeOffset
  unfold CLogBuffer.flushBuffer
  rw [if_neg fun hfull => hlast (h.full_of_writeOffset hfull), h.blocks_eq, hwrite, h.block_eq]
  by_cases hk : k = 0
  · subst hk
    refine ⟨file', b, ?_, hf', hlastBlock, h, rfl⟩
    simp [hlast, h.writeBlockOffset]
  · refine ⟨file', ⟨b.currentBlockNo, 0, (b.buffer k).logDataLen + clogBlockHdrSize,
      Function.update (fun _ => .zero) 0 (b.buffer k)⟩, ?_, hf', hlastBlock, ?_, by simp⟩
    · simp [hlast, h.writeBlockOffset, hk, clogBlockSize]
    · constructor
      · rfl
      · decide
      · simp only [Function.update_self]
        omega
      · simpa using h.le
      · simp
      · intro j hj
        obtain rfl : j = 0 := by omega
        simp only [Function.update_self, h.numbered k le_rfl]
        congr 1
        omega
      · simp only [h.currentBlockNo]
        congr 1
        omega

end CLogBuffer

/-- The header of the file does not matter. -/
theorem CLogFile.Flushed.congr {file file' : CLogFile} {blocks : List CLogBlock}
    (h : file.Flushed blocks) (hsame : ∀ i, 0 < i → file' i = file i) : file'.Flushed blocks where
  stored i hi := (hsame _ (Nat.succ_pos i)).trans (h.stored i hi)
  beyond i hi := (hsame i (by omega)).trans (h.beyond i hi)
  numbered := h.numbered
  full := h.full

/-! ## The log between two calls -/

/-- The log holds these bytes: in the full blocks of the file and in the blocks of the buffer. -/
inductive CLogManager.Written (m : CLogManager) : List UInt8 → Prop
  | vacant (blocks : List CLogBlock) (file : m.logFile.Flushed blocks)
      (last : m.logFile (blocks.length + 1) = none) (buffer : m.logBuffer.Vacant blocks.length) :
      Written m (blocks.flatMap CLogBlock.logData)
  | holding (blocks : List CLogBlock) (k : ℕ) (file : m.logFile.Flushed blocks)
      (buffer : m.logBuffer.Holding blocks.length k) :
      Written m (blocks.flatMap CLogBlock.logData ++ m.logBuffer.bytes (k + 1))

namespace CLogManager

theorem written_fresh (fhd : CLogBlock) : (fresh fhd).Written [] := by
  refine Written.vacant (m := fresh fhd) [] ?_ rfl ⟨rfl, rfl, rfl, rfl⟩
  refine ⟨by simp, ?_, by simp, by simp⟩
  intro i hi
  simp only [List.length_nil, Nat.zero_add] at hi
  exact if_neg (by omega)

/-- Writing the buffer out does not change the log. A full buffer is empty afterwards. -/
theorem Written.sync {m : CLogManager} {log : List UInt8} (h : m.Written log) :
    ∃ m', m.clogSync = some m' ∧ m'.Written log ∧
      (m.logBuffer.writeOffset = clogBufferSize → ∃ n, m'.logBuffer.Vacant n) := by
  unfold clogSync
  cases h with
  | vacant blocks hf last hv =>
    obtain ⟨file', hflush, hsame⟩ := hv.flushBuffer m.logFile
    rw [hflush]
    refine ⟨_, rfl, Written.vacant (m := ⟨m.logBuffer, file'⟩) blocks (hf.congr hsame) ?_ hv,
      fun _ => ⟨_, hv⟩⟩
    exact (hsame _ (Nat.succ_pos _)).trans last
  | holding blocks k hf hb =>
    have hlog : ∀ c, (blocks ++ m.logBuffer.blocks c).flatMap CLogBlock.logData =
        blocks.flatMap CLogBlock.logData ++ m.logBuffer.bytes c := fun c => List.flatMap_append
    by_cases hlast : (m.logBuffer.buffer k).logDataLen = clogBlockDataSize
    · -- every block of the buffer is full
      obtain ⟨file', hflush, hf', hnone⟩ := hb.flushBuffer_full hf hlast
      rw [hflush, ← hlog]
      have hv : m.logBuffer.reset.Vacant (blocks ++ m.logBuffer.blocks (k + 1)).length := by
        refine ⟨rfl, rfl, rfl, ?_⟩
        rw [List.length_append, CLogBuffer.blocks_length]
        exact hb.currentBlockNo.trans (by rw [Nat.add_right_comm, Nat.add_assoc])
      exact ⟨_, rfl, Written.vacant (m := ⟨m.logBuffer.reset, file'⟩) _ hf' hnone hv,
        fun _ => ⟨_, hv⟩⟩
    · obtain ⟨file', b', hflush, hf', -, hb', hfront⟩ := hb.flushBuffer_partial hf hlast
      have hbytes : m.logBuffer.bytes k ++ b'.bytes 1 = m.logBuffer.bytes (k + 1) := by
        rw [CLogBuffer.bytes_succ, CLogBuffer.bytes_succ, CLogBuffer.bytes_zero, List.nil_append,
          hfront]
      rw [hflush, ← hbytes, ← List.append_assoc, ← hlog]
      refine ⟨_, rfl, Written.holding (m := ⟨b', file'⟩) _ 0 hf' ?_, ?_⟩
      · rwa [List.length_append, CLogBuffer.blocks_length]
      · intro hfull
        exact absurd (hb.full_of_writeOffset hfull) hlast

/-- A record is copied from an offset on, to its end or until the buffer is full. It gets to its
end if the buffer was empty. -/
theorem Written.appendLogRecord {m : CLogManager} {log : List UInt8} (h : m.Written log)
    (logRec : CLogRecord) {startOff : ℕ} (hoff : startOff < logRec.getLogrecLen) :
    ∃ rc off b', m.logBuffer.appendLogRecord (appendFuel logRec) logRec startOff =
        some (rc, off, b') ∧ startOff ≤ off ∧
      Written { m with logBuffer := b' }
        (log ++ (logRec.encoding.drop startOff).take (off - startOff)) ∧
      (rc = .success ∧ off = logRec.getLogrecLen ∨
        rc = .logbufFull ∧ off < logRec.getLogrecLen ∧ b'.writeOffset = clogBufferSize) ∧
      ((∃ n, m.logBuffer.Vacant n) → logRec.getLogrecLen ≤ clogRedoBufferSize →
        off = logRec.getLogrecLen) := by
  have hfuel : ∀ (b : CLogBuffer) (k : ℕ),
      2 * (logRec.getLogrecLen - startOff) + b.pending k < appendFuel logRec := by
    intro b k
    have hp : b.pending k ≤ 1 := by
      unfold CLogBuffer.pending
      split <;> omega
    unfold appendFuel
    omega
  cases h with
  | vacant blocks hf last hv =>
    obtain ⟨b₁, hfirst, h₁, hzero⟩ := hv.firstBlock
    obtain ⟨rc, off, b', k', hrun, h', hle, hbytes, hused, hrc, -⟩ :=
      CLogBuffer.appendLogRecord_spec logRec _ b₁ 0 startOff h₁ hoff (hfuel b₁ 0)
    have hempty : b₁.bytes (0 + 1) = [] := by
      rw [CLogBuffer.bytes_succ, CLogBlock.logData, hzero]
      rfl
    rw [hempty, List.nil_append] at hbytes
    refine ⟨rc, off, b', ?_, hle, ?_, hrc, ?_⟩
    · rw [← hrun]
      exact hv.appendLogRecord_eq hfirst h₁ hzero _ logRec startOff
    · rw [← hbytes]
      exact Written.holding (m := { m with logBuffer := b' }) blocks k' hf h'
    · intro _ hlen
      rcases hrc with ⟨-, hend⟩ | ⟨-, hlt, hfull⟩
      · exact hend
      · -- a full buffer has more data than a record
        rw [h'.writeOffset_eq_iff, hused, CLogBuffer.used, hzero] at hfull
        simp only [clogBlockDataSize, clogBufferSize, clogBlockSize, clogRedoBufferSize] at *
        omega
  | holding blocks k hf hb =>
    obtain ⟨rc, off, b', k', hrun, h', hle, hbytes, -, hrc, -⟩ :=
      CLogBuffer.appendLogRecord_spec logRec _ m.logBuffer k startOff hb hoff (hfuel _ k)
    refine ⟨rc, off, b', hrun, hle, ?_, hrc, ?_⟩
    · rw [List.append_assoc, ← hbytes]
      exact Written.holding (m := { m with logBuffer := b' }) blocks k' hf h'
    · rintro ⟨n, hv⟩
      have hw := hb.writeOffset
      rw [hv.writeOffset] at hw
      simp only [clogBlockHdrSize] at hw
      omega

/-- A call of `clog_append_record` adds the bytes of the record. -/
theorem Written.append {m : CLogManager} {log : List UInt8} (h : m.Written log)
    (logRec : CLogRecord) (hlen : logRec.getLogrecLen ≤ clogRedoBufferSize) :
    ∃ rc m', m.clogAppendRecord logRec = some (rc, m') ∧ m'.Written (log ++ logRec.encoding) := by
  obtain ⟨rc, off, b', hrun, -, hw, hrc, -⟩ := h.appendLogRecord logRec logRec.getLogrecLen_pos
  have hall : (logRec.encoding.drop 0).take (logRec.getLogrecLen - 0) = logRec.encoding := by
    rw [List.drop_zero, Nat.sub_zero, ← logRec.encoding_length, List.take_length]
  unfold clogAppendRecord
  simp only [hrun, Option.bind_eq_bind, Option.bind_some]
  rcases hrc with ⟨rfl, rfl⟩ | ⟨rfl, hlt, hfull⟩
  · rw [hall] at hw
    by_cases hcommit : logRec.getLogType = .redoMtrCommit
    · obtain ⟨m', hsync, hw', -⟩ := hw.sync
      exact ⟨.success, m', by simp [hcommit, hsync, appendRest], hw'⟩
    · exact ⟨.success, ⟨b', m.logFile⟩, by simp [hcommit], hw⟩
  · -- the buffer is written out and the rest of the record goes to its front
    obtain ⟨m', hsync, hw', hvacant⟩ := hw.sync
    obtain ⟨rc₂, off₂, b₂, hrun₂, hle₂, hw₂, -, hend⟩ := hw'.appendLogRecord logRec hlt
    obtain rfl := hend (hvacant hfull) hlen
    refine ⟨.logbufFull, ⟨b₂, m'.logFile⟩, by simp [hsync, appendRest, hlt.ne, hrun₂], ?_⟩
    rwa [List.append_assoc, List.drop_zero, Nat.sub_zero, ← List.take_add,
      Nat.add_sub_cancel' hle₂, ← logRec.encoding_length, List.take_length] at hw₂

end CLogManager

/-- Whether a call appends a record of more than `CLOG_REDO_BUFFER_SIZE` bytes. -/
def LogOp.Short : LogOp → Prop
  | append logRec => logRec.getLogrecLen ≤ clogRedoBufferSize
  | sync => True

/-- Every run keeps the log. -/
theorem CLogManager.Written.run {m : CLogManager} {log : List UInt8} (h : m.Written log)
    (ops : List LogOp) (hops : ∀ op ∈ ops, op.Short) :
    ∃ m', runLog ops m = some m' ∧ m'.Written (log ++ ops.flatMap LogOp.bytes) := by
  induction ops generalizing m log with
  | nil => exact ⟨m, rfl, by simpa using h⟩
  | cons op ops ih =>
    obtain ⟨m₁, hstep, h₁⟩ : ∃ m₁, op.step m = some m₁ ∧ m₁.Written (log ++ op.bytes) := by
      cases op with
      | append logRec =>
        obtain ⟨rc, m₁, happend, h₁⟩ := h.append logRec (hops _ List.mem_cons_self)
        exact ⟨m₁, by simp [LogOp.step, happend], h₁⟩
      | sync =>
        obtain ⟨m₁, hsync, h₁, -⟩ := h.sync
        exact ⟨m₁, hsync, by simpa [LogOp.bytes] using h₁⟩
    obtain ⟨m', hrun, h'⟩ := ih h₁ fun op' hop' => hops op' (List.mem_cons_of_mem _ hop')
    refine ⟨m', ?_, ?_⟩
    · rw [runLog, List.foldlM_cons, hstep]
      exact hrun
    · rwa [List.flatMap_cons, ← List.append_assoc]

/-! ## The log area -/

/-- The blocks that the buffer holds. -/
def CLogBuffer.held (b : CLogBuffer) : List CLogBlock :=
  if b.writeOffset = 0 then [] else b.blocks (b.writeBlockOffset / clogBlockSize + 1)

/-- The blocks of the log: a block of the buffer at its `log_block_no`, or the block of the file. -/
def CLogManager.logArea (m : CLogManager) (i : ℕ) : Option CLogBlock :=
  (m.logBuffer.held.find? fun block => block.logBlockNo = clogBlockSize * i).or (m.logFile i)

/-- The log area consists of these blocks, from the second block of the file on. -/
structure CLogManager.LogArea (m : CLogManager) (blocks : List CLogBlock) : Prop where
  area : ∀ i, m.logArea (i + 1) = blocks[i]?
  numbered : ∀ i block, blocks[i]? = some block → block.logBlockNo = clogBlockSize * (i + 1)
  full : ∀ i block, blocks[i]? = some block → i + 1 < blocks.length →
    block.logDataLen = clogBlockDataSize
  le : ∀ block ∈ blocks, block.logDataLen ≤ clogBlockDataSize

theorem CLogBuffer.Holding.held_eq {b : CLogBuffer} {n k : ℕ} (h : b.Holding n k) :
    b.held = b.blocks (k + 1) := by
  have hw := h.writeOffset
  rw [held, if_neg, h.writeBlockOffset, Nat.mul_div_cancel_left k (by decide)]
  simp only [clogBlockHdrSize] at hw
  omega

/-- A block of the buffer is found by its number. -/
theorem CLogBuffer.Holding.find {b : CLogBuffer} {n k : ℕ} (h : b.Holding n k) (i : ℕ) :
    (b.held.find? fun block => block.logBlockNo = clogBlockSize * (i + 1)) =
      if n ≤ i ∧ i ≤ n + k then some (b.buffer (i - n)) else none := by
  have hno : ∀ j ≤ k, (b.buffer j).logBlockNo = clogBlockSize * (i + 1) ↔ j + n = i := by
    intro j hj
    rw [h.numbered j hj, Nat.mul_right_inj (by decide)]
    omega
  rw [h.held_eq, blocks, List.find?_map]
  split
  · rename_i hi
    rw [Option.map_eq_some_iff]
    refine ⟨i - n, ?_, rfl⟩
    rw [List.find?_range_eq_some]
    refine ⟨?_, ?_, ?_⟩
    · simp only [Function.comp_apply, decide_eq_true_eq]
      rw [hno _ (by omega)]
      omega
    · rw [List.mem_range]
      omega
    · intro j hj
      simp only [Function.comp_apply, Bool.not_eq_true', decide_eq_false_iff_not]
      rw [hno _ (by omega)]
      omega
  · rename_i hi
    rw [Option.map_eq_none_iff, List.find?_eq_none]
    intro j hj
    rw [List.mem_range] at hj
    simp only [Function.comp_apply, decide_eq_true_eq]
    rw [hno _ (by omega)]
    omega

/-- Where the next byte goes lies in the buffer. -/
structure CLogBuffer.Inside (b : CLogBuffer) : Prop where
  writeOffset : b.writeOffset ≤ clogBufferSize
  writeBlockOffset : b.writeBlockOffset + clogBlockSize ≤ clogBufferSize

namespace CLogManager

theorem Written.inside {m : CLogManager} {log : List UInt8} (h : m.Written log) :
    m.logBuffer.Inside := by
  cases h with
  | vacant blocks hf last hv =>
    constructor
    · rw [hv.writeOffset]
      exact Nat.zero_le _
    · rw [hv.writeBlockOffset]
      decide
  | holding blocks k hf hb =>
    have h₁ := hb.writeOffset
    have h₂ := hb.writeBlockOffset
    have h₃ := hb.lt
    have h₄ := hb.le
    simp only [clogBlockSize, clogBlockHdrSize, clogBlockDataSize, clogBufferSize] at *
    constructor
    · simp only [clogBufferSize]
      omega
    · simp only [clogBufferSize, clogBlockSize]
      omega

/-- The file and the buffer together are the log. -/
theorem Written.logArea {m : CLogManager} {log : List UInt8} (h : m.Written log) :
    ∃ blocks, m.LogArea blocks ∧ blocks.flatMap CLogBlock.logData = log := by
  cases h with
  | vacant blocks hf last hv =>
    refine ⟨blocks, ⟨?_, hf.numbered, ?_, ?_⟩, rfl⟩
    · intro i
      have hheld : m.logBuffer.held = [] := if_pos hv.writeOffset
      rw [CLogManager.logArea, hheld, List.find?_nil, Option.none_or]
      rcases lt_trichotomy i blocks.length with hi | rfl | hi
      · exact hf.stored i hi
      · rw [last, List.getElem?_eq_none le_rfl]
      · rw [hf.beyond (i + 1) (by omega), List.getElem?_eq_none hi.le]
    · intro i block hblock _
      exact hf.full block (List.mem_of_getElem? hblock)
    · intro block hblock
      exact (hf.full block hblock).le
  | holding blocks k hf hb =>
    refine ⟨blocks ++ m.logBuffer.blocks (k + 1), ⟨?_, ?_, ?_, ?_⟩, List.flatMap_append⟩
    · intro i
      rw [CLogManager.logArea, hb.find]
      by_cases hi : i < blocks.length
      · rw [if_neg (by omega), Option.none_or, List.getElem?_append_left hi]
        exact hf.stored i hi
      · rw [List.getElem?_append_right (by omega), CLogBuffer.blocks_getElem?]
        by_cases hk : i ≤ blocks.length + k
        · rw [if_pos (by omega), if_pos (by omega), Option.some_or]
        · rw [if_neg (by omega), if_neg (by omega), Option.none_or]
          exact hf.beyond _ (by omega)
    · intro i block hblock
      by_cases hi : i < blocks.length
      · rw [List.getElem?_append_left hi] at hblock
        exact hf.numbered i block hblock
      · rw [List.getElem?_append_right (by omega), CLogBuffer.blocks_getElem?_eq_some] at hblock
        obtain ⟨hlt, rfl⟩ := hblock
        rw [hb.numbered _ (by omega)]
        congr 1
        omega
    · intro i block hblock hlast
      rw [List.length_append, CLogBuffer.blocks_length] at hlast
      by_cases hi : i < blocks.length
      · rw [List.getElem?_append_left hi] at hblock
        exact hf.full block (List.mem_of_getElem? hblock)
      · rw [List.getElem?_append_right (by omega), CLogBuffer.blocks_getElem?_eq_some] at hblock
        obtain ⟨hlt, rfl⟩ := hblock
        exact hb.full _ (by omega)
    · intro block hblock
      rcases List.mem_append.mp hblock with hblock | hblock
      · exact (hf.full block hblock).le
      · obtain ⟨j, hj, rfl⟩ := List.mem_map.mp hblock
        rw [List.mem_range] at hj
        rcases Nat.lt_succ_iff_lt_or_eq.mp hj with hj | rfl
        · exact (hb.full j hj).le
        · exact hb.le

end CLogManager

/-- After every run on a fresh log, the blocks of the log area are numbered without a gap, all but
the last are full, they hold the records in the order in which they were appended, and the next
byte goes to a place inside the buffer. -/
theorem log_writer (fhd : CLogBlock) (ops : List LogOp) (hops : ∀ op ∈ ops, op.Short) :
    ∃ m blocks, runLog ops (.fresh fhd) = some m ∧ m.LogArea blocks ∧
      blocks.flatMap CLogBlock.logData = ops.flatMap LogOp.bytes ∧ m.logBuffer.Inside := by
  obtain ⟨m, hrun, h⟩ := (CLogManager.written_fresh fhd).run ops hops
  obtain ⟨blocks, harea, hlog⟩ := h.logArea
  exact ⟨m, blocks, hrun, harea, hlog, h.inside⟩

theorem log_writer_begin_sync :
    ∃ m blocks, runLog [.append (.mtr false 0 1), .sync, .append (.mtr true 16 1)] (.fresh .zero) =
        some m ∧ m.LogArea blocks ∧
      blocks.flatMap CLogBlock.logData =
        (CLogRecord.mtr false 0 1).encoding ++ (CLogRecord.mtr true 16 1).encoding ∧
      m.logBuffer.Inside := by
  refine log_writer .zero [.append (.mtr false 0 1), .sync, .append (.mtr true 16 1)] ?_
  intro op hop
  simp only [List.mem_cons, List.not_mem_nil, or_false] at hop
  rcases hop with rfl | rfl | rfl
  · exact (by decide : 16 ≤ clogRedoBufferSize)
  · trivial
  · exact (by decide : 16 ≤ clogRedoBufferSize)

end Miniob.Storage.Clog
