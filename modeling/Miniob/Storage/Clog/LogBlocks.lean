import Miniob.Storage.Clog.LogWriter

/-!
# The blocks of the log

Between two calls the log is made of the full blocks of the file and the blocks that the buffer
holds. The file can have one more block, an earlier state of the first block of the buffer.

* `CLogBlock.Grows`: a block gets more bytes.
* `CLogManager.Kept`: the blocks of the file and the buffer between two calls.
* `Kept.sync`, `Kept.appendLogRecord`: what the calls of the buffer make of the blocks.
-/

namespace Miniob.Storage.Clog

/-- Bytes have been put behind those of the block. -/
structure CLogBlock.Grows (old new : CLogBlock) : Prop where
  logData : old.logData <+: new.logData
  firstRecOffset : new.firstRecOffset = old.firstRecOffset

theorem CLogBlock.Grows.refl (block : CLogBlock) : block.Grows block := ⟨List.prefix_rfl, rfl⟩

theorem CLogBlock.Grows.trans {a b c : CLogBlock} (h : a.Grows b) (h' : b.Grows c) : a.Grows c :=
  ⟨h.logData.trans h'.logData, h'.firstRecOffset.trans h.firstRecOffset⟩

theorem CLogBlock.logData_length {block : CLogBlock} (h : block.logDataLen ≤ clogBlockDataSize) :
    block.logData.length = block.logDataLen := by
  rw [logData, List.length_take, block.data_length]
  exact Nat.min_eq_left h

/-- The bytes of the log in some blocks. -/
def logBytes (blocks : List CLogBlock) : List UInt8 := blocks.flatMap CLogBlock.logData

@[simp] theorem logBytes_nil : logBytes [] = [] := rfl

@[simp] theorem logBytes_append (blocks blocks' : List CLogBlock) :
    logBytes (blocks ++ blocks') = logBytes blocks ++ logBytes blocks' := List.flatMap_append

/-- Full blocks are filled to the last byte. -/
theorem logBytes_length_of_full {blocks : List CLogBlock}
    (h : ∀ block ∈ blocks, block.logDataLen = clogBlockDataSize) :
    (logBytes blocks).length = clogBlockDataSize * blocks.length := by
  induction blocks with
  | nil => rfl
  | cons block blocks ih =>
    have hblock := h block List.mem_cons_self
    rw [logBytes, List.flatMap_cons, List.length_append, CLogBlock.logData_length hblock.le, hblock,
      ← logBytes, ih fun b hb => h b (List.mem_cons_of_mem _ hb), List.length_cons, Nat.mul_succ,
      Nat.add_comm]

/-- The blocks of the log after a record has been copied from `startOff` on. Blocks that were there
grow; `first_rec_offset_` of a new block is the one for what it starts with. -/
structure Lengthened (blocks blocks' : List CLogBlock) (logRec : CLogRecord) (startOff : ℕ) :
    Prop where
  grows : ∀ (i : ℕ) (block : CLogBlock), blocks[i]? = some block →
    ∃ block', blocks'[i]? = some block' ∧ block.Grows block'
  frame : ∀ (i : ℕ) (block' : CLogBlock), blocks'[i]? = some block' → blocks[i]? = none →
    (logBytes blocks).length ≤ clogBlockDataSize * i ∧
    block'.firstRecOffset =
      logRec.frame (startOff + clogBlockDataSize * i - (logBytes blocks).length)

/-- Full blocks in front do not matter. -/
theorem Lengthened.append_left {blocks blocks' full : List CLogBlock} {logRec : CLogRecord}
    {startOff : ℕ} (h : Lengthened blocks blocks' logRec startOff)
    (hfull : ∀ block ∈ full, block.logDataLen = clogBlockDataSize) :
    Lengthened (full ++ blocks) (full ++ blocks') logRec startOff := by
  constructor
  · intro i block hblock
    by_cases hi : i < full.length
    · rw [List.getElem?_append_left hi] at hblock ⊢
      exact ⟨block, hblock, .refl _⟩
    · rw [List.getElem?_append_right (by omega)] at hblock ⊢
      exact h.grows _ block hblock
  · intro i block' hblock' hnone
    have hi : full.length ≤ i := by
      by_contra hcon
      rw [List.getElem?_eq_none_iff, List.length_append] at hnone
      omega
    rw [List.getElem?_append_right hi] at hblock' hnone
    obtain ⟨hle, hframe⟩ := h.frame _ block' hblock' hnone
    rw [hframe, logBytes_append, List.length_append, logBytes_length_of_full hfull]
    simp only [clogBlockDataSize] at hle ⊢
    refine ⟨by omega, ?_⟩
    congr 1
    omega

/-- A record that is copied in two parts. -/
theorem Lengthened.trans {blocks₁ blocks₂ blocks₃ : List CLogBlock} {logRec : CLogRecord}
    {startOff off : ℕ} (h : Lengthened blocks₁ blocks₂ logRec startOff)
    (h' : Lengthened blocks₂ blocks₃ logRec off)
    (hlen : (logBytes blocks₂).length = (logBytes blocks₁).length + (off - startOff))
    (hle : startOff ≤ off) : Lengthened blocks₁ blocks₃ logRec startOff := by
  constructor
  · intro i block hblock
    obtain ⟨block₂, hblock₂, hgrows⟩ := h.grows i block hblock
    obtain ⟨block₃, hblock₃, hgrows'⟩ := h'.grows i block₂ hblock₂
    exact ⟨block₃, hblock₃, hgrows.trans hgrows'⟩
  · intro i block₃ hblock₃ hnone
    cases hblock₂ : blocks₂[i]? with
    | some block₂ =>
      obtain ⟨block₃', hblock₃', hgrows⟩ := h'.grows i block₂ hblock₂
      obtain rfl := Option.some.inj (hblock₃.symm.trans hblock₃')
      rw [hgrows.firstRecOffset]
      exact h.frame i block₂ hblock₂ hnone
    | none =>
      obtain ⟨hle', hframe⟩ := h'.frame i block₃ hblock₃ hblock₂
      rw [hframe, hlen]
      refine ⟨by omega, ?_⟩
      congr 1
      omega

namespace CLogBuffer

theorem Vacant.held_eq {b : CLogBuffer} {n : ℕ} (h : b.Vacant n) : b.held = [] :=
  if_pos h.writeOffset

/-- The bytes that the buffer has room for. -/
def capacity : ℕ := clogBlockDataSize * (clogBufferSize / clogBlockSize)

theorem Holding.logBytes_held {b : CLogBuffer} {n k : ℕ} (h : b.Holding n k) :
    logBytes b.held = b.bytes (k + 1) := by
  rw [h.held_eq]
  rfl

/-- The bytes in the buffer are those of the full blocks and of the current one. -/
theorem Holding.logBytes_length {b : CLogBuffer} {n k : ℕ} (h : b.Holding n k) :
    (logBytes b.held).length = b.used k := by
  have hfull : ∀ block ∈ b.blocks k, block.logDataLen = clogBlockDataSize := by
    intro block hblock
    obtain ⟨j, hj, rfl⟩ := List.mem_map.mp hblock
    exact h.full j (List.mem_range.mp hj)
  rw [h.logBytes_held, bytes_succ, bytes, ← logBytes, List.length_append,
    logBytes_length_of_full hfull, blocks_length, CLogBlock.logData_length h.le, used]

theorem Holding.used_le {b : CLogBuffer} {n k : ℕ} (h : b.Holding n k) : b.used k ≤ capacity := by
  have h₁ := h.lt
  have h₂ := h.le
  simp only [used, capacity, clogBlockDataSize, clogBufferSize, clogBlockSize] at *
  omega

/-- What is copied into the blocks of the buffer. -/
theorem Holding.lengthened {b b' : CLogBuffer} {n k k' : ℕ} {logRec : CLogRecord} {startOff : ℕ}
    (h : b.Holding n k) (hne : (b.buffer k).logDataLen ≠ 0) (h' : b'.Holding n k')
    (hgrown : b.Grown b' k k' logRec startOff) : Lengthened b.held b'.held logRec startOff := by
  have hle := hgrown.le
  constructor
  · intro i block hblock
    rw [h.held_eq, blocks_getElem?_eq_some] at hblock
    obtain ⟨hi, rfl⟩ := hblock
    refine ⟨b'.buffer i, ?_, ?_⟩
    · rw [h'.held_eq, blocks_getElem?, if_pos (by omega)]
    · rcases Nat.lt_succ_iff_lt_or_eq.mp hi with hi | rfl
      · rw [hgrown.kept i hi]
        exact .refl _
      · exact ⟨hgrown.logData, hgrown.firstRecOffset hne⟩
  · intro i block' hblock' hnone
    rw [h'.held_eq, blocks_getElem?_eq_some] at hblock'
    rw [h.held_eq, blocks_getElem?, ite_eq_right_iff] at hnone
    obtain ⟨hi, rfl⟩ := hblock'
    have hik : k < i := by
      by_contra hcon
      cases hnone (by omega)
    rw [h.logBytes_length]
    refine ⟨?_, hgrown.frame i hik.le (by omega) fun hi => absurd hi hik.ne'⟩
    have hused : b.used k ≤ clogBlockDataSize * (k + 1) := by
      have := h.le
      rw [used, Nat.mul_succ]
      omega
    exact hused.trans (Nat.mul_le_mul_left _ hik)

/-- What is copied into an empty buffer. -/
theorem Vacant.lengthened {b b₁ b' : CLogBuffer} {n k' : ℕ} {logRec : CLogRecord} {startOff : ℕ}
    (h : b.Vacant n) (hzero : (b₁.buffer 0).logDataLen = 0) (h' : b'.Holding n k')
    (hgrown : b₁.Grown b' 0 k' logRec startOff) : Lengthened b.held b'.held logRec startOff := by
  constructor
  · intro i block hblock
    rw [h.held_eq] at hblock
    cases hblock
  · intro i block' hblock' _
    rw [h'.held_eq, blocks_getElem?_eq_some] at hblock'
    obtain ⟨hi, rfl⟩ := hblock'
    rw [h.held_eq]
    refine ⟨Nat.zero_le _, ?_⟩
    rw [hgrown.frame i (Nat.zero_le i) (by omega) fun _ => hzero, used, hzero]
    rfl

end CLogBuffer

/-- The blocks of the log between two calls: the full blocks of the file, at most one more block
of the file, and the blocks of the buffer. -/
structure CLogManager.Kept (m : CLogManager) (full : List CLogBlock) (tail : Option CLogBlock) :
    Prop where
  flushed : m.logFile.Flushed full
  last : m.logFile (full.length + 1) = tail
  numbered : ∀ block, tail = some block → block.logBlockNo = clogBlockSize * (full.length + 1)
  notFull : ∀ block, tail = some block →
    block.logDataLen ≠ 0 ∧ block.logDataLen < clogBlockDataSize
  grows : ∀ block, tail = some block →
    ∃ block', m.logBuffer.held[0]? = some block' ∧ block.Grows block'
  buffer : m.logBuffer.Vacant full.length ∨
    ∃ k, m.logBuffer.Holding full.length k ∧ (m.logBuffer.buffer k).logDataLen ≠ 0

namespace CLogManager

theorem kept_fresh (fhd : CLogBlock) : (fresh fhd).Kept [] none where
  flushed := by
    refine ⟨by simp, ?_, by simp, by simp⟩
    intro i hi
    rw [List.length_nil] at hi
    exact if_neg (by omega)
  last := rfl
  numbered := by simp
  notFull := by simp
  grows := by simp
  buffer := Or.inl ⟨rfl, rfl, rfl, rfl⟩

variable {m : CLogManager} {full : List CLogBlock} {tail : Option CLogBlock}

/-- The file has no further block when the buffer holds none. -/
theorem Kept.tail_eq_none (h : m.Kept full tail) (hv : m.logBuffer.Vacant full.length) :
    tail = none := by
  cases htail : tail with
  | none => rfl
  | some block =>
    obtain ⟨block', hheld, -⟩ := h.grows block htail
    rw [hv.held_eq] at hheld
    cases hheld

/-- Writing the buffer out does not change the blocks of the log, and all of them are in the file
afterwards. A full buffer is empty then. -/
theorem Kept.sync (h : m.Kept full tail) :
    ∃ m' full' tail', m.clogSync = some m' ∧ m'.Kept full' tail' ∧
      full' ++ m'.logBuffer.held = full ++ m.logBuffer.held ∧
      full' ++ tail'.toList = full ++ m.logBuffer.held ∧
      (m.logBuffer.writeOffset = clogBufferSize → m'.logBuffer.Vacant full'.length) := by
  unfold clogSync
  rcases h.buffer with hv | ⟨k, hb, hne⟩
  · obtain rfl := h.tail_eq_none hv
    obtain ⟨file', hflush, hsame⟩ := hv.flushBuffer m.logFile
    rw [hflush]
    refine ⟨_, full, none, rfl, ⟨h.flushed.congr hsame, ?_, by simp, by simp, by simp, Or.inl hv⟩,
      rfl, ?_, fun _ => hv⟩
    · exact (hsame _ (Nat.succ_pos _)).trans h.last
    · rw [hv.held_eq, Option.toList_none]
  · by_cases hlast : (m.logBuffer.buffer k).logDataLen = clogBlockDataSize
    · -- every block of the buffer is full
      obtain ⟨file', hflush, hf', hnone⟩ := hb.flushBuffer_full h.flushed hlast
      have hv : m.logBuffer.reset.Vacant (full ++ m.logBuffer.blocks (k + 1)).length := by
        refine ⟨rfl, rfl, rfl, ?_⟩
        rw [List.length_append, CLogBuffer.blocks_length]
        exact hb.currentBlockNo.trans (by rw [Nat.add_right_comm, Nat.add_assoc])
      rw [hflush]
      refine ⟨_, _, none, rfl, ⟨hf', hnone, by simp, by simp, by simp, Or.inl hv⟩, ?_, ?_,
        fun _ => hv⟩
      · rw [hv.held_eq, List.append_nil, hb.held_eq]
      · rw [Option.toList_none, List.append_nil, hb.held_eq]
    · obtain ⟨file', b', hflush, hf', hstored, hb', hfront⟩ :=
        hb.flushBuffer_partial h.flushed hlast
      have hlen : (full ++ m.logBuffer.blocks k).length = full.length + k := by
        rw [List.length_append, CLogBuffer.blocks_length]
      have hheld : b'.held = [m.logBuffer.buffer k] := by
        rw [hb'.held_eq, ← hfront]
        rfl
      have hsplit : m.logBuffer.blocks (k + 1) =
          m.logBuffer.blocks k ++ [m.logBuffer.buffer k] := by
        rw [CLogBuffer.blocks, CLogBuffer.blocks, List.range_succ, List.map_append]
        rfl
      rw [hflush]
      refine ⟨_, _, some (m.logBuffer.buffer k), rfl, ⟨hf', hstored, ?_, ?_, ?_, Or.inr ⟨0, ?_⟩⟩,
        ?_, ?_, fun hfull => absurd (hb.full_of_writeOffset hfull) hlast⟩
      · intro block hblock
        cases hblock
        rw [hlen, hb.numbered k le_rfl]
        congr 1
        omega
      · intro block hblock
        cases hblock
        exact ⟨hne, lt_of_le_of_ne hb.le hlast⟩
      · intro block hblock
        cases hblock
        exact ⟨_, by rw [hheld]; rfl, .refl _⟩
      · rw [hlen, hfront]
        exact ⟨hb', hne⟩
      · rw [hheld, hb.held_eq, hsplit, List.append_assoc]
      · rw [Option.toList_some, hb.held_eq, hsplit, List.append_assoc]

/-- Enough fuel for the rest of a record. -/
theorem appendFuel_lt {logRec : CLogRecord} (startOff : ℕ) (b : CLogBuffer) (k : ℕ) :
    2 * (logRec.getLogrecLen - startOff) + b.pending k < appendFuel logRec := by
  have hp : b.pending k ≤ 1 := by
    unfold CLogBuffer.pending
    split <;> omega
  unfold appendFuel
  omega

/-- A record is copied from an offset on: to its end if there is room for it, and else until the
buffer is full. -/
theorem Kept.appendLogRecord (h : m.Kept full tail) (logRec : CLogRecord) {startOff : ℕ}
    (hoff : startOff < logRec.getLogrecLen) :
    ∃ rc off b', m.logBuffer.appendLogRecord (appendFuel logRec) logRec startOff =
        some (rc, off, b') ∧ startOff ≤ off ∧ Kept { m with logBuffer := b' } full tail ∧
      logBytes b'.held =
        logBytes m.logBuffer.held ++ (logRec.encoding.drop startOff).take (off - startOff) ∧
      Lengthened m.logBuffer.held b'.held logRec startOff ∧
      (rc = .success ∧ off = logRec.getLogrecLen ∧
          (logBytes m.logBuffer.held).length + (logRec.getLogrecLen - startOff) ≤
            CLogBuffer.capacity ∨
        rc = .logbufFull ∧ off < logRec.getLogrecLen ∧ b'.writeOffset = clogBufferSize ∧
          CLogBuffer.capacity <
            (logBytes m.logBuffer.held).length + (logRec.getLogrecLen - startOff)) := by
  -- the blocks of the file stay, and the first block of the buffer grows
  have hkept : ∀ {b' : CLogBuffer} {k' : ℕ}, b'.Holding full.length k' →
      (b'.buffer k').logDataLen ≠ 0 → Lengthened m.logBuffer.held b'.held logRec startOff →
      Kept { m with logBuffer := b' } full tail := by
    intro b' k' hb' hne' hext
    refine ⟨h.flushed, h.last, h.numbered, h.notFull, ?_, Or.inr ⟨k', hb', hne'⟩⟩
    intro block hblock
    obtain ⟨block₁, hheld, hgrows⟩ := h.grows block hblock
    obtain ⟨block₂, hheld', hgrows'⟩ := hext.grows 0 block₁ hheld
    exact ⟨block₂, hheld', hgrows.trans hgrows'⟩
  -- a record that does not get to its end leaves no room
  have hroom : ∀ {rc : RC} {off : ℕ} {b' : CLogBuffer} {k' : ℕ}, b'.Holding full.length k' →
      startOff ≤ off → b'.used k' = (logBytes m.logBuffer.held).length + (off - startOff) →
      (rc = .success ∧ off = logRec.getLogrecLen ∨
        rc = .logbufFull ∧ off < logRec.getLogrecLen ∧ b'.writeOffset = clogBufferSize) →
      rc = .success ∧ off = logRec.getLogrecLen ∧
          (logBytes m.logBuffer.held).length + (logRec.getLogrecLen - startOff) ≤
            CLogBuffer.capacity ∨
        rc = .logbufFull ∧ off < logRec.getLogrecLen ∧ b'.writeOffset = clogBufferSize ∧
          CLogBuffer.capacity <
            (logBytes m.logBuffer.held).length + (logRec.getLogrecLen - startOff) := by
    rintro rc off b' k' hb' hle hused (⟨rfl, rfl⟩ | ⟨rfl, hlt, hfull⟩)
    · refine Or.inl ⟨rfl, rfl, ?_⟩
      rw [← hused]
      exact hb'.used_le
    · refine Or.inr ⟨rfl, hlt, hfull, ?_⟩
      rw [hb'.writeOffset_eq_iff, hused] at hfull
      rw [CLogBuffer.capacity, ← hfull]
      omega
  rcases h.buffer with hv | ⟨k, hb, hne⟩
  · obtain ⟨b₁, hfirst, h₁, hzero⟩ := hv.firstBlock
    obtain ⟨rc, off, b', k', hrun, h', hle, hbytes, hused, hrc, hgrown⟩ :=
      CLogBuffer.appendLogRecord_spec logRec _ b₁ 0 startOff h₁ hoff (appendFuel_lt startOff b₁ 0)
    have hext := hv.lengthened hzero h' hgrown
    have hempty : b₁.bytes (0 + 1) = [] := by
      rw [CLogBuffer.bytes_succ, CLogBlock.logData, hzero]
      rfl
    have hrun' := (hv.appendLogRecord_eq hfirst h₁ hzero _ logRec startOff).trans hrun
    refine ⟨rc, off, b', hrun', hle, hkept h' hgrown.last hext, ?_, hext, hroom h' hle ?_ hrc⟩
    · rw [h'.logBytes_held, hbytes, hempty, hv.held_eq, logBytes_nil]
    · rw [hused, CLogBuffer.used, hzero, hv.held_eq]
      rfl
  · obtain ⟨rc, off, b', k', hrun, h', hle, hbytes, hused, hrc, hgrown⟩ :=
      CLogBuffer.appendLogRecord_spec logRec _ m.logBuffer k startOff hb hoff
        (appendFuel_lt startOff _ k)
    have hext := hb.lengthened hne h' hgrown
    refine ⟨rc, off, b', hrun, hle, hkept h' hgrown.last hext, ?_, hext, hroom h' hle ?_ hrc⟩
    · rw [h'.logBytes_held, hbytes, hb.logBytes_held]
    · rw [hused, hb.logBytes_length]

/-- A record that fits into the buffer and does not end a transaction goes to the buffer only. -/
theorem Kept.append_of_fits (h : m.Kept full tail) (logRec : CLogRecord)
    (hcommit : logRec.getLogType ≠ .redoMtrCommit)
    (hfits : (logBytes m.logBuffer.held).length + logRec.getLogrecLen ≤ CLogBuffer.capacity) :
    ∃ m', m.clogAppendRecord logRec = some (.success, m') ∧ m'.Kept full tail ∧
      logBytes m'.logBuffer.held = logBytes m.logBuffer.held ++ logRec.encoding := by
  obtain ⟨rc, off, b', hrun, -, hk, hbytes, -, hrc⟩ :=
    h.appendLogRecord logRec logRec.getLogrecLen_pos
  rcases hrc with ⟨rfl, rfl, -⟩ | ⟨-, -, -, hroom⟩
  · refine ⟨_, ?_, hk, ?_⟩
    · unfold clogAppendRecord
      simp [hrun, hcommit]
    · rw [hbytes, List.drop_zero, Nat.sub_zero, ← logRec.encoding_length, List.take_length]
  · omega

/-- A call of `clog_append_record` puts the record behind the log. It fails when the record does
not fit into the buffer as a whole. When it does not fail and the record ends a transaction, the
file has the whole log. -/
theorem Kept.append (h : m.Kept full tail) (logRec : CLogRecord)
    (hlen : logRec.getLogrecLen ≤ CLogBuffer.capacity) :
    ∃ rc m' full' tail', m.clogAppendRecord logRec = some (rc, m') ∧ m'.Kept full' tail' ∧
      logBytes (full' ++ m'.logBuffer.held) =
        logBytes (full ++ m.logBuffer.held) ++ logRec.encoding ∧
      Lengthened (full ++ m.logBuffer.held) (full' ++ m'.logBuffer.held) logRec 0 ∧
      (rc = .success ↔
        (logBytes m.logBuffer.held).length + logRec.getLogrecLen ≤ CLogBuffer.capacity) ∧
      (rc = .success → logRec.getLogType = .redoMtrCommit →
        full' ++ tail'.toList = full' ++ m'.logBuffer.held) := by
  obtain ⟨rc, off, b', hrun, hle, hk, hbytes, hext, hrc⟩ :=
    h.appendLogRecord logRec logRec.getLogrecLen_pos
  have hall : (logRec.encoding.drop 0).take (logRec.getLogrecLen - 0) = logRec.encoding := by
    rw [List.drop_zero, Nat.sub_zero, ← logRec.encoding_length, List.take_length]
  have hext' := hext.append_left h.flushed.full
  unfold clogAppendRecord
  simp only [hrun, Option.bind_eq_bind, Option.bind_some]
  rcases hrc with ⟨rfl, rfl, hfit⟩ | ⟨rfl, hlt, hfull, hroom⟩
  · rw [hall] at hbytes
    by_cases hcommit : logRec.getLogType = .redoMtrCommit
    · obtain ⟨m', full', tail', hsync, hk', hblocks, hfile, -⟩ := hk.sync
      refine ⟨.success, m', full', tail', by simp [hcommit, hsync, appendRest], hk', ?_, ?_,
        iff_of_true rfl hfit, fun _ _ => hfile.trans hblocks.symm⟩
      · rw [hblocks, logBytes_append, hbytes, logBytes_append, List.append_assoc]
      · rw [hblocks]
        exact hext'
    · refine ⟨.success, _, full, tail, by simp [hcommit], hk, ?_, hext', iff_of_true rfl hfit,
        fun _ hc => absurd hc hcommit⟩
      rw [logBytes_append, hbytes, logBytes_append, List.append_assoc]
  · -- the buffer is written out and the rest of the record goes to its front
    obtain ⟨m₁, full₁, tail₁, hsync, hk₁, hblocks₁, -, hvacant⟩ := hk.sync
    have hv := hvacant hfull
    obtain ⟨rc₂, off₂, b₂, hrun₂, hle₂, hk₂, hbytes₂, hext₂, hrc₂⟩ :=
      hk₁.appendLogRecord logRec hlt
    have hend : off₂ = logRec.getLogrecLen := by
      rcases hrc₂ with ⟨-, hend, -⟩ | ⟨-, -, -, hroom₂⟩
      · exact hend
      · rw [hv.held_eq, logBytes_nil, List.length_nil] at hroom₂
        omega
    subst hend
    have hbytes₁ : logBytes (full₁ ++ m₁.logBuffer.held) =
        logBytes (full ++ m.logBuffer.held) ++ logRec.encoding.take off := by
      rw [hblocks₁, logBytes_append, hbytes, logBytes_append, List.append_assoc, List.drop_zero,
        Nat.sub_zero]
    have hlen₁ : (logBytes (full₁ ++ m₁.logBuffer.held)).length =
        (logBytes (full ++ m.logBuffer.held)).length + (off - 0) := by
      rw [hbytes₁, List.length_append, List.length_take, logRec.encoding_length]
      omega
    rw [← hblocks₁] at hext'
    refine ⟨.logbufFull, ⟨b₂, m₁.logFile⟩, full₁, tail₁,
      by simp [hsync, appendRest, hlt.ne, hrun₂], hk₂, ?_,
      hext'.trans (hext₂.append_left hk₁.flushed.full) hlen₁ hle,
      iff_of_false (by decide) (by omega), fun hrc => by cases hrc⟩
    rw [logBytes_append, hbytes₂, ← List.append_assoc, ← logBytes_append, hbytes₁,
      List.append_assoc, ← List.take_add, Nat.add_sub_cancel' hle₂, ← logRec.encoding_length,
      List.take_length]

end CLogManager

end Miniob.Storage.Clog
