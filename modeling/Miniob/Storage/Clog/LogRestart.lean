import Miniob.Storage.Clog.LogBlocks
import Miniob.Storage.Clog.Recover

/-!
# The log after a restart

Recovery goes through the blocks of the file and fills the buffer in which the log goes on. When
the last block of the file is full and is not the last of a batch, it goes on with blocks that are
left from the batch before, and takes the number of such a block for the last one of the log.

* `CLogFile.Readable`: recovery ends with the last block of the file.
* `recoverLoop_eq_some`: then recovery goes through the blocks of the file once.
* `Kept.restart`: the buffer holds what the file has behind its full blocks.
* `append_completes_iff`: when `clog_append_record` does all that it should.
-/

namespace Miniob.Storage.Clog

/-! ## The blocks that are read -/

/-- The file consists of these blocks, behind its header. -/
def CLogFile.Consists (file : CLogFile) (blocks : List CLogBlock) : Prop :=
  ∀ i, file (i + 1) = blocks[i]?

/-- Recovery ends with the last block of the file: the block is not full, or a batch ends there. -/
def CLogFile.Readable (file : CLogFile) : Prop :=
  ∃ blocks, file.Consists blocks ∧
    (redoBlocks ∣ blocks.length ∨ ∃ block ∈ blocks, block.logDataLen < clogBlockDataSize)

theorem CLogFile.Consists.unique {file : CLogFile} {blocks blocks' : List CLogBlock}
    (h : file.Consists blocks) (h' : file.Consists blocks') : blocks = blocks' :=
  List.ext_getElem? fun i => (h i).symm.trans (h' i)

theorem readAt_eq {file : CLogFile} {blocks : List CLogBlock} (h : file.Consists blocks) (n : ℕ) :
    ∀ j, file.readAt (j + 1) n = (blocks.drop j).take n := by
  induction n with
  | zero =>
    intro j
    rfl
  | succ n ih =>
    intro j
    rw [CLogFile.readAt, h j]
    cases hj : blocks[j]? with
    | none =>
      rw [List.getElem?_eq_none_iff] at hj
      rw [List.drop_of_length_le hj, List.take_nil]
    | some block =>
      obtain ⟨hlt, rfl⟩ := List.getElem?_eq_some_iff.mp hj
      rw [List.drop_eq_getElem_cons hlt, List.take_succ_cons]
      simp only [ih]

/-- What is in the buffer after a batch has been read. -/
theorem map_getD_eq {blocks : List CLogBlock} {n : ℕ} (h : blocks.length ≤ n) (f : ℕ → CLogBlock) :
    ((List.range n).map fun i => blocks[i]?.getD (f i)) =
      blocks ++ (List.range' blocks.length (n - blocks.length)).map f := by
  refine List.ext_getElem (by simp; omega) fun i h₁ h₂ => ?_
  rw [List.getElem_map, List.getElem_range, List.getElem_append]
  split
  · rename_i hi
    rw [List.getElem?_eq_getElem hi, Option.getD_some]
  · rename_i hi
    rw [List.getElem?_eq_none (by omega), Option.getD_none, List.getElem_map, List.getElem_range']
    congr 1
    omega

namespace Recovery

theorem recoverBlocks_append (blocks blocks' : List CLogBlock) : ∀ s : Recovery,
    s.recoverBlocks (blocks ++ blocks') = (s.recoverBlocks blocks).bind fun r =>
      if r.2 then some r else r.1.recoverBlocks blocks' := by
  induction blocks with
  | nil =>
    intro s
    rfl
  | cons block blocks ih =>
    intro s
    rw [List.cons_append, recoverBlocks, recoverBlocks]
    cases hblock : s.recoverBlock block with
    | none => rfl
    | some r =>
      obtain ⟨s', last⟩ := r
      cases last with
      | true => rfl
      | false => exact ih s'

/-- The last block of the log is the one that is not full. -/
theorem recoverBlock_last {s : Recovery} {block : CLogBlock} {r : Recovery × Bool}
    (h : s.recoverBlock block = some r) :
    r.2 = decide (block.logDataLen < clogBlockDataSize) := by
  unfold recoverBlock at h
  simp only [Option.bind_eq_bind, Option.bind_eq_some_iff] at h
  obtain ⟨s', -, h⟩ := h
  split at h <;> cases h <;> simp_all

theorem recoverBlocks_last {blocks : List CLogBlock} : ∀ {s : Recovery} {r : Recovery × Bool},
    s.recoverBlocks blocks = some r →
    (r.2 = true ↔ ∃ block ∈ blocks, block.logDataLen < clogBlockDataSize) := by
  induction blocks with
  | nil =>
    intro s r h
    cases h
    simp
  | cons block blocks ih =>
    intro s r h
    rw [recoverBlocks] at h
    simp only [Option.bind_eq_bind, Option.bind_eq_some_iff] at h
    obtain ⟨⟨s', last⟩, hblock, h⟩ := h
    have hlast := recoverBlock_last hblock
    simp only at hlast h
    subst hlast
    by_cases hlt : block.logDataLen < clogBlockDataSize
    · rw [if_pos (decide_eq_true hlt)] at h
      cases h
      simp [hlt]
    · rw [if_neg (by simpa using hlt)] at h
      simp [ih h, hlt]

end Recovery

/-- A file whose last block ends the loop is gone through block by block. -/
theorem recoverLoop_eq_some {file : CLogFile} {blocks : List CLogBlock} (h : file.Consists blocks)
    (fuel : ℕ) : ∀ {j : ℕ} {redoBuffer : ℕ → CLogBlock} {s r : Recovery},
    CLogFile.redoBlocks ∣ j →
    (CLogFile.redoBlocks ∣ blocks.length ∨
      ∃ block ∈ blocks.drop j, block.logDataLen < clogBlockDataSize) →
    file.recoverLoop fuel (j + 1) redoBuffer s = some r →
    ∃ s' last, s.recoverBlocks (blocks.drop j) = some (s', last) ∧ s'.done = some r := by
  induction fuel with
  | zero =>
    intro j redoBuffer s r _ _ hrun
    cases hrun
  | succ fuel ih =>
    intro j redoBuffer s r hj hread hrun
    obtain ⟨batch, hbatch⟩ : ∃ batch, batch = (blocks.drop j).take CLogFile.redoBlocks := ⟨_, rfl⟩
    have hsplit : blocks.drop j = batch ++ blocks.drop (j + CLogFile.redoBlocks) := by
      rw [hbatch, ← List.drop_drop, List.take_append_drop]
    have hlen : batch.length ≤ CLogFile.redoBlocks := by
      rw [hbatch]
      exact List.length_take_le _ _
    unfold CLogFile.recoverLoop at hrun
    rw [readAt_eq h, ← hbatch] at hrun
    by_cases hnil : batch = []
    · -- the file has been read
      have hall : blocks.drop j = [] := by
        rw [hnil, eq_comm, List.take_eq_nil_iff] at hbatch
        exact hbatch.resolve_left (by decide)
      simp only [if_pos hnil] at hrun
      exact ⟨s, false, by rw [hall]; rfl, hrun⟩
    simp only [if_neg hnil, map_getD_eq hlen, Recovery.recoverBlocks_append, Option.bind_eq_bind,
      Option.bind_eq_some_iff] at hrun
    obtain ⟨⟨s₂, last₂⟩, ⟨⟨s₁, last₁⟩, hbatchRun, hrest⟩, hrun⟩ := hrun
    have hlast := Recovery.recoverBlocks_last hbatchRun
    rw [hsplit, Recovery.recoverBlocks_append, hbatchRun]
    cases last₁ with
    | true =>
      cases hrest
      exact ⟨_, true, rfl, hrun⟩
    | false =>
      -- a batch without the last block of the log is a whole one
      have hno : ¬ ∃ block ∈ batch, block.logDataLen < clogBlockDataSize := by simpa using hlast
      have hnext : CLogFile.redoBlocks ∣ blocks.length ∨
          ∃ block ∈ blocks.drop (j + CLogFile.redoBlocks), block.logDataLen < clogBlockDataSize := by
        refine hread.imp_right fun ⟨block, hblock, hlt⟩ => ⟨block, ?_, hlt⟩
        rw [hsplit, List.mem_append] at hblock
        exact hblock.resolve_left fun hmem => hno ⟨block, hmem, hlt⟩
      have hwhole : batch.length = CLogFile.redoBlocks := by
        have hpos := List.length_pos_of_ne_nil hnil
        rw [hbatch, List.length_take, List.length_drop] at hpos ⊢
        rcases hnext with hdvd | ⟨block, hblock, -⟩
        · have := Nat.le_of_dvd (by omega) (Nat.dvd_sub hdvd hj)
          omega
        · have := List.length_pos_of_mem hblock
          rw [List.length_drop] at this
          omega
      rw [hwhole, Nat.sub_self] at hrest
      cases hrest
      simp only [Bool.false_eq_true, if_false] at hrun
      rw [hwhole, Nat.add_right_comm] at hrun
      exact ih (Nat.dvd_add hj (dvd_refl _)) hnext hrun

/-! ## The buffer in which the log goes on -/

namespace Recovery

theorem deliver_logBuffer {s s' : Recovery} {logRec : Option DecodedRecord}
    (h : s.deliver logRec = some s') : s'.logBuffer = s.logBuffer := by
  cases logRec with
  | none =>
    cases h
    rfl
  | some logRec =>
    simp only [deliver, Option.bind_eq_bind, Option.bind_eq_some_iff] at h
    obtain ⟨next, -, h⟩ := h
    cases h
    rfl

theorem recoverRecords_logBuffer {block : CLogBlock} (fuel : ℕ) :
    ∀ {offset : ℕ} {s s' : Recovery}, recoverRecords block fuel offset s = some s' →
      s'.logBuffer = s.logBuffer := by
  induction fuel with
  | zero =>
    intro offset s s' h
    cases h
  | succ fuel ih =>
    intro offset s s' h
    unfold recoverRecords at h
    split at h
    · simp only [Option.bind_eq_bind, Option.bind_eq_some_iff] at h
      obtain ⟨⟨offset', buf, logRec⟩, -, s₁, hdeliver, h⟩ := h
      rw [ih h, deliver_logBuffer hdeliver]
    · cases h
      rfl

theorem done_logBuffer {s s' : Recovery} (h : s.done = some s') : s'.logBuffer = s.logBuffer := by
  unfold done at h
  split at h
  · simp only [Option.bind_eq_bind, Option.bind_eq_some_iff] at h
    obtain ⟨logRec, -, h⟩ := h
    cases h
    rfl
  · cases h
    rfl

/-- A full block leaves its number only; a block that is not full goes to the buffer. -/
theorem recoverBlock_logBuffer {s : Recovery} {block : CLogBlock} {r : Recovery × Bool}
    (h : s.recoverBlock block = some r) :
    r.1.logBuffer =
      if block.logDataLen < clogBlockDataSize then
        ⟨block.logBlockNo, 0, block.logDataLen + clogBlockHdrSize,
          Function.update s.logBuffer.buffer 0 block⟩
      else { s.logBuffer with currentBlockNo := block.logBlockNo } := by
  unfold recoverBlock at h
  simp only [Option.bind_eq_bind, Option.bind_eq_some_iff] at h
  obtain ⟨s', hrecords, h⟩ := h
  have hbuffer := recoverRecords_logBuffer _ hrecords
  split at h
  · rename_i hlt
    cases h
    simp only [if_pos hlt, hbuffer, CLogBuffer.setBlock, Nat.zero_div]
  · rename_i hlt
    cases h
    simp only [if_neg hlt, hbuffer]

/-- Full blocks leave the number of the last one. -/
theorem recoverBlocks_logBuffer {blocks : List CLogBlock} : ∀ {s : Recovery} {r : Recovery × Bool}
    {n : ℕ}, s.logBuffer.currentBlockNo = clogBlockSize * n →
    (∀ i block, blocks[i]? = some block → block.logBlockNo = clogBlockSize * (n + i + 1)) →
    (∀ block ∈ blocks, block.logDataLen = clogBlockDataSize) →
    s.recoverBlocks blocks = some r →
    r = (r.1, false) ∧
      r.1.logBuffer =
        { s.logBuffer with currentBlockNo := clogBlockSize * (n + blocks.length) } := by
  induction blocks with
  | nil =>
    intro s r n hno _ _ h
    cases h
    refine ⟨rfl, ?_⟩
    rw [List.length_nil, Nat.add_zero, ← hno]
  | cons block blocks ih =>
    intro s r n hno hnumbered hfull h
    rw [recoverBlocks] at h
    simp only [Option.bind_eq_bind, Option.bind_eq_some_iff] at h
    obtain ⟨⟨s', last⟩, hblock, h⟩ := h
    have hlen : ¬ block.logDataLen < clogBlockDataSize :=
      (hfull block List.mem_cons_self).not_lt
    have hlast := recoverBlock_last hblock
    have hbuffer := recoverBlock_logBuffer hblock
    simp only [decide_eq_false hlen, if_neg hlen] at hlast hbuffer
    subst hlast
    have hno' : s'.logBuffer.currentBlockNo = clogBlockSize * (n + 1) := by
      rw [hbuffer]
      exact hnumbered 0 block rfl
    obtain ⟨hr, hbuffer'⟩ := ih hno' (fun i b hb => by
      rw [hnumbered (i + 1) b hb]
      congr 1
      omega) (fun b hb => hfull b (List.mem_cons_of_mem _ hb)) h
    refine ⟨hr, ?_⟩
    rw [hbuffer', hbuffer, List.length_cons, Nat.add_assoc n 1, Nat.add_comm 1]

end Recovery

namespace CLogManager

variable {m : CLogManager} {full : List CLogBlock} {tail : Option CLogBlock}

/-- The blocks of the file. -/
theorem Kept.consists (h : m.Kept full tail) : m.logFile.Consists (full ++ tail.toList) := by
  intro i
  rcases lt_trichotomy i full.length with hi | rfl | hi
  · rw [List.getElem?_append_left hi]
    exact h.flushed.stored i hi
  · rw [List.getElem?_append_right le_rfl, Nat.sub_self, h.last]
    cases tail <;> rfl
  · rw [h.flushed.beyond _ (by omega), eq_comm, List.getElem?_eq_none_iff, List.length_append]
    cases tail <;> simp <;> omega

/-- After a restart that has found the end of the log, the buffer holds what the file has behind
its full blocks. -/
theorem Kept.restart (h : m.Kept full tail) (hread : m.logFile.Readable) {fuel : ℕ}
    {stack : ℕ → CLogBlock} {m' : CLogManager} {s : Recovery}
    (hrun : m.restart fuel stack = some (m', s)) :
    m'.Kept full tail ∧ m'.logBuffer.held = tail.toList ∧ m'.logFile = m.logFile := by
  unfold CLogManager.restart at hrun
  simp only [Option.bind_eq_bind, Option.bind_eq_some_iff] at hrun
  obtain ⟨s₀, hrecover, hm'⟩ := hrun
  cases hm'
  obtain ⟨blocks, hblocks, hlast⟩ := hread
  obtain rfl := hblocks.unique h.consists
  obtain ⟨s₂, last, hall, hdone⟩ := recoverLoop_eq_some hblocks fuel (dvd_zero _) hlast hrecover
  rw [List.drop_zero, Recovery.recoverBlocks_append, Option.bind_eq_some_iff] at hall
  obtain ⟨⟨s₁, last₁⟩, hfull, htail⟩ := hall
  obtain ⟨hr, hbuffer₁⟩ := Recovery.recoverBlocks_logBuffer (n := 0) rfl
    (fun i block hblock => by rw [h.flushed.numbered i block hblock, Nat.zero_add])
    h.flushed.full hfull
  obtain ⟨-, rfl⟩ := Prod.mk.inj hr
  have hbuffer := Recovery.done_logBuffer hdone
  simp only [Bool.false_eq_true, if_false, Nat.zero_add] at htail hbuffer₁
  cases tail with
  | none =>
    cases htail
    have hv : s.logBuffer.Vacant full.length := by
      rw [hbuffer, hbuffer₁]
      exact ⟨rfl, rfl, rfl, rfl⟩
    exact ⟨⟨h.flushed, h.last, by simp, by simp, by simp, Or.inl hv⟩, hv.held_eq, rfl⟩
  | some block =>
    obtain ⟨hne, hlt⟩ := h.notFull block rfl
    rw [Option.toList_some, Recovery.recoverBlocks] at htail
    simp only [Option.bind_eq_bind, Option.bind_eq_some_iff] at htail
    obtain ⟨⟨s₃, last₃⟩, hblock, htail⟩ := htail
    have hbuffer₃ := Recovery.recoverBlock_logBuffer hblock
    have hlast₃ := Recovery.recoverBlock_last hblock
    simp only [if_pos hlt, decide_eq_true hlt] at hbuffer₃ hlast₃
    subst hlast₃
    cases htail
    rw [hbuffer₃, hbuffer₁] at hbuffer
    have hb : s.logBuffer.Holding full.length 0 := by
      rw [hbuffer]
      constructor
      · rfl
      · decide
      · simp only [Function.update_self]
        omega
      · simpa using hlt.le
      · simp
      · intro j hj
        obtain rfl : j = 0 := by omega
        simpa using h.numbered block rfl
      · simpa using h.numbered block rfl
    have hfront : s.logBuffer.buffer 0 = block := by
      rw [hbuffer]
      simp
    have hheld : s.logBuffer.held = [block] := by
      rw [hb.held_eq, ← hfront]
      rfl
    refine ⟨⟨h.flushed, h.last, h.numbered, h.notFull, ?_, Or.inr ⟨0, hb, ?_⟩⟩, hheld, rfl⟩
    · intro block' hblock'
      cases hblock'
      exact ⟨block, by rw [hheld]; rfl, .refl _⟩
    · rw [hfront]
      exact hne

end CLogManager

/-! ## Appending a record -/

namespace CLogManager

/-- The states of the log after a run of calls and restarts. Every restart finds the end of the
log. -/
inductive Reached (fhd : CLogBlock) : CLogManager → Prop
  | fresh : Reached fhd (fresh fhd)
  | append {m m' : CLogManager} {logRec : CLogRecord} {rc : RC} (h : Reached fhd m)
      (hlen : logRec.getLogrecLen ≤ clogRedoBufferSize)
      (hrun : m.clogAppendRecord logRec = some (rc, m')) : Reached fhd m'
  | sync {m m' : CLogManager} (h : Reached fhd m) (hrun : m.clogSync = some m') : Reached fhd m'
  | restart {m m' : CLogManager} {fuel : ℕ} {stack : ℕ → CLogBlock} {s : Recovery}
      (h : Reached fhd m) (hread : m.logFile.Readable)
      (hrun : m.restart fuel stack = some (m', s)) : Reached fhd m'

theorem Reached.kept {fhd : CLogBlock} {m : CLogManager} (h : Reached fhd m) :
    ∃ full tail, m.Kept full tail := by
  induction h with
  | fresh => exact ⟨[], none, kept_fresh fhd⟩
  | append _ hlen hrun ih =>
    obtain ⟨full, tail, hk⟩ := ih
    obtain ⟨rc', m', full', tail', hrun', hk', -⟩ := hk.append _ (hlen.trans (by decide))
    rw [hrun] at hrun'
    cases hrun'
    exact ⟨full', tail', hk'⟩
  | sync _ hrun ih =>
    obtain ⟨full, tail, hk⟩ := ih
    obtain ⟨m', full', tail', hrun', hk', -⟩ := hk.sync
    rw [hrun] at hrun'
    cases hrun'
    exact ⟨full', tail', hk'⟩
  | restart _ hread hrun ih =>
    obtain ⟨full, tail, hk⟩ := ih
    exact ⟨full, tail, (hk.restart hread hrun).1⟩

/-- The bytes of the log: those of the blocks of the file and the buffer. -/
def Content (m : CLogManager) (log : List UInt8) : Prop :=
  ∃ blocks, m.LogArea blocks ∧ logBytes blocks = log

theorem Kept.content {m : CLogManager} {full : List CLogBlock} {tail : Option CLogBlock}
    (h : m.Kept full tail) : m.Content (logBytes (full ++ m.logBuffer.held)) := by
  have hw : m.Written (logBytes (full ++ m.logBuffer.held)) := by
    rcases h.buffer with hv | ⟨k, hb, -⟩
    · rw [hv.held_eq, List.append_nil]
      exact .vacant full h.flushed (h.last.trans (h.tail_eq_none hv)) hv
    · rw [logBytes_append, hb.logBytes_held]
      exact .holding full k h.flushed hb
  exact hw.logArea

end CLogManager

/-- The bytes of the log in the file. -/
def CLogFile.Content (file : CLogFile) (log : List UInt8) : Prop :=
  ∃ blocks, file.Consists blocks ∧ logBytes blocks = log

namespace CLogManager

/-- The call succeeds, the record is behind the log in the file and the buffer, and when the record
ends a transaction all of this is in the file. -/
def AppendCompletes (m : CLogManager) (logRec : CLogRecord) : Prop :=
  ∃ log m', m.Content log ∧ m.clogAppendRecord logRec = some (.success, m') ∧
    m'.Content (log ++ logRec.encoding) ∧
    (logRec.getLogType = .redoMtrCommit → m'.logFile.Content (log ++ logRec.encoding))

/-- In every state that is reached, the call does all that it should if and only if the record fits
into the buffer as a whole. -/
theorem append_completes_iff {fhd : CLogBlock} {m : CLogManager} (h : Reached fhd m)
    (logRec : CLogRecord) (hlen : logRec.getLogrecLen ≤ clogRedoBufferSize) :
    m.AppendCompletes logRec ↔
      (logBytes m.logBuffer.held).length + logRec.getLogrecLen ≤ CLogBuffer.capacity := by
  obtain ⟨full, tail, hk⟩ := h.kept
  obtain ⟨rc, m', full', tail', hrun, hk', hbytes, -, hrc, hcommit⟩ :=
    hk.append logRec (hlen.trans (by decide))
  rw [← hrc]
  constructor
  · rintro ⟨log, m₁, -, hrun₁, -⟩
    rw [hrun] at hrun₁
    cases hrun₁
    rfl
  · rintro rfl
    refine ⟨_, m', hk.content, hrun, ?_, fun htype => ⟨_, hk'.consists, ?_⟩⟩
    · rw [← hbytes]
      exact hk'.content
    · rw [hcommit rfl htype, hbytes]

theorem first_append_completes :
    (fresh .zero).AppendCompletes (.mtr true 0 1) ↔
      (logBytes (fresh .zero).logBuffer.held).length +
        (CLogRecord.mtr true 0 1).getLogrecLen ≤ CLogBuffer.capacity :=
  append_completes_iff (@Reached.fresh .zero) (.mtr true 0 1) (by decide)

end CLogManager

/-! ## A full buffer -/

/-- An insertion of 4048 bytes, whose record has 4096 bytes. -/
def longInsert : CLogRecord :=
  .ins 0 1 .zero ⟨1, 0⟩ (List.replicate 4048 0) [] (by
    rw [List.length_replicate]
    rfl)

theorem getLogrecLen_longInsert : longInsert.getLogrecLen = 4096 := by
  rw [longInsert, CLogRecord.getLogrecLen, List.length_replicate]
  rfl

/-- As long as they fit, such insertions stay in the buffer. -/
theorem runLog_longInsert (n : ℕ) (hn : 4096 * n ≤ CLogBuffer.capacity) :
    ∃ m, runLog (List.replicate n (.append longInsert)) (.fresh .zero) = some m ∧
      m.Kept [] none ∧ (logBytes m.logBuffer.held).length = 4096 * n := by
  induction n with
  | zero => exact ⟨_, rfl, CLogManager.kept_fresh .zero, rfl⟩
  | succ n ih =>
    obtain ⟨m, hrun, hk, hlen⟩ := ih (by omega)
    obtain ⟨m', happend, hk', hbytes⟩ := hk.append_of_fits longInsert (by decide)
      (by rw [hlen, getLogrecLen_longInsert]; omega)
    refine ⟨m', ?_, hk', ?_⟩
    · rw [List.replicate_succ', runLog, List.foldlM_append, ← runLog, hrun]
      simp [LogOp.step, happend]
    · rw [hbytes, List.length_append, hlen, longInsert.encoding_length, getLogrecLen_longInsert]
      omega

/-- When 1008 insertions of 4096 bytes have filled the buffer, the record that commits their
transaction is not written to the file, and the call fails. -/
theorem commit_in_full_buffer :
    ∃ m, runLog (List.replicate 1008 (.append longInsert)) (.fresh .zero) = some m ∧
      ¬ m.AppendCompletes (.mtr true 0 1) := by
  obtain ⟨m, hrun, hk, hlen⟩ := runLog_longInsert 1008 (by decide)
  refine ⟨m, hrun, ?_⟩
  obtain ⟨rc, m', full', tail', happend, -, -, -, hrc, -⟩ := hk.append (.mtr true 0 1) (by decide)
  rintro ⟨log, m₁, -, hrun₁, -⟩
  rw [happend] at hrun₁
  cases hrun₁
  have hfits := hrc.mp rfl
  rw [hlen] at hfits
  revert hfits
  decide

end Miniob.Storage.Clog
