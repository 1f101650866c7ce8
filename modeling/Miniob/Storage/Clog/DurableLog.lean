import Miniob.Storage.Clog.LogNumbers

/-!
# The log is read back

A log is written by one process after the other. Each of them starts with what recovery reads from
the file, appends its records behind the ones that are there, and ends at some moment with what it
has written out.

* `Seen`: the reader sees each record start.
* `recover_returns`: then recovery comes to its end, with all records in their order.
* `LogBook`: what the log is for, a list of entries that are written and a list of those that wait.
* `durable_log`: every restart hands over the entries that have been written, as they were given to
  the log, and the log goes on behind them.
-/

namespace Miniob.Storage.Clog

open Miniob.Lib

/-! ## Records that can be read -/

/-- The record is read as this one, whatever is behind it. -/
def CLogRecord.Shows (r : CLogRecord) (d : DecodedRecord) : Prop :=
  ∀ rest, DecodedRecord.decode (r.encoding ++ rest) = some d

/-- The record comes back if its bytes do: they fit into the buffer of the reader. -/
structure CLogRecord.Legible (r : CLogRecord) : Prop where
  inRange : r.InRange
  short : r.getLogrecLen ≤ clogRedoBufferSize
  shows : ∃ d, r.Shows d

/-- The reader sees that each of the records starts. -/
def Seen : ℕ → List CLogRecord → Prop
  | _, [] => True
  | pos, r :: rs => ¬ r.Blind pos ∧ Seen (pos + r.getLogrecLen) rs

theorem seen_append (rs rs' : List CLogRecord) : ∀ pos,
    Seen pos (rs ++ rs') ↔ Seen pos rs ∧ Seen (pos + (encodings rs).length) rs' := by
  induction rs with
  | nil =>
    intro pos
    simp [Seen]
  | cons r rs ih =>
    intro pos
    rw [List.cons_append, Seen, Seen, ih, encodings_cons, List.length_append, r.encoding_length,
      and_assoc, Nat.add_assoc]

/-- Then all records are found, but for the last one when the log ends with it. -/
theorem replay_of_seen (rs : List CLogRecord) : ∀ (pos : ℕ) (waiting : List CLogRecord),
    waiting.length ≤ 1 → Seen pos rs →
    (replay pos waiting rs).1 ++ (replay pos waiting rs).2 = waiting ++ rs ∧
      (replay pos waiting rs).2.length ≤ 1 := by
  induction rs with
  | nil =>
    intro pos waiting hwaiting _
    exact ⟨by simp [replay], hwaiting⟩
  | cons r rs ih =>
    intro pos waiting hwaiting hseen
    have hhead : waiting.head?.toList = waiting := by
      rcases waiting with _ | ⟨w, _ | ⟨w', ws⟩⟩
      · rfl
      · rfl
      · simp at hwaiting
    rw [replay, if_neg hseen.1]
    split
    · obtain ⟨happend, hlen⟩ := ih _ [r] le_rfl hseen.2
      refine ⟨?_, hlen⟩
      rw [hhead, List.append_assoc, happend]
      rfl
    · obtain ⟨happend, hlen⟩ := ih _ [] (Nat.zero_le _) hseen.2
      refine ⟨?_, hlen⟩
      rw [hhead, List.append_assoc, List.cons_append, happend]
      rfl

/-! ## The end of a record in later blocks -/

section

variable {r : CLogRecord} {rs : List CLogRecord} {block : CLogBlock} {blocks : List CLogBlock}
  {k : ℕ} (h : ReadMid block blocks r k rs)

include h

/-- The record ends in the block, and the next one is read behind it. -/
theorem ReadMid.finish (hshort : r.getLogrecLen - k ≤ clogBlockDataSize) :
    block.firstRecOffset = clogBlockHdrSize + (r.getLogrecLen - k) ∧
      block.data.take (r.getLogrecLen - k) = r.encoding.drop k ∧
      ReadAt block (clogBlockHdrSize + (r.getLogrecLen - k)) blocks rs := by
  have hpos := h.pos
  have hlt := h.lt
  have hle := (h.packed.1 block List.mem_cons_self).2
  have hdrop : (r.encoding.drop k).length = r.getLogrecLen - k := by
    rw [List.length_drop, r.encoding_length]
  have hfull : ∀ {i : ℕ} {next : CLogBlock}, blocks[i]? = some next → block.logDataLen = clogBlockDataSize := by
    intro i next hnext
    cases hblocks : blocks with
    | nil =>
      rw [hblocks] at hnext
      cases hnext
    | cons b rest =>
      have hpacked := h.packed
      rw [hblocks] at hpacked
      exact hpacked.full
  have hfit : r.getLogrecLen - k ≤ block.logDataLen := by
    cases hblocks : blocks with
    | nil =>
      have := congrArg List.length h.bytes
      rw [hblocks, List.length_append, List.length_append, CLogBlock.logData_length hle, hdrop,
        logBytes_nil, List.length_nil] at this
      omega
    | cons next rest => exact hshort.trans (hfull (i := 0) (by rw [hblocks]; rfl)).ge
  have hlen : r.getLogrecLen - k ≤ block.logData.length :=
    hfit.trans (CLogBlock.logData_length hle).ge
  have htake := congrArg (List.take (r.getLogrecLen - k)) h.bytes
  rw [List.take_append_of_le_length hlen, ← hdrop, List.take_left, hdrop] at htake
  have hrest := congrArg (List.drop (r.getLogrecLen - k)) h.bytes
  rw [List.drop_append_of_le_length hlen, ← hdrop, List.drop_left, hdrop] at hrest
  refine ⟨?_, ?_, h.packed, Nat.le_add_right _ _, Nat.add_le_add_left hfit _, ?_, ?_, ?_⟩
  · rw [h.firstRecOffset, CLogRecord.frame, if_pos hshort, if_neg hpos.ne']
  · rw [← htake, CLogBlock.logData, List.take_take, Nat.min_eq_left hfit]
  · rw [Nat.add_sub_cancel_left, hrest]
  · intro hoff
    omega
  · intro i next hnext
    rw [h.frame (i + 1) next hnext, frameAt, if_neg (by rw [Nat.mul_succ]; omega), hfull hnext,
      Nat.mul_succ]
    congr 1
    omega

/-- The whole block belongs to the record, which goes on in the next one. -/
theorem ReadMid.pass (hlong : clogBlockDataSize < r.getLogrecLen - k) :
    block.firstRecOffset = clogBlockSize ∧ block.logDataLen = clogBlockDataSize ∧
      block.data = (r.encoding.drop k).take clogBlockDataSize ∧
      ∃ next rest, blocks = next :: rest ∧ ReadMid next rest r (k + clogBlockDataSize) rs := by
  have hpos := h.pos
  have hle := (h.packed.1 block List.mem_cons_self).2
  have hdrop : (r.encoding.drop k).length = r.getLogrecLen - k := by
    rw [List.length_drop, r.encoding_length]
  have hbytes := h.bytes
  cases hblocks : blocks with
  | nil =>
    have := congrArg List.length hbytes
    rw [hblocks, List.length_append, List.length_append, CLogBlock.logData_length hle, hdrop,
      logBytes_nil, List.length_nil] at this
    omega
  | cons next rest =>
    have hpacked := h.packed
    rw [hblocks] at hpacked
    have hfull := hpacked.full
    rw [CLogBlock.logData_of_full hfull, hblocks] at hbytes
    have htake := congrArg (List.take clogBlockDataSize) hbytes
    have hrest := congrArg (List.drop clogBlockDataSize) hbytes
    rw [← block.data_length, List.take_left, block.data_length,
      List.take_append_of_le_length (by omega)] at htake
    rw [← block.data_length, List.drop_left, block.data_length,
      List.drop_append_of_le_length (by omega), List.drop_drop] at hrest
    refine ⟨?_, hfull, htake, next, rest, rfl, hpacked.tail, by omega, by omega, hrest, ?_⟩
    · rw [h.firstRecOffset, CLogRecord.frame, if_neg (by omega)]
    · intro i b hb
      rw [h.frame (i + 1) b (by rw [hblocks]; exact hb), Nat.mul_succ]
      congr 1
      omega

end

/-! ## Recovery returns -/

namespace Recovery

variable {s : Recovery} {block : CLogBlock} {blocks : List CLogBlock} {r : CLogRecord}
  {rs : List CLogRecord}

/-- Bytes that fit are put into the buffer. -/
theorem keep_of_le (s : Recovery) (bytes : List UInt8)
    (h : s.logrecBuf.bytes.length + bytes.length ≤ clogRedoBufferSize) :
    s.keep bytes = some { s with logrecBuf := ⟨s.logrecBuf.bytes ++ bytes⟩ } := by
  rw [keep, CLogRecordBuf.append, if_pos h]
  rfl

/-- A record that can be read is handed over. -/
theorem deliver_shown (hr : r.Legible) {bytes : List UInt8} (hbytes : r.encoding <+: bytes)
    (s : Recovery) :
    ∃ s', ((DecodedRecord.decode bytes).bind fun logRec => s.deliver (some logRec)) = some s' ∧
      s'.logrecBuf = s.logrecBuf := by
  obtain ⟨rest, rfl⟩ := hbytes
  obtain ⟨d, hd⟩ := hr.shows
  have hnext := CLogRecord.nextLsn_of_decode hr.inRange (hd rest)
  refine ⟨{ s with gloablLsn := r.hdr.lsn + r.getLogrecLen, records := s.records ++ [d] }, ?_, rfl⟩
  rw [hd rest]
  simp [deliver, hnext]

/-- The record in the buffer is handed over. -/
theorem release_shown (hr : r.Legible) (hbuf : s.logrecBuf.bytes = r.encoding) :
    ∃ s', s.release = some s' ∧ s'.logrecBuf = .empty := by
  have hbytes : r.encoding <+: s.logrecBuf.bytes ++
      List.replicate (clogRedoBufferSize - s.logrecBuf.bytes.length) 0 := by
    rw [hbuf]
    exact List.prefix_append _ _
  exact deliver_shown hr hbytes { s with logrecBuf := .empty }

/-- Enough fuel from an offset on. -/
def Fueled (block : CLogBlock) (offset fuel : ℕ) : Prop :=
  2 * (clogBlockHdrSize + block.logDataLen - offset) + 2 ≤ fuel

/-- A whole block has enough fuel. -/
theorem fueled_blockFuel (h : block.logDataLen ≤ clogBlockDataSize) :
    Fueled block clogBlockHdrSize blockFuel := by
  unfold Fueled blockFuel
  omega

/-- At the end of the last block the reader returns. -/
theorem readFrom_last {fuel : ℕ} (hfuel : 0 < fuel) (s : Recovery) :
    ∃ s', s.readFrom block fuel (clogBlockHdrSize + block.logDataLen) [] = some s' := by
  obtain ⟨fuel, rfl⟩ := Nat.exists_eq_succ_of_ne_zero hfuel.ne'
  rw [readFrom, recoverRecords, if_neg (lt_irrefl _), Option.bind_some]
  split
  · exact ⟨_, rfl⟩
  · exact ⟨_, rfl⟩

/-- At the end of a full block the next one is read. -/
theorem readFrom_full (next : CLogBlock) (blocks : List CLogBlock) {fuel : ℕ} (hfuel : 0 < fuel)
    (hfull : block.logDataLen = clogBlockDataSize) (s : Recovery) :
    ∃ s₁ : Recovery, s₁.logrecBuf = s.logrecBuf ∧
      s.readFrom block fuel clogBlockSize (next :: blocks) =
        s₁.readFrom next blockFuel clogBlockHdrSize blocks := by
  obtain ⟨fuel, rfl⟩ := Nat.exists_eq_succ_of_ne_zero hfuel.ne'
  have hend : ¬ clogBlockSize < clogBlockHdrSize + block.logDataLen := by
    rw [hfull]
    decide
  refine ⟨{ s with logBuffer := { s.logBuffer with currentBlockNo := next.logBlockNo } }, rfl, ?_⟩
  rw [readFrom, recoverRecords, if_neg hend, Option.bind_some, if_neg hfull.not_lt,
    recoverBlocks_cons]

/-- The end of a record comes into the buffer, if the reader returns from there on. By induction on
the bytes that are missing. -/
theorem readFrom_middle_returns (hlen : r.getLogrecLen ≤ clogRedoBufferSize) {pos : ℕ}
    (hcont : ∀ (block : CLogBlock) (blocks : List CLogBlock) (offset fuel : ℕ) (s : Recovery),
      ReadAt block offset blocks rs → s.logrecBuf.bytes = r.encoding →
      pos % clogBlockDataSize = (offset - clogBlockHdrSize) % clogBlockDataSize →
      Fueled block offset fuel → ∃ s', s.readFrom block fuel offset blocks = some s')
    (n : ℕ) : ∀ {block : CLogBlock} {blocks : List CLogBlock} {k fuel : ℕ} {s : Recovery},
      r.getLogrecLen - k = n → ReadMid block blocks r k rs →
      s.logrecBuf.bytes = r.encoding.take k →
      pos % clogBlockDataSize = n % clogBlockDataSize →
      Fueled block clogBlockHdrSize fuel →
      ∃ s', s.readFrom block fuel clogBlockHdrSize blocks = some s' := by
  induction n using Nat.strong_induction_on with
  | _ n ih =>
    intro block blocks k fuel s hn h hbuf hpos hfuel
    have hk := h.pos
    have hlt := h.lt
    obtain ⟨hne, hle⟩ := h.packed.1 block List.mem_cons_self
    have htake : (r.encoding.take k).length = k := by
      rw [List.length_take, r.encoding_length]
      omega
    have hdrop : (r.encoding.drop k).length = r.getLogrecLen - k := by
      rw [List.length_drop, r.encoding_length]
    unfold Fueled at hfuel
    obtain ⟨fuel, rfl⟩ := Nat.exists_eq_succ_of_ne_zero (by omega : fuel ≠ 0)
    by_cases hshort : r.getLogrecLen - k ≤ clogBlockDataSize
    · obtain ⟨hfirst, hdata, hread⟩ := h.finish hshort
      have hkeep := keep_of_le s (r.encoding.drop k) (by
        rw [hbuf, htake, hdrop]
        omega)
      rw [readFrom, recoverRecords_middle fuel hne (by omega) (by omega) (by
        rw [hfirst]
        exact Nat.add_le_add_left hshort _), hfirst, Nat.add_sub_cancel_left, hdata, hkeep]
      refine hcont block blocks _ fuel _ hread ?_ ?_ ?_
      · rw [hbuf, List.take_append_drop]
      · rw [hpos, Nat.add_sub_cancel_left, hn]
      · unfold Fueled
        omega
    · obtain ⟨hfirst, hfull, hdata, next, rest, rfl, hmid⟩ := h.pass (not_le.mp hshort)
      have hpart : ((r.encoding.drop k).take clogBlockDataSize).length = clogBlockDataSize := by
        rw [List.length_take, hdrop]
        omega
      have hall : block.data.take (clogBlockSize - clogBlockHdrSize) =
          (r.encoding.drop k).take clogBlockDataSize := by
        rw [← hdata, List.take_of_length_le]
        rw [block.data_length]
        decide
      have hkeep := keep_of_le s ((r.encoding.drop k).take clogBlockDataSize) (by
          rw [hbuf, htake, hpart]
          omega)
      rw [readFrom, recoverRecords_middle fuel hne (by rw [hfirst]; decide)
        (by rw [hfirst]; decide) hfirst.le, hfirst, hall, hkeep]
      obtain ⟨s₁, hs₁, hnext⟩ := readFrom_full next rest (show 0 < fuel by omega) hfull
        { s with logrecBuf := ⟨s.logrecBuf.bytes ++ (r.encoding.drop k).take clogBlockDataSize⟩ }
      rw [readFrom] at hnext
      rw [Option.bind_some, hnext]
      refine ih (n - clogBlockDataSize) (by omega) (by omega) hmid ?_ ?_
        (fueled_blockFuel (h.packed.1 next (by simp)).2)
      · rw [hs₁, hbuf, ← List.take_add]
      · rw [hpos, Nat.mod_eq_sub_mod (by omega)]

/-- From the last bytes of a block on, the rest of a record comes into the empty buffer. -/
theorem readFrom_cross_returns {offset pos fuel : ℕ} (h : ReadAt block offset blocks (r :: rs))
    (hlt : offset < clogBlockHdrSize + block.logDataLen)
    (hcross : clogBlockSize - offset < r.getLogrecLen)
    (hlen : r.getLogrecLen ≤ clogRedoBufferSize)
    (hpos : pos % clogBlockDataSize = (offset - clogBlockHdrSize) % clogBlockDataSize)
    (hcont : ∀ (block : CLogBlock) (blocks : List CLogBlock) (offset fuel : ℕ) (s : Recovery),
      ReadAt block offset blocks rs → s.logrecBuf.bytes = r.encoding →
      (pos + r.getLogrecLen) % clogBlockDataSize =
        (offset - clogBlockHdrSize) % clogBlockDataSize →
      Fueled block offset fuel → ∃ s', s.readFrom block fuel offset blocks = some s')
    (hbuf : s.logrecBuf.bytes = block.memory offset) (hfuel : 0 < fuel) :
    ∃ s', s.readFrom block fuel clogBlockSize blocks = some s' := by
  obtain ⟨hfull, hmem, next, rest, rfl, hmid⟩ := h.cross hlt hcross
  have hge := h.ge
  obtain ⟨s₁, hs₁, hnext⟩ := readFrom_full next rest hfuel hfull s
  rw [hnext]
  refine readFrom_middle_returns hlen hcont _ rfl hmid (by rw [hs₁, hbuf, hmem]) ?_
    (fueled_blockFuel (h.packed.1 next (by simp)).2)
  rw [Nat.add_mod, hpos, ← Nat.add_mod]
  have hsum : offset - clogBlockHdrSize + r.getLogrecLen =
      r.getLogrecLen - (clogBlockSize - offset) + clogBlockDataSize := by
    simp only [clogBlockHdrSize, clogBlockSize, clogBlockDataSize] at *
    omega
  rw [hsum]
  exact Nat.add_mod_right _ _

/-- The records that wait in the buffer: none, or one that crosses the end of a block. -/
structure Waits (s : Recovery) (waiting : List CLogRecord) : Prop where
  length : waiting.length ≤ 1
  legible : ∀ w ∈ waiting, w.Legible
  bytes : s.logrecBuf.bytes = encodings waiting

/-- The record that waits is handed over first. -/
theorem readFrom_released_returns {offset fuel : ℕ} {waiting : List CLogRecord}
    (hlt : offset < clogBlockHdrSize + block.logDataLen)
    (hfirst : offset = clogBlockHdrSize → block.firstRecOffset = clogBlockHdrSize)
    (hend : 16 ≤ clogBlockSize - offset) (hwaits : s.Waits waiting)
    (hfuel : Fueled block offset fuel)
    (hcont : ∀ (fuel : ℕ) (s : Recovery), s.logrecBuf = .empty →
      2 * (clogBlockHdrSize + block.logDataLen - offset) < fuel →
      ∃ s', s.readFrom block fuel offset blocks = some s') :
    ∃ s', s.readFrom block fuel offset blocks = some s' := by
  unfold Fueled at hfuel
  obtain ⟨fuel, rfl⟩ := Nat.exists_eq_succ_of_ne_zero (by omega : fuel ≠ 0)
  rcases waiting with _ | ⟨w, _ | ⟨w', ws⟩⟩
  · refine hcont _ s ?_ (by omega)
    rw [CLogRecordBuf.empty, ← encodings_nil, ← hwaits.bytes]
  · have hbuf := hwaits.bytes
    rw [encodings_cons, encodings_nil, List.append_nil] at hbuf
    have hne : s.logrecBuf ≠ .empty := by
      intro hempty
      rw [hempty] at hbuf
      exact encoding_ne_nil w hbuf.symm
    obtain ⟨s₁, hrelease, hempty⟩ := release_shown (hwaits.legible w List.mem_cons_self) hbuf
    rw [readFrom, recoverRecords_waiting hlt hfirst fuel hend hne, hrelease]
    exact hcont fuel s₁ hempty (by omega)
  · have := hwaits.length
    simp at this

/-- One record that the reader sees is read, if the reader returns from there on. -/
theorem readFrom_record_returns {offset pos fuel : ℕ} {waiting : List CLogRecord}
    (h : ReadAt block offset blocks (r :: rs)) (hlt : offset < clogBlockHdrSize + block.logDataLen)
    (hr : r.Legible) (hwaits : s.Waits waiting)
    (hpos : pos % clogBlockDataSize = (offset - clogBlockHdrSize) % clogBlockDataSize)
    (hseen : ¬ r.Blind pos) (hfuel : Fueled block offset fuel)
    (hcont : ∀ (block : CLogBlock) (blocks : List CLogBlock) (offset fuel : ℕ) (s : Recovery)
      (waiting : List CLogRecord), ReadAt block offset blocks rs → s.Waits waiting →
      (pos + r.getLogrecLen) % clogBlockDataSize =
        (offset - clogBlockHdrSize) % clogBlockDataSize →
      Fueled block offset fuel → ∃ s', s.readFrom block fuel offset blocks = some s') :
    ∃ s', s.readFrom block fuel offset blocks = some s' := by
  have hge := h.ge
  have hle := (h.packed.1 block List.mem_cons_self).2
  have hmod : pos % clogBlockDataSize = offset - clogBlockHdrSize := by
    rw [hpos]
    refine Nat.mod_eq_of_lt ?_
    omega
  have hroom : clogBlockDataSize - pos % clogBlockDataSize = clogBlockSize - offset := by
    rw [hmod]
    simp only [clogBlockHdrSize, clogBlockSize, clogBlockDataSize] at *
    omega
  by_cases hcross : r.Crosses pos
  · have hlen : clogBlockSize - offset < r.getLogrecLen := by rwa [← hroom]
    obtain ⟨hfull, hmem, -⟩ := h.cross hlt hlen
    have hvisible : offset ≠ clogBlockHdrSize ∧ 16 ≤ clogBlockSize - offset := by
      rw [CLogRecord.Blind, hroom] at hseen
      have := not_or.mp fun hor => hseen ⟨hcross, hor⟩
      omega
    have hfirst : offset = clogBlockHdrSize → block.firstRecOffset = clogBlockHdrSize :=
      fun hoff => absurd hoff hvisible.1
    refine readFrom_released_returns hlt hfirst hvisible.2 hwaits hfuel fun fuel s hempty hfuel => ?_
    obtain ⟨fuel, rfl⟩ := Nat.exists_eq_succ_of_ne_zero (by omega : fuel ≠ 0)
    have hbytes : s.logrecBuf.bytes = [] := by
      rw [hempty]
      rfl
    have hkeep := keep_of_le s (block.memory offset) (by
      rw [hbytes, hmem, List.length_take, List.length_nil, r.encoding_length]
      have := hr.short
      omega)
    rw [readFrom, recoverRecords_head hlt hfirst fuel hvisible.2 hempty hr.inRange
      (by rw [hmem]) hlen, hkeep, Option.bind_some]
    refine readFrom_cross_returns h hlt hlen hr.short hpos ?_ ?_ (by omega)
    · intro block blocks offset fuel s h hbuf hpos hfuel
      refine hcont block blocks offset fuel s [r] h ⟨le_rfl, ?_, ?_⟩ hpos hfuel
      · intro w hw
        rwa [List.mem_singleton.mp hw]
      · rw [hbuf, encodings_cons, encodings_nil, List.append_nil]
    · rw [hbytes]
      rfl
  · have hlen : r.getLogrecLen ≤ clogBlockSize - offset := by
      rw [← hroom]
      exact not_lt.mp hcross
    obtain ⟨hpre, hnext⟩ := h.skip hlen
    have hmin := r.le_getLogrecLen
    have hfirst : offset = clogBlockHdrSize → block.firstRecOffset = clogBlockHdrSize := by
      intro hoff
      rw [h.first hoff, frameAt, if_pos r.getLogrecLen_pos, CLogRecord.frame, if_pos, if_pos rfl]
      rw [hoff] at hlen
      exact hlen
    have hend : 16 ≤ clogBlockSize - offset := hmin.trans hlen
    refine readFrom_released_returns hlt hfirst hend hwaits hfuel fun fuel s hempty hfuel => ?_
    obtain ⟨fuel, rfl⟩ := Nat.exists_eq_succ_of_ne_zero (by omega : fuel ≠ 0)
    obtain ⟨s₁, hdeliver, hbuf⟩ := deliver_shown hr hpre s
    rw [readFrom, recoverRecords_record hlt hfirst fuel hend hempty hr.inRange hpre hlen
      (by omega), hdeliver, Option.bind_some]
    refine hcont block blocks _ fuel s₁ [] hnext ⟨Nat.zero_le _, by simp, ?_⟩ ?_ ?_
    · rw [hbuf, hempty]
      rfl
    · rw [Nat.add_mod, hpos, ← Nat.add_mod]
      congr 1
      omega
    · have hfits := hnext.le
      unfold Fueled
      omega

/-- The reader returns if it sees all records. By induction on the records. -/
theorem readFrom_returns {rs : List CLogRecord} :
    ∀ {block : CLogBlock} {offset pos fuel : ℕ} {blocks : List CLogBlock} {s : Recovery}
      {waiting : List CLogRecord}, (∀ r ∈ rs, r.Legible) → ReadAt block offset blocks rs →
      s.Waits waiting →
      pos % clogBlockDataSize = (offset - clogBlockHdrSize) % clogBlockDataSize →
      Seen pos rs → Fueled block offset fuel →
      ∃ s', s.readFrom block fuel offset blocks = some s' := by
  induction rs with
  | nil =>
    intro block offset pos fuel blocks s waiting _ h _ _ _ hfuel
    have hend : offset = clogBlockHdrSize + block.logDataLen := by
      have hlength := h.logData_length
      have hbytes := h.bytes
      rw [encodings_nil, List.append_eq_nil_iff] at hbytes
      rw [hbytes.1, List.length_nil] at hlength
      have := h.le
      omega
    obtain rfl := (h.eq_nil hend).mp rfl
    unfold Fueled at hfuel
    rw [hend]
    exact readFrom_last (by omega) s
  | cons r rs ih =>
    intro block offset pos fuel blocks s waiting hrs h hwaits hpos hseen hfuel
    have hr := hrs r List.mem_cons_self
    have hcont : ∀ (block : CLogBlock) (blocks : List CLogBlock) (offset fuel : ℕ) (s : Recovery)
        (waiting : List CLogRecord), ReadAt block offset blocks rs → s.Waits waiting →
        (pos + r.getLogrecLen) % clogBlockDataSize =
          (offset - clogBlockHdrSize) % clogBlockDataSize →
        Fueled block offset fuel → ∃ s', s.readFrom block fuel offset blocks = some s' :=
      fun block blocks offset fuel s waiting h hwaits hpos hfuel =>
        ih (fun r' hr' => hrs r' (List.mem_cons_of_mem _ hr')) h hwaits hpos hseen.2 hfuel
    rcases h.le.lt_or_eq with hlt | hend
    · exact readFrom_record_returns h hlt hr hwaits hpos hseen.1 hfuel hcont
    · -- at the end of the block, the record is in the next one
      subst hend
      cases blocks with
      | nil => cases (h.eq_nil rfl).mpr rfl
      | cons next rest =>
        have hfull := h.packed.full
        obtain ⟨hne, hle⟩ := h.packed.1 next (by simp)
        obtain ⟨s₁, hs₁, hnext⟩ := readFrom_full next rest
          (show 0 < fuel by unfold Fueled at hfuel; omega) hfull s
        have hsize : clogBlockHdrSize + block.logDataLen = clogBlockSize := by
          rw [hfull]
          rfl
        have hpos₁ : pos % clogBlockDataSize =
            (clogBlockHdrSize - clogBlockHdrSize) % clogBlockDataSize := by
          rw [hpos, Nat.add_sub_cancel_left, hfull, Nat.mod_self, Nat.sub_self]
          rfl
        rw [hsize, hnext]
        exact readFrom_record_returns h.next (by omega) hr ⟨hwaits.length, hwaits.legible, by
          rw [hs₁, hwaits.bytes]⟩ hpos₁ hseen.1 (fueled_blockFuel hle) hcont

end Recovery

/-! ## The whole file -/

/-- The loop over the batches ends when the records of all blocks are read. -/
theorem recoverLoop_returns {file : CLogFile} {blocks : List CLogBlock} (h : file.Consists blocks)
    (fuel : ℕ) : ∀ {j : ℕ} {redoBuffer : ℕ → CLogBlock} {s s' r : Recovery} {last : Bool},
    CLogFile.redoBlocks ∣ j →
    (CLogFile.redoBlocks ∣ blocks.length ∨
      ∃ block ∈ blocks.drop j, block.logDataLen < clogBlockDataSize) →
    s.recoverBlocks (blocks.drop j) = some (s', last) → s'.done = some r →
    blocks.length - j < fuel → file.recoverLoop fuel (j + 1) redoBuffer s = some r := by
  induction fuel with
  | zero =>
    intro j redoBuffer s s' r last _ _ _ _ hfuel
    cases hfuel
  | succ fuel ih =>
    intro j redoBuffer s s' r last hj hread hblocks hdone hfuel
    obtain ⟨batch, hbatch⟩ : ∃ batch, batch = (blocks.drop j).take CLogFile.redoBlocks := ⟨_, rfl⟩
    have hsplit : blocks.drop j = batch ++ blocks.drop (j + CLogFile.redoBlocks) := by
      rw [hbatch, ← List.drop_drop, List.take_append_drop]
    have hlen : batch.length ≤ CLogFile.redoBlocks := by
      rw [hbatch]
      exact List.length_take_le _ _
    unfold CLogFile.recoverLoop
    rw [readAt_eq h, ← hbatch]
    by_cases hnil : batch = []
    · -- the file has been read
      have hall : blocks.drop j = [] := by
        rw [hnil, eq_comm, List.take_eq_nil_iff] at hbatch
        exact hbatch.resolve_left (by decide)
      rw [hall] at hblocks
      cases hblocks
      simpa only [if_pos hnil] using hdone
    rw [hsplit, Recovery.recoverBlocks_append, Option.bind_eq_some_iff] at hblocks
    obtain ⟨⟨s₁, last₁⟩, hbatchRun, hrest⟩ := hblocks
    have hlast := Recovery.recoverBlocks_last hbatchRun
    simp only [if_neg hnil, map_getD_eq hlen, Recovery.recoverBlocks_append, hbatchRun,
      Option.bind_eq_bind, Option.bind_some]
    cases last₁ with
    | true =>
      cases hrest
      exact hdone
    | false =>
      -- a batch without the last block of the log is a whole one
      have hno : ¬ ∃ block ∈ batch, block.logDataLen < clogBlockDataSize := by simpa using hlast
      have hnext : CLogFile.redoBlocks ∣ blocks.length ∨
          ∃ block ∈ blocks.drop (j + CLogFile.redoBlocks), block.logDataLen < clogBlockDataSize := by
        refine hread.imp_right fun hin => ?_
        obtain ⟨block, hblock, hlt⟩ := hin
        rw [hsplit, List.mem_append] at hblock
        exact ⟨block, hblock.resolve_left fun hmem => hno ⟨block, hmem, hlt⟩, hlt⟩
      have hpos := List.length_pos_of_ne_nil hnil
      have hwhole : batch.length = CLogFile.redoBlocks := by
        rw [hbatch, List.length_take, List.length_drop] at hpos ⊢
        rcases hnext with hdvd | ⟨block, hblock, -⟩
        · have := Nat.le_of_dvd (by omega) (Nat.dvd_sub hdvd hj)
          omega
        · have := List.length_pos_of_mem hblock
          rw [List.length_drop] at this
          omega
      have hfuel' : blocks.length - (j + CLogFile.redoBlocks) < fuel := by
        have hstep : 0 < CLogFile.redoBlocks := by decide
        rw [hbatch, List.length_take, List.length_drop] at hpos
        clear hread hnext hno hlast
        omega
      have hloop : file.recoverLoop fuel (j + CLogFile.redoBlocks + 1)
          (fun i => batch[i]?.getD (redoBuffer i)) s₁ = some r :=
        ih (Nat.dvd_add hj (dvd_refl _)) hnext hrest hdone hfuel'
      rw [hwhole, Nat.sub_self]
      simpa [Recovery.recoverBlocks, Nat.add_right_comm] using hloop

/-- **Recovery returns** if the reader sees all records of the file, and hands them all over in
their order. Only a last record that crosses the end of a block does not count for the number of
the next one. -/
theorem recover_returns {file : CLogFile} {blocks : List CLogBlock} {rs : List CLogRecord}
    (hfile : file.Consists blocks) (hread : file.Readable) (hpacked : Packed blocks)
    (hframed : Framed blocks rs) (hrs : ∀ r ∈ rs, r.Legible) (hseen : Seen 0 rs) {fuel : ℕ}
    (hfuel : blocks.length < fuel) (stack : ℕ → CLogBlock) :
    ∃ s, file.recover fuel stack = some s ∧ List.Forall₂ CLogRecord.DecodesTo rs s.records ∧
      s.gloablLsn = endLsn 0 (replay 0 [] rs).1 := by
  have hin : ∀ r ∈ rs, r.InRange := fun r hr => (hrs r hr).inRange
  obtain ⟨hall, hone⟩ := replay_of_seen rs 0 [] (Nat.zero_le _) hseen
  -- the records of all blocks are read
  obtain ⟨s₁, hblocks⟩ : ∃ s₁, (Recovery.init.recoverBlocks blocks).map Prod.fst = some s₁ ∧
      s₁.logrecBuf.bytes = encodings (replay 0 [] rs).2 := by
    cases blocks with
    | nil =>
      obtain rfl : rs = [] := encodings_eq_nil.mp hframed.bytes.symm
      exact ⟨.init, rfl, rfl⟩
    | cons block blocks =>
      have hat := hframed.readAt hpacked
      have hwaits : Recovery.Waits { Recovery.init with
          logBuffer := { Recovery.init.logBuffer with currentBlockNo := block.logBlockNo } } [] :=
        ⟨Nat.zero_le _, by simp, rfl⟩
      have hnone : ∀ w ∈ ([] : List CLogRecord), w.InRange := by simp
      obtain ⟨s₁, hs₁⟩ := Recovery.readFrom_returns hrs hat hwaits rfl hseen
        (Recovery.fueled_blockFuel (hpacked.1 block List.mem_cons_self).2)
      have hreplayed := Recovery.readFrom_replay hnone hin hat rfl rfl hs₁
      exact ⟨s₁, (Recovery.recoverBlocks_cons _ _ _).trans hs₁, hreplayed.logrecBuf⟩
  obtain ⟨hmap, hbuf⟩ := hblocks
  obtain ⟨⟨s₂, last⟩, hrun, rfl⟩ := Option.map_eq_some_iff.mp hmap
  -- and so is the one in the buffer
  obtain ⟨t, ht⟩ : ∃ t, s₂.done = some t := by
    unfold Recovery.done
    split
    · rename_i hne
      rcases hwaiting : (replay 0 [] rs).2 with _ | ⟨w, _ | ⟨w', ws⟩⟩
      · rw [hwaiting] at hbuf
        exact absurd (by rw [CLogRecordBuf.empty, ← encodings_nil, ← hbuf]) hne
      · rw [hwaiting, encodings_cons, encodings_nil, List.append_nil] at hbuf
        have hw : w ∈ rs := by
          rw [List.nil_append] at hall
          rw [← hall, hwaiting]
          simp
        obtain ⟨d, hd⟩ := (hrs w hw).shows
        rw [CLogRecordBuf.decode, hbuf, hd]
        exact ⟨_, rfl⟩
      · rw [hwaiting] at hone
        simp at hone
    · exact ⟨_, rfl⟩
  obtain ⟨blocks', hfile', hlast⟩ := hread
  obtain rfl := hfile'.unique hfile
  have hrecover : file.recover fuel stack = some t :=
    recoverLoop_returns hfile fuel (j := 0) (dvd_zero _) hlast hrun ht (by omega)
  obtain ⟨hrecords, hlsn⟩ := recover_replay hfile ⟨blocks', hfile, hlast⟩ hpacked hframed hin
    hrecover
  refine ⟨t, hrecover, ?_, hlsn⟩
  have hhead : (replay 0 [] rs).2.head?.toList = (replay 0 [] rs).2 := by
    rcases hwaiting : (replay 0 [] rs).2 with _ | ⟨w, _ | ⟨w', ws⟩⟩
    · rfl
    · rfl
    · rw [hwaiting] at hone
      simp at hone
  rwa [hhead, hall, List.nil_append] at hrecords

/-! ## Processes with a log -/

/-- What a client wants to log. Only an insertion and a deletion have a table and a record. -/
structure LogRequest where
  /-- `flag` -/
  flag : CLogType
  /-- `trx_id` -/
  trxId : Int
  /-- `table_name` -/
  tableName : List UInt8
  /-- `rec`, with `data_len` bytes. -/
  record : Record
  deriving DecidableEq

/-- A process and the log file. -/
structure LogProcess where
  /-- The log of the process. -/
  manager : CLogManager
  /-- `CLogManager::gloabl_lsn_` -/
  gloablLsn : Int

/-- What happens to a log. -/
inductive LogCall
  /-- `clog_gen_record`, with what the memory of the record held, and `clog_append_record`. -/
  | append (request : LogRequest) (old : TableName) (heap : ℕ → UInt8)
  /-- `clog_sync` -/
  | sync
  /-- The process ends, and the next one calls `recover`. -/
  | restart (stack : ℕ → CLogBlock)

/-- What is returned. -/
inductive LogAnswer
  /-- A return code. -/
  | code (rc : RC)
  /-- The records that `log_record_manage` has got. -/
  | recovered (records : List DecodedRecord)
  deriving DecidableEq

/-- A process that has created the log. -/
def LogProcess.fresh (fhd : CLogBlock) : LogProcess := ⟨.fresh fhd, 0⟩

/-- One call. -/
def LogCall.run (fuel : ℕ) (p : LogProcess) : LogCall → Option (LogAnswer × LogProcess)
  | append request old heap => do
    let (logRec, next) ← clogGenRecord p.gloablLsn request.flag request.trxId request.tableName
      request.record old heap
    let (rc, manager) ← p.manager.clogAppendRecord logRec
    return (.code rc, ⟨manager, next⟩)
  | sync => do
    let manager ← p.manager.clogSync
    return (.code .success, { p with manager := manager })
  | restart stack => do
    let (manager, s) ← p.manager.restart fuel stack
    return (.recovered s.records, ⟨manager, s.gloablLsn⟩)

/-- The answers to some calls. -/
def runCalls (fuel : ℕ) (p : LogProcess) : List LogCall → Option (List LogAnswer × LogProcess)
  | [] => some ([], p)
  | call :: calls => do
    let (answer, p) ← call.run fuel p
    let (answers, p) ← runCalls fuel p calls
    return (answer :: answers, p)

/-! ## What the log is for -/

/-- The bytes of a request in the log. -/
def LogRequest.len (request : LogRequest) : ℕ :=
  match request.flag with
  | .redoInsert => align8 (clogInsRecNodataSize + request.record.data.length)
  | .redoDelete => 44
  | _ => 16

/-- The bytes of some requests. -/
def logSize (requests : List LogRequest) : ℕ := (requests.map LogRequest.len).sum

/-- Requests with their places in the log. The place is the number of the record. -/
def placed : ℕ → List LogRequest → List (ℕ × LogRequest)
  | _, [] => []
  | lsn, request :: requests => (lsn, request) :: placed (lsn + request.len) requests

/-- The record that recovery should give for a request. -/
def LogRequest.shown (p : ℕ × LogRequest) : DecodedRecord :=
  .original p.2.flag p.1 p.2.trxId p.2.tableName p.2.record

/-- A log as its clients see it: what a restart will find, and what it will not. -/
structure LogBook where
  /-- The requests whose records are in the file. -/
  written : List LogRequest
  /-- The requests whose records are in the buffer only. -/
  pending : List LogRequest

namespace LogBook

/-- No request yet. -/
def empty : LogBook := ⟨[], []⟩

/-- All requests. -/
def all (book : LogBook) : List LogRequest := book.written ++ book.pending

/-- What a call should do, and what it should answer. The end of a transaction is written out. -/
def after (book : LogBook) : LogCall → LogAnswer × LogBook
  | .append request _ _ =>
    (.code .success,
      if request.flag = .redoMtrCommit then ⟨book.all ++ [request], []⟩
      else ⟨book.written, book.pending ++ [request]⟩)
  | .sync => (.code .success, ⟨book.all, []⟩)
  | .restart _ =>
    (.recovered ((placed 0 book.written).map LogRequest.shown), ⟨book.written, []⟩)

/-- What some calls should answer, and the log after them. -/
def afterAll (book : LogBook) : List LogCall → List LogAnswer × LogBook
  | [] => ([], book)
  | call :: calls =>
    let (answer, book) := book.after call
    let (answers, book) := book.afterAll calls
    (answer :: answers, book)

end LogBook

/-! ## Calls for which the log is made -/

/-- A request that a record can hold. -/
structure LogRequest.Storable (request : LogRequest) : Prop where
  flag : request.flag ≠ .redoError
  trxId : IsInt32 request.trxId
  rid : IsInt32 request.record.rid.pageNum ∧ IsInt32 request.record.rid.slotNum
  name : 0 ∉ request.tableName ∧ request.tableName.length < tableNameMaxLen
  short : request.len ≤ clogRedoBufferSize

/-- `CLogRecord.Crosses` for a request at a place. -/
def LogRequest.Crosses (request : LogRequest) (pos : ℕ) : Prop :=
  clogBlockDataSize - pos % clogBlockDataSize < request.len

/-- `CLogRecord.Blind` for a request at a place. -/
def LogRequest.Blind (request : LogRequest) (pos : ℕ) : Prop :=
  request.Crosses pos ∧
    (pos % clogBlockDataSize = 0 ∨ clogBlockDataSize - pos % clogBlockDataSize < 16)

instance (request : LogRequest) (pos : ℕ) : Decidable (request.Crosses pos) := Nat.decLt _ _

instance (request : LogRequest) (pos : ℕ) : Decidable (request.Blind pos) :=
  inferInstanceAs (Decidable (_ ∧ _))

/-- The record fits into the buffer as a whole, and a reader sees that it starts. A restart finds
the end of the log, and its last record in one block. -/
def LogCall.Suits (book : LogBook) : LogCall → Prop
  | append request _ _ =>
    request.Storable ∧ logSize book.all + request.len ≤ 2147483647 ∧
      logSize book.written % clogBlockDataSize + logSize book.pending + request.len ≤
        CLogBuffer.capacity ∧
      ¬ request.Blind (logSize book.all)
  | sync => True
  | restart _ =>
    (logSize book.written % clogBlockDataSize = 0 →
      CLogFile.redoBlocks ∣ logSize book.written / clogBlockDataSize) ∧
      ∀ request ∈ book.written.getLast?, ¬ request.Crosses (logSize book.written - request.len)

/-- Every call suits the log as the calls before have left it. -/
def SuitsAll (book : LogBook) : List LogCall → Prop
  | [] => True
  | call :: calls => call.Suits book ∧ SuitsAll (book.after call).2 calls

/-! ## The records of the requests -/

/-- The record is that of the request, at its place. -/
structure CLogRecord.Carries (r : CLogRecord) (p : ℕ × LogRequest) : Prop where
  inRange : r.InRange
  short : r.getLogrecLen ≤ clogRedoBufferSize
  len : r.getLogrecLen = p.2.len
  lsn : r.lsn = p.1
  shows : r.Shows (LogRequest.shown p)

theorem CLogRecord.Carries.legible {r : CLogRecord} {p : ℕ × LogRequest} (h : r.Carries p) :
    r.Legible :=
  ⟨h.inRange, h.short, _, h.shows⟩

@[simp] theorem logSize_nil : logSize [] = 0 := rfl

@[simp] theorem logSize_cons (request : LogRequest) (requests : List LogRequest) :
    logSize (request :: requests) = request.len + logSize requests := rfl

@[simp] theorem logSize_append (requests requests' : List LogRequest) :
    logSize (requests ++ requests') = logSize requests + logSize requests' := by
  rw [logSize, List.map_append, List.sum_append]
  rfl

theorem placed_append (requests requests' : List LogRequest) : ∀ lsn,
    placed lsn (requests ++ requests') =
      placed lsn requests ++ placed (lsn + logSize requests) requests' := by
  induction requests with
  | nil =>
    intro lsn
    rfl
  | cons request requests ih =>
    intro lsn
    rw [List.cons_append, placed, placed, ih, logSize_cons, List.cons_append, Nat.add_assoc]

section carries

variable {rs : List CLogRecord} {requests : List LogRequest} {lsn : ℕ}

/-- Records of requests have as many bytes as these. -/
theorem encodings_length (h : List.Forall₂ CLogRecord.Carries rs (placed lsn requests)) :
    (encodings rs).length = logSize requests := by
  induction requests generalizing rs lsn with
  | nil =>
    cases h
    rfl
  | cons request requests ih =>
    cases h with
    | cons hr h => rw [encodings_cons, List.length_append, CLogRecord.encoding_length, hr.len, ih h,
        logSize_cons]

/-- The numbers of the records follow one another. -/
theorem cells_carries (h : List.Forall₂ CLogRecord.Carries rs (placed lsn requests)) :
    Cells CLogRecord.lsn CLogRecord.lsnEnd (lsn : Int) ((lsn + logSize requests : ℕ) : Int) rs := by
  induction requests generalizing rs lsn with
  | nil =>
    cases h
    rfl
  | cons request requests ih =>
    cases h with
    | @cons r _ rs _ hr h =>
      refine ⟨hr.lsn, r.lsn_lt_lsnEnd, ?_⟩
      have hend : r.lsnEnd = ((lsn + request.len : ℕ) : Int) := by
        have hlsn : r.hdr.lsn = lsn := hr.lsn
        rw [CLogRecord.lsnEnd, hlsn, hr.len, Nat.cast_add]
      rw [hend, logSize_cons, ← Nat.add_assoc]
      exact ih h

/-- What is read is what was to be shown. -/
theorem eq_shown {ds : List DecodedRecord}
    (h : List.Forall₂ CLogRecord.Carries rs (placed lsn requests))
    (hds : List.Forall₂ CLogRecord.DecodesTo rs ds) :
    ds = (placed lsn requests).map LogRequest.shown := by
  generalize placed lsn requests = places at h
  induction h generalizing ds with
  | nil =>
    cases hds
    rfl
  | cons hr _ ih =>
    cases hds with
    | cons hd hds =>
      obtain ⟨rest, hd⟩ := hd
      rw [hr.shows rest] at hd
      rw [List.map_cons, Option.some.inj hd, ih hds]

end carries

/-- A short name is read from its field. -/
theorem readString_name {request : LogRequest} (h : request.Storable) (old : TableName)
    (rest : List UInt8) {room : ℕ} (hroom : tableNameMaxLen ≤ room) :
    readString room ((old.strcpy request.tableName).bytes ++ rest) = some request.tableName := by
  obtain ⟨hname, hlen⟩ := h.name
  rw [readString_eq_some, prefix_strcpy]
  exact ⟨hname, Or.inl hlen, hlen.trans_le hroom⟩

/-- The record that is made for a request. -/
theorem clogGenRecord_carries {request : LogRequest} (h : request.Storable) {lsn : ℕ}
    (hlsn : lsn + request.len ≤ 2147483647) (old : TableName) (heap : ℕ → UInt8) :
    ∃ r, clogGenRecord lsn request.flag request.trxId request.tableName request.record old heap =
        some (r, ((lsn + request.len : ℕ) : Int)) ∧ r.Carries (lsn, request) ∧
      r.getLogType = request.flag := by
  obtain ⟨flag, trxId, tableName, record⟩ := request
  have hlsn' : IsInt32 (lsn : Int) := ⟨by omega, by omega⟩
  have hroom : tableName.length < tableNameRoom := h.name.2.trans (by decide)
  have hsixteen : IsInt32 (16 : ℕ) := by decide
  have hdelete : IsInt32 (44 : ℕ) := by decide
  cases flag with
  | redoError => exact absurd rfl h.flag
  | redoMtrBegin =>
    refine ⟨.mtr false lsn trxId, rfl,
      ⟨⟨hlsn', h.trxId, hsixteen, trivial⟩, h.short, rfl, rfl, ?_⟩, rfl⟩
    exact fun rest => DecodedRecord.decode_mtr hlsn' h.trxId false rest
  | redoMtrCommit =>
    refine ⟨.mtr true lsn trxId, rfl,
      ⟨⟨hlsn', h.trxId, hsixteen, trivial⟩, h.short, rfl, rfl, ?_⟩, rfl⟩
    exact fun rest => DecodedRecord.decode_mtr hlsn' h.trxId true rest
  | redoInsert =>
    have hint : IsInt32 (align8 (clogInsRecNodataSize + record.data.length) : ℕ) := by
      have hshort : align8 (clogInsRecNodataSize + record.data.length) ≤ clogRedoBufferSize :=
        h.short
      rw [clogRedoBufferSize] at hshort
      exact ⟨by omega, by omega⟩
    refine ⟨.ins lsn trxId (old.strcpy tableName) record.rid record.data
      (padding heap record.data.length) (padding_length heap record.data), ?_,
      ⟨⟨hlsn', h.trxId, hint, h.rid⟩, h.short, rfl, rfl, fun rest => ?_⟩, rfl⟩
    · rw [clogGenRecord, CLogRecord.new, if_pos hroom]
      rfl
    · rw [DecodedRecord.decode_ins hlsn' h.trxId _ h.rid.1 h.rid.2 hint,
        readString_name h old _ (by decide)]
      rfl
  | redoDelete =>
    refine ⟨.del lsn trxId (old.strcpy tableName) record.rid, ?_,
      ⟨⟨hlsn', h.trxId, hdelete, h.rid⟩, h.short, rfl, rfl, fun rest => ?_⟩, rfl⟩
    · rw [clogGenRecord, CLogRecord.new, if_pos hroom]
      rfl
    · rw [DecodedRecord.decode_del hlsn' h.trxId h.rid.1 h.rid.2,
        readString_name h old _ (by decide)]
      rfl

/-! ## One call -/

/-- The blocks of the file are determined by the file. -/
theorem CLogManager.Kept.unique {m : CLogManager} {full full' : List CLogBlock}
    {tail tail' : Option CLogBlock} (h : m.Kept full tail) (h' : m.Kept full' tail') :
    full = full' ∧ tail = tail' := by
  have hblocks := h.consists.unique h'.consists
  have hfilter : ∀ {full : List CLogBlock} {tail : Option CLogBlock}, m.Kept full tail →
      (full ++ tail.toList).filter (fun b => b.logDataLen = clogBlockDataSize) = full := by
    intro full tail h
    rw [List.filter_append, List.filter_eq_self.mpr fun b hb => by simpa using h.flushed.full b hb]
    cases tail with
    | none => simp
    | some b => simp [(h.notFull b rfl).2.ne]
  have hfull : full = full' := by rw [← hfilter h, hblocks, hfilter h']
  subst hfull
  have htail := List.append_cancel_left hblocks
  cases tail <;> cases tail' <;> simp_all

/-- The log of the process is the one that its clients see. -/
structure Keeps (p : LogProcess) (book : LogBook) (full : List CLogBlock) (tail : Option CLogBlock)
    (written pending : List CLogRecord) : Prop where
  kept : p.manager.Kept full tail
  framed : Framed (full ++ p.manager.logBuffer.held) (written ++ pending)
  file : logBytes (full ++ tail.toList) = encodings written
  carriesWritten : List.Forall₂ CLogRecord.Carries written (placed 0 book.written)
  carriesPending :
    List.Forall₂ CLogRecord.Carries pending (placed (logSize book.written) book.pending)
  seen : Seen 0 (written ++ pending)
  gloablLsn : p.gloablLsn = logSize book.all

section keeps

variable {p : LogProcess} {book : LogBook} {full : List CLogBlock} {tail : Option CLogBlock}
  {written pending : List CLogRecord} (h : Keeps p book full tail written pending)

include h

theorem Keeps.carries :
    List.Forall₂ CLogRecord.Carries (written ++ pending) (placed 0 book.all) := by
  rw [LogBook.all, placed_append, Nat.zero_add]
  exact List.rel_append h.carriesWritten h.carriesPending

/-- The file has full blocks and what is left. -/
theorem Keeps.size_written : ∃ len < clogBlockDataSize,
    logSize book.written = clogBlockDataSize * full.length + len ∧ (len = 0 ↔ tail = none) := by
  have hbytes := congrArg List.length h.file
  rw [encodings_length h.carriesWritten, logBytes_append, List.length_append,
    logBytes_length_of_full h.kept.flushed.full] at hbytes
  cases htail : tail with
  | none =>
    rw [htail] at hbytes
    exact ⟨0, by decide, hbytes.symm, by simp⟩
  | some block =>
    obtain ⟨hne, hlt⟩ := h.kept.notFull block htail
    rw [htail, Option.toList_some, logBytes, List.flatMap_singleton,
      CLogBlock.logData_length hlt.le] at hbytes
    exact ⟨block.logDataLen, hlt, hbytes.symm, by simp [hne]⟩

/-- What the buffer holds: the last block of the file if it is not full, and what waits. -/
theorem Keeps.held_length : (logBytes p.manager.logBuffer.held).length =
    logSize book.written % clogBlockDataSize + logSize book.pending := by
  have hbytes := congrArg List.length h.framed.bytes
  rw [encodings_length h.carries, logBytes_append, List.length_append,
    logBytes_length_of_full h.kept.flushed.full, LogBook.all, logSize_append] at hbytes
  obtain ⟨len, hlt, hsize, -⟩ := h.size_written
  have hmod : logSize book.written % clogBlockDataSize = len := by
    rw [hsize, Nat.mul_add_mod, Nat.mod_eq_of_lt hlt]
  omega

/-- A record is appended. -/
theorem Keeps.append {request : LogRequest} (hstorable : request.Storable)
    (hsize : logSize book.all + request.len ≤ 2147483647)
    (hroom : logSize book.written % clogBlockDataSize + logSize book.pending + request.len ≤
      CLogBuffer.capacity)
    (hseen : ¬ request.Blind (logSize book.all)) (old : TableName) (heap : ℕ → UInt8) (fuel : ℕ) :
    ∃ p' full' tail' written' pending',
      (LogCall.append request old heap).run fuel p = some (.code .success, p') ∧
      Keeps p' (book.after (.append request old heap)).2 full' tail' written' pending' := by
  obtain ⟨r, hgen, hr, htype⟩ := clogGenRecord_carries hstorable hsize old heap
  have hcapacity : r.getLogrecLen ≤ CLogBuffer.capacity := hr.short.trans (by decide)
  obtain ⟨rc, m, full', tail', hrun, hk, hbytes, hext, hrc, hcommit⟩ :=
    h.kept.append r hcapacity
  have hfits : (logBytes p.manager.logBuffer.held).length + r.getLogrecLen ≤
      CLogBuffer.capacity := by
    rw [h.held_length, hr.len]
    exact hroom
  obtain rfl := hrc.mpr hfits
  have hframed := h.framed.append h.kept.packed hk.packed hbytes hext
  have hcall : (LogCall.append request old heap).run fuel p =
      some (.code .success, ⟨m, ((logSize book.all + request.len : ℕ) : Int)⟩) := by
    rw [LogCall.run, h.gloablLsn, hgen]
    simp [hrun]
  have hall : List.Forall₂ CLogRecord.Carries (written ++ pending ++ [r])
      (placed 0 (book.all ++ [request])) := by
    rw [placed_append, Nat.zero_add]
    exact List.rel_append h.carries (.cons hr .nil)
  have hseen' : Seen 0 (written ++ pending ++ [r]) := by
    refine (seen_append _ _ 0).mpr ⟨h.seen, ?_, trivial⟩
    rw [encodings_length h.carries, Nat.zero_add, CLogRecord.Blind, CLogRecord.Crosses, hr.len]
    exact hseen
  by_cases hflag : request.flag = .redoMtrCommit
  · -- the end of a transaction is written out with all that waits
    have hfile : logBytes (full' ++ tail'.toList) = encodings (written ++ pending ++ [r]) := by
      rw [hcommit rfl (htype.trans hflag), hbytes, h.framed.bytes]
      simp
    refine ⟨_, full', tail', written ++ pending ++ [r], [], hcall, ?_⟩
    rw [LogBook.after, if_pos hflag]
    refine ⟨hk, by rwa [List.append_nil], hfile, hall, .nil, by rwa [List.append_nil], ?_⟩
    simp [LogBook.all, Int.add_assoc]
  · obtain ⟨m', hrun', hk', -⟩ := h.kept.append_of_fits r (by rwa [htype]) hfits
    obtain rfl : m = m' := by
      rw [hrun] at hrun'
      exact congrArg Prod.snd (Option.some.inj hrun')
    obtain ⟨rfl, rfl⟩ := hk.unique hk'
    refine ⟨_, full', tail', written, pending ++ [r], hcall, ?_⟩
    rw [LogBook.after, if_neg hflag]
    refine ⟨hk, by rwa [← List.append_assoc], h.file, h.carriesWritten, ?_,
      by rwa [← List.append_assoc], ?_⟩
    · have hlsn : logSize book.all = logSize book.written + logSize book.pending := logSize_append _ _
      rw [hlsn] at hr
      rw [placed_append]
      exact List.rel_append h.carriesPending (.cons hr .nil)
    · simp [LogBook.all, Int.add_assoc]

/-- The buffer is written out. -/
theorem Keeps.sync (fuel : ℕ) :
    ∃ p' full' tail' written' pending', LogCall.sync.run fuel p = some (.code .success, p') ∧
      Keeps p' (book.after .sync).2 full' tail' written' pending' := by
  obtain ⟨m, full', tail', hrun, hk, hblocks, hfile, -⟩ := h.kept.sync
  refine ⟨{ p with manager := m }, full', tail', written ++ pending, [], ?_, hk, ?_, ?_, h.carries,
    .nil, ?_, ?_⟩
  · rw [LogCall.run, hrun]
    rfl
  · rw [hblocks, List.append_nil]
    exact h.framed
  · rw [hfile, h.framed.bytes]
  · rw [List.append_nil]
    exact h.seen
  · rw [h.gloablLsn]
    simp [LogBook.after, LogBook.all]

/-- A restart. -/
theorem Keeps.restart (hfull : logSize book.written % clogBlockDataSize = 0 →
      CLogFile.redoBlocks ∣ logSize book.written / clogBlockDataSize)
    (hlast : ∀ request ∈ book.written.getLast?,
      ¬ request.Crosses (logSize book.written - request.len)) {fuel : ℕ}
    (hfuel : logSize book.written + 1 < fuel) (stack : ℕ → CLogBlock) :
    ∃ p' full' tail' written' pending', (LogCall.restart stack).run fuel p =
        some (.recovered ((placed 0 book.written).map LogRequest.shown), p') ∧
      Keeps p' (book.after (.restart stack)).2 full' tail' written' pending' := by
  obtain ⟨len, hlt, hsize, hzero⟩ := h.size_written
  have hframed : Framed (full ++ tail.toList) written :=
    h.framed.of_grows h.kept.packed_file h.file fun i block => h.kept.grows_file
  have hread : p.manager.logFile.Readable := by
    refine ⟨_, h.kept.consists, ?_⟩
    cases htail : tail with
    | none =>
      obtain rfl := hzero.mpr htail
      left
      rw [hsize, Nat.add_zero, Nat.mul_mod_right,
        Nat.mul_div_cancel_left _ (by decide : 0 < clogBlockDataSize)] at hfull
      simpa using hfull rfl
    | some block => exact Or.inr ⟨block, by simp, (h.kept.notFull block htail).2⟩
  have hblocks : (full ++ tail.toList).length < fuel := by
    have htail : tail.toList.length ≤ 1 := by cases tail <;> simp
    rw [List.length_append]
    have : full.length ≤ clogBlockDataSize * full.length :=
      Nat.le_mul_of_pos_left _ (by decide)
    omega
  -- the last record is in one block, and the number goes on behind it
  have hends : EndsInBlock written := by
    intro before last hwritten
    have hcarries := h.carriesWritten
    have hlen := encodings_length hcarries
    rw [hwritten] at hcarries hlen
    rcases List.eq_nil_or_concat book.written with hnil | ⟨before', request, hconcat⟩
    · rw [hnil] at hcarries
      cases List.append_eq_nil_iff.mp (List.forall₂_nil_right_iff.mp hcarries) |>.2
    · rw [List.concat_eq_append] at hconcat
      rw [hconcat, placed_append, ← List.forall₂_reverse_iff, List.reverse_append,
        List.reverse_append] at hcarries
      have hr := (List.forall₂_cons.mp hcarries).1
      have hplace : (encodings before).length = logSize book.written - request.len := by
        rw [← hlen, encodings_append, List.length_append, encodings_cons, encodings_nil,
          List.append_nil, last.encoding_length, hr.len]
        exact (Nat.add_sub_cancel _ _).symm
      rw [hplace, CLogRecord.Crosses, hr.len]
      exact hlast request (by rw [hconcat]; simp)
  have hcells := cells_carries h.carriesWritten
  obtain ⟨hend, -⟩ := endLsn_replay hends hcells
  have hlegible : ∀ r ∈ written, r.Legible := by
    intro r hr
    obtain ⟨_, -, hcarries⟩ := forall₂_mem_right h.carriesWritten.flip hr
    exact CLogRecord.Carries.legible hcarries
  have hseen := ((seen_append _ _ 0).mp h.seen).1
  obtain ⟨s, hrecover, hrecords, hlsn⟩ := recover_returns h.kept.consists hread
    h.kept.packed_file hframed hlegible hseen hblocks stack
  have hrestart : p.manager.restart fuel stack =
      some (⟨s.logBuffer, p.manager.logFile⟩, s) := by
    rw [CLogManager.restart, hrecover]
    rfl
  obtain ⟨hk, hheld, -⟩ := h.kept.restart hread hrestart
  refine ⟨⟨⟨s.logBuffer, p.manager.logFile⟩, s.gloablLsn⟩, full, tail, written, [], ?_, hk, ?_,
    h.file, h.carriesWritten, .nil, ?_, ?_⟩
  · rw [LogCall.run, hrestart, ← eq_shown h.carriesWritten hrecords]
    rfl
  · rw [hheld, List.append_nil]
    exact hframed
  · rw [List.append_nil]
    exact hseen
  · rw [hlsn, hend]
    simp [LogBook.after, LogBook.all]

end keeps

/-! ## Runs -/

/-- A call does what it should, with enough fuel. -/
theorem LogCall.run_ok {book : LogBook} (call : LogCall) (hsuits : call.Suits book) :
    ∃ n, ∀ fuel ≥ n, ∀ {p : LogProcess} {full : List CLogBlock} {tail : Option CLogBlock}
      {written pending : List CLogRecord}, Keeps p book full tail written pending →
      ∃ p' full' tail' written' pending', call.run fuel p = some ((book.after call).1, p') ∧
        Keeps p' (book.after call).2 full' tail' written' pending' := by
  cases call with
  | append request old heap =>
    obtain ⟨hstorable, hsize, hroom, hseen⟩ := hsuits
    exact ⟨0, fun fuel _ _ _ _ _ _ h => h.append hstorable hsize hroom hseen old heap fuel⟩
  | sync => exact ⟨0, fun fuel _ _ _ _ _ _ h => h.sync fuel⟩
  | restart stack =>
    obtain ⟨hfull, hlast⟩ := hsuits
    exact ⟨logSize book.written + 2, fun fuel hfuel _ _ _ _ _ h => h.restart hfull hlast hfuel stack⟩

/-- So do calls one after the other. -/
theorem runCalls_ok (calls : List LogCall) : ∀ {book : LogBook}, SuitsAll book calls →
    ∃ n, ∀ fuel ≥ n, ∀ {p : LogProcess} {full : List CLogBlock} {tail : Option CLogBlock}
      {written pending : List CLogRecord}, Keeps p book full tail written pending →
      ∃ p' full' tail' written' pending',
        runCalls fuel p calls = some ((book.afterAll calls).1, p') ∧
        Keeps p' (book.afterAll calls).2 full' tail' written' pending' := by
  induction calls with
  | nil =>
    intro book _
    exact ⟨0, fun fuel _ p full tail written pending h =>
      ⟨p, full, tail, written, pending, rfl, h⟩⟩
  | cons call calls ih =>
    intro book hsuits
    obtain ⟨n₁, hcall⟩ := call.run_ok hsuits.1
    obtain ⟨n₂, hcalls⟩ := ih hsuits.2
    refine ⟨max n₁ n₂, fun fuel hfuel p full tail written pending h => ?_⟩
    obtain ⟨p₁, full₁, tail₁, written₁, pending₁, hrun₁, h₁⟩ :=
      hcall fuel (le_of_max_le_left hfuel) h
    obtain ⟨p₂, full₂, tail₂, written₂, pending₂, hrun₂, h₂⟩ :=
      hcalls fuel (le_of_max_le_right hfuel) h₁
    refine ⟨p₂, full₂, tail₂, written₂, pending₂, ?_, h₂⟩
    simp only [runCalls, hrun₁, hrun₂, Option.bind_eq_bind, Option.bind_some]
    rfl

/-- **A log is durable.** Over any number of processes, each call succeeds that suits the log, and
every restart hands over, in their order and with their numbers, the requests that have been written
out: those up to the last end of a transaction or `clog_sync`. The numbers are places in the log,
and the next one is its length. -/
theorem durable_log (fhd : CLogBlock) (calls : List LogCall) (hsuits : SuitsAll .empty calls) :
    ∃ n, ∀ fuel ≥ n, ∃ p,
      runCalls fuel (.fresh fhd) calls = some ((LogBook.empty.afterAll calls).1, p) ∧
      p.gloablLsn = logSize (LogBook.empty.afterAll calls).2.all := by
  obtain ⟨n, hn⟩ := runCalls_ok calls hsuits
  refine ⟨n, fun fuel hfuel => ?_⟩
  have hfresh : Keeps (.fresh fhd) .empty [] none [] [] :=
    ⟨CLogManager.kept_fresh fhd, ⟨rfl, fun i block hblock => by cases hblock⟩, rfl, .nil, .nil,
      trivial, rfl⟩
  obtain ⟨p, full, tail, written, pending, hrun, hkeeps⟩ := hn fuel hfuel hfresh
  exact ⟨p, hrun, hkeeps.gloablLsn⟩

/-- A transaction inserts a row that does not fit into one block. The next one is not ended. -/
def twoTransactions : List LogCall :=
  [.append ⟨.redoMtrBegin, 1, [], ⟨⟨0, 0⟩, []⟩⟩ .zero fun _ => 0,
    .append ⟨.redoInsert, 1, [116], ⟨⟨1, 0⟩, List.replicate 500 7⟩⟩ .zero fun _ => 255,
    .append ⟨.redoMtrCommit, 1, [], ⟨⟨0, 0⟩, []⟩⟩ .zero fun _ => 0,
    .append ⟨.redoDelete, 2, [116], ⟨⟨1, 0⟩, []⟩⟩ .zero fun _ => 0,
    .restart fun _ => .zero]

/-- Only the first transaction is handed over. -/
theorem first_transaction_recovered :
    ∃ n, ∀ fuel ≥ n, ∃ p, runCalls fuel (.fresh .zero) twoTransactions =
        some ([.code .success, .code .success, .code .success, .code .success,
          .recovered [.mtr ⟨0, 1, 1, 16⟩,
            .ins ⟨16, 1, 3, 552⟩ [116] ⟨1, 0⟩ (List.replicate 500 7),
            .mtr ⟨568, 1, 2, 16⟩]], p) ∧
      p.gloablLsn = 584 := by
  have hbegin : (LogRequest.mk .redoMtrBegin 1 [] ⟨⟨0, 0⟩, []⟩).Storable :=
    ⟨by decide, by decide, by decide, by decide, by decide⟩
  have hinsert :
      (LogRequest.mk .redoInsert 1 [116] ⟨⟨1, 0⟩, List.replicate 500 7⟩).Storable :=
    ⟨by decide, by decide, by decide, by decide, by decide +kernel⟩
  have hcommit : (LogRequest.mk .redoMtrCommit 1 [] ⟨⟨0, 0⟩, []⟩).Storable :=
    ⟨by decide, by decide, by decide, by decide, by decide⟩
  have hdelete : (LogRequest.mk .redoDelete 2 [116] ⟨⟨1, 0⟩, []⟩).Storable :=
    ⟨by decide, by decide, by decide, by decide, by decide⟩
  have hsuits : SuitsAll .empty twoTransactions := by
    refine ⟨⟨hbegin, ?_⟩, ⟨hinsert, ?_⟩, ⟨hcommit, ?_⟩, ⟨hdelete, ?_⟩, ⟨?_, ?_⟩, trivial⟩ <;>
      decide +kernel
  have hanswers : (LogBook.empty.afterAll twoTransactions).1 =
      [.code .success, .code .success, .code .success, .code .success,
        .recovered [.mtr ⟨0, 1, 1, 16⟩,
          .ins ⟨16, 1, 3, 552⟩ [116] ⟨1, 0⟩ (List.replicate 500 7),
          .mtr ⟨568, 1, 2, 16⟩]] := by
    decide +kernel
  have hsize : logSize (LogBook.empty.afterAll twoTransactions).2.all = 584 := by
    decide +kernel
  rw [← hanswers, ← Nat.cast_ofNat, ← hsize]
  exact durable_log .zero twoTransactions hsuits

end Miniob.Storage.Clog
