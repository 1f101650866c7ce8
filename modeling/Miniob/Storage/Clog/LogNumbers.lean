import Miniob.Storage.Clog.LogReader
import Miniob.Lib.Cells

/-!
# The numbers of the log records

`CLogManager::get_next_lsn` hands out numbers that follow one another by the lengths of the
records. The counter is not kept in the log. Recovery sets it at every record that it finds in a
block, but not at the record that is still in its buffer when the blocks have ended; when the last
record of the log crosses the end of a block, its number is given away again.

* `clogGenRecord`: a record with the next number.
* `LogState.Reached`: runs of appended records, flushes and restarts. Every restart finds whole
  records, the last of which ends in the block where it starts.
* `lsn_never_repeats`: in such a run the numbers never repeat.
-/

namespace Miniob.Storage.Clog

open Miniob.Lib

/-! ## The counter -/

/-- The number of the record and the counter afterwards.
Source: `clog.cpp`, `CLogManager::get_next_lsn` -/
def getNextLsn (gloablLsn : Int) (recLen : ℕ) : Int × Int := (gloablLsn, gloablLsn + recLen)

/-- A record with the next number, and the counter afterwards.
Source: `clog.cpp`, `CLogManager::clog_gen_record` -/
def clogGenRecord (gloablLsn : Int) (flag : CLogType) (trxId : Int) (tableName : List UInt8)
    (rec : Record) (old : TableName) (heap : ℕ → UInt8) : Option (CLogRecord × Int) := do
  let logRec ← CLogRecord.new flag gloablLsn trxId tableName rec old heap
  return (logRec, (getNextLsn gloablLsn logRec.getLogrecLen).2)

namespace CLogRecord

/-- The number of the record: the first byte of its range. -/
def lsn (r : CLogRecord) : Int := r.hdr.lsn

/-- The end of its range. -/
def lsnEnd (r : CLogRecord) : Int := r.hdr.lsn + r.getLogrecLen

theorem lsn_lt_lsnEnd (r : CLogRecord) : r.lsn < r.lsnEnd := by
  have := r.getLogrecLen_pos
  unfold lsn lsnEnd
  omega

end CLogRecord

/-- A new record has the number that it got. -/
theorem CLogRecord.new_lsn {flag : CLogType} {lsn trxId : Int} {tableName : List UInt8}
    {rec : Record} {old : TableName} {heap : ℕ → UInt8} {r : CLogRecord}
    (h : CLogRecord.new flag lsn trxId tableName rec old heap = some r) : r.lsn = lsn := by
  cases flag with
  | redoError => cases h
  | redoMtrBegin =>
    cases h
    rfl
  | redoMtrCommit =>
    cases h
    rfl
  | redoInsert =>
    obtain ⟨-, hr⟩ := Option.ite_none_right_eq_some.mp h
    cases hr
    rfl
  | redoDelete =>
    obtain ⟨-, hr⟩ := Option.ite_none_right_eq_some.mp h
    cases hr
    rfl

/-- Its fields are integers of 32 bits when those that it got are. -/
theorem CLogRecord.new_inRange {flag : CLogType} {lsn trxId : Int} {tableName : List UInt8}
    {rec : Record} {old : TableName} {heap : ℕ → UInt8} {r : CLogRecord}
    (h : CLogRecord.new flag lsn trxId tableName rec old heap = some r) (hlsn : IsInt32 lsn)
    (htrx : IsInt32 trxId) (hpage : IsInt32 rec.rid.pageNum) (hslot : IsInt32 rec.rid.slotNum)
    (hlen : IsInt32 (r.getLogrecLen : ℕ)) : r.InRange := by
  cases flag with
  | redoError => cases h
  | redoMtrBegin =>
    cases h
    exact ⟨hlsn, htrx, hlen, trivial⟩
  | redoMtrCommit =>
    cases h
    exact ⟨hlsn, htrx, hlen, trivial⟩
  | redoInsert =>
    obtain ⟨-, hr⟩ := Option.ite_none_right_eq_some.mp h
    cases hr
    exact ⟨hlsn, htrx, hlen, hpage, hslot⟩
  | redoDelete =>
    obtain ⟨-, hr⟩ := Option.ite_none_right_eq_some.mp h
    cases hr
    exact ⟨hlsn, htrx, hlen, hpage, hslot⟩

theorem clogGenRecord_eq_some {gloablLsn next trxId : Int} {flag : CLogType}
    {tableName : List UInt8} {rec : Record} {old : TableName} {heap : ℕ → UInt8} {r : CLogRecord}
    (h : clogGenRecord gloablLsn flag trxId tableName rec old heap = some (r, next)) :
    CLogRecord.new flag gloablLsn trxId tableName rec old heap = some r ∧
      next = gloablLsn + r.getLogrecLen := by
  simp only [clogGenRecord, Option.bind_eq_bind, Option.bind_eq_some_iff, getNextLsn] at h
  obtain ⟨logRec, hnew, h⟩ := h
  obtain ⟨rfl, rfl⟩ := Prod.mk.inj (Option.some.inj h)
  exact ⟨hnew, rfl⟩

/-! ## The blocks of the records -/

theorem frameAt_append (rs rs' : List CLogRecord) : ∀ pos,
    frameAt (rs ++ rs') pos =
      if pos < (encodings rs).length then frameAt rs pos
      else frameAt rs' (pos - (encodings rs).length) := by
  induction rs with
  | nil =>
    intro pos
    rfl
  | cons r rs ih =>
    intro pos
    rw [List.cons_append, frameAt, frameAt, ih, encodings_cons, List.length_append,
      r.encoding_length]
    by_cases h : pos < r.getLogrecLen
    · rw [if_pos h, if_pos h, if_pos (by omega)]
    · rw [if_neg h, if_neg h]
      by_cases h' : pos < r.getLogrecLen + (encodings rs).length
      · rw [if_pos h', if_pos (by omega)]
      · rw [if_neg h', if_neg (by omega), Nat.sub_sub]

/-- Every block has bytes of the log. -/
theorem Packed.lt {blocks : List CLogBlock} (h : Packed blocks) {i : ℕ} {block : CLogBlock}
    (hblock : blocks[i]? = some block) : clogBlockDataSize * i < (logBytes blocks).length := by
  obtain ⟨hi, rfl⟩ := List.getElem?_eq_some_iff.mp hblock
  obtain ⟨hne, hle⟩ := h.1 blocks[i] (List.getElem_mem hi)
  have hfull : ∀ b ∈ blocks.take i, b.logDataLen = clogBlockDataSize := by
    intro b hb
    refine h.2 b ?_
    rw [List.dropLast_eq_take]
    exact List.mem_of_mem_take (i := i) (by
      rwa [List.take_take, Nat.min_eq_left (by omega)])
  have hsplit : blocks = blocks.take i ++ blocks[i] :: blocks.drop (i + 1) := by
    rw [← List.drop_eq_getElem_cons hi, List.take_append_drop]
  have hlen : (logBytes blocks).length = (logBytes (blocks.take i)).length +
      (blocks[i].logDataLen + (logBytes (blocks.drop (i + 1))).length) := by
    conv_lhs => rw [hsplit]
    rw [logBytes_append, List.length_append, logBytes, logBytes, logBytes, List.flatMap_cons,
      List.length_append, CLogBlock.logData_length hle]
  rw [hlen, logBytes_length_of_full hfull, List.length_take, Nat.min_eq_left hi.le]
  omega

/-- Full blocks in front of blocks that are packed. -/
theorem Packed.append_left {full blocks : List CLogBlock} (h : Packed blocks)
    (hfull : ∀ block ∈ full, block.logDataLen = clogBlockDataSize) : Packed (full ++ blocks) := by
  constructor
  · intro block hblock
    rcases List.mem_append.mp hblock with hblock | hblock
    · rw [hfull block hblock]
      exact ⟨by decide, le_rfl⟩
    · exact h.1 block hblock
  · intro block hblock
    cases blocks with
    | nil =>
      rw [List.append_nil] at hblock
      exact hfull block (List.mem_of_mem_dropLast hblock)
    | cons b blocks =>
      rw [List.dropLast_append_of_ne_nil (List.cons_ne_nil _ _), List.mem_append] at hblock
      exact hblock.elim (hfull block) (h.2 block)

namespace CLogManager

variable {m : CLogManager} {full : List CLogBlock} {tail : Option CLogBlock}

/-- The blocks of the log. -/
theorem Kept.packed (h : m.Kept full tail) : Packed (full ++ m.logBuffer.held) := by
  refine Packed.append_left ?_ h.flushed.full
  rcases h.buffer with hv | ⟨k, hb, hne⟩
  · rw [hv.held_eq]
    exact ⟨by simp, by simp⟩
  · have hheld : m.logBuffer.held = m.logBuffer.blocks k ++ [m.logBuffer.buffer k] := by
      rw [hb.held_eq, CLogBuffer.blocks, CLogBuffer.blocks, List.range_succ, List.map_append]
      rfl
    rw [hheld]
    refine Packed.append_left ⟨?_, by simp⟩ ?_
    · intro block hblock
      obtain rfl := List.mem_singleton.mp hblock
      exact ⟨hne, hb.le⟩
    · intro block hblock
      obtain ⟨j, hj, rfl⟩ := List.mem_map.mp hblock
      exact hb.full j (List.mem_range.mp hj)

/-- The blocks of the file. -/
theorem Kept.packed_file (h : m.Kept full tail) : Packed (full ++ tail.toList) := by
  refine Packed.append_left ?_ h.flushed.full
  cases tail with
  | none => exact ⟨by simp, by simp⟩
  | some block =>
    refine ⟨fun b hb => ?_, by simp⟩
    obtain rfl := List.mem_singleton.mp hb
    exact ⟨(h.notFull b rfl).1, (h.notFull b rfl).2.le⟩

/-- A block of the file has grown in the buffer. -/
theorem Kept.grows_file (h : m.Kept full tail) {i : ℕ} {block : CLogBlock}
    (hblock : (full ++ tail.toList)[i]? = some block) :
    ∃ block', (full ++ m.logBuffer.held)[i]? = some block' ∧ block.Grows block' := by
  by_cases hi : i < full.length
  · rw [List.getElem?_append_left hi] at hblock ⊢
    exact ⟨block, hblock, .refl _⟩
  · rw [List.getElem?_append_right (by omega)] at hblock ⊢
    cases htail : tail with
    | none =>
      rw [htail] at hblock
      cases hblock
    | some last =>
      rw [htail, Option.toList_some, List.getElem?_singleton,
        Option.ite_none_right_eq_some] at hblock
      obtain ⟨hi', hblock⟩ := hblock
      cases hblock
      rw [hi']
      exact h.grows _ htail

end CLogManager

/-- A record that is appended. -/
theorem Framed.append {blocks blocks' : List CLogBlock} {rs : List CLogRecord} {r : CLogRecord}
    (h : Framed blocks rs) (hpacked : Packed blocks) (hpacked' : Packed blocks')
    (hbytes : logBytes blocks' = logBytes blocks ++ r.encoding)
    (hext : Lengthened blocks blocks' r 0) : Framed blocks' (rs ++ [r]) := by
  have hlen : (logBytes blocks).length = (encodings rs).length := by rw [h.bytes]
  refine ⟨by rw [hbytes, h.bytes, encodings_append, encodings_cons, encodings_nil,
    List.append_nil], fun i block' hblock' => ?_⟩
  rw [frameAt_append]
  cases hblock : blocks[i]? with
  | some block =>
    obtain ⟨block₁, hblock₁, hgrows⟩ := hext.grows i block hblock
    obtain rfl := Option.some.inj (hblock'.symm.trans hblock₁)
    rw [if_pos (hlen ▸ hpacked.lt hblock), hgrows.firstRecOffset, h.frame i block hblock]
  | none =>
    obtain ⟨hle, hframe⟩ := hext.frame i block' hblock' hblock
    have hlt := hpacked'.lt hblock'
    rw [hbytes, List.length_append, r.encoding_length] at hlt
    rw [if_neg (by omega), frameAt, if_pos (by omega), hframe, Nat.zero_add, hlen]

/-- A part of the log that is made of whole records. -/
theorem Framed.of_grows {blocks blocks' : List CLogBlock} {rs rest : List CLogRecord}
    (h : Framed blocks' (rs ++ rest)) (hpacked : Packed blocks)
    (hbytes : logBytes blocks = encodings rs)
    (hgrows : ∀ (i : ℕ) (block : CLogBlock), blocks[i]? = some block →
      ∃ block', blocks'[i]? = some block' ∧ block.Grows block') : Framed blocks rs := by
  refine ⟨hbytes, fun i block hblock => ?_⟩
  obtain ⟨block', hblock', hg⟩ := hgrows i block hblock
  have hlt := hpacked.lt hblock
  rw [hbytes] at hlt
  rw [← hg.firstRecOffset, h.frame i block' hblock', frameAt_append, if_pos hlt]

/-! ## The records that are found -/

/-- The records that are found are among those of the log. -/
theorem mem_of_mem_replay (rs : List CLogRecord) : ∀ {pos : ℕ} {waiting : List CLogRecord}
    {x : CLogRecord}, x ∈ (replay pos waiting rs).1 ++ (replay pos waiting rs).2 →
    x ∈ waiting ∨ x ∈ rs := by
  induction rs with
  | nil =>
    intro pos waiting x hx
    exact Or.inl hx
  | cons r rs ih =>
    intro pos waiting x hx
    rw [replay] at hx
    split at hx
    · rcases ih hx with hx | hx
      · rcases List.mem_append.mp hx with hx | hx
        · exact Or.inl hx
        · exact Or.inr (List.mem_cons.mpr (Or.inl (List.mem_singleton.mp hx)))
      · exact Or.inr (List.mem_cons_of_mem _ hx)
    · split at hx
      · simp only [List.append_assoc] at hx
        rcases List.mem_append.mp hx with hx | hx
        · exact Or.inl (List.mem_of_mem_head? (Option.mem_toList.mp hx))
        · rcases ih hx with hx | hx
          · exact Or.inr (List.mem_cons.mpr (Or.inl (List.mem_singleton.mp hx)))
          · exact Or.inr (List.mem_cons_of_mem _ hx)
      · simp only [List.append_assoc, List.cons_append] at hx
        rcases List.mem_append.mp hx with hx | hx
        · exact Or.inl (List.mem_of_mem_head? (Option.mem_toList.mp hx))
        · rcases List.mem_cons.mp hx with rfl | hx
          · exact Or.inr List.mem_cons_self
          · exact Or.inr (List.mem_cons_of_mem _ ((ih hx).resolve_left (List.not_mem_nil)))

/-- A last record that ends in its block is the last one that is found. -/
theorem replay_concat (rs : List CLogRecord) {r : CLogRecord} : ∀ {pos : ℕ}
    (waiting : List CLogRecord), ¬ r.Crosses (pos + (encodings rs).length) →
    ∃ found, replay pos waiting (rs ++ [r]) = (found ++ [r], []) := by
  induction rs with
  | nil =>
    intro pos waiting hr
    rw [encodings_nil, List.length_nil, Nat.add_zero] at hr
    refine ⟨waiting.head?.toList, ?_⟩
    rw [List.nil_append, replay, if_neg fun h => hr h.1, if_neg hr]
    rfl
  | cons r' rs ih =>
    intro pos waiting hr
    rw [encodings_cons, List.length_append, r'.encoding_length, ← Nat.add_assoc] at hr
    rw [List.cons_append, replay]
    split
    · exact ih _ hr
    · split
      · obtain ⟨found, hfound⟩ := ih [r'] hr
        exact ⟨waiting.head?.toList ++ found, by rw [hfound, List.append_assoc]⟩
      · obtain ⟨found, hfound⟩ := ih [] hr
        exact ⟨waiting.head?.toList ++ r' :: found, by
          rw [hfound, List.append_assoc, List.cons_append]⟩

/-- The last record ends in the block where it starts. -/
def EndsInBlock (rs : List CLogRecord) : Prop :=
  ∀ before last, rs = before ++ [last] → ¬ last.Crosses (encodings before).length

/-- Then the counter goes on behind the last record. -/
theorem endLsn_replay {rs : List CLogRecord} (h : EndsInBlock rs) {lsn : Int}
    (hcells : Cells CLogRecord.lsn CLogRecord.lsnEnd 0 lsn rs) :
    endLsn 0 (replay 0 [] rs).1 = lsn ∧ (replay 0 [] rs).2 = [] := by
  rcases List.eq_nil_or_concat rs with rfl | ⟨before, last, rfl⟩
  · exact ⟨hcells, rfl⟩
  · rw [List.concat_eq_append] at h hcells ⊢
    have hlast := h before last rfl
    rw [← Nat.zero_add (encodings before).length] at hlast
    obtain ⟨found, hfound⟩ := replay_concat before [] hlast
    rw [hfound]
    refine ⟨?_, rfl⟩
    rw [endLsn, List.foldl_append]
    obtain ⟨-, -, hend⟩ := cells_cut hcells
    exact hend

theorem forall₂_mem_right {α β : Type} {R : α → β → Prop} {l : List α} {l' : List β}
    (h : List.Forall₂ R l l') {b : β} (hb : b ∈ l') : ∃ a ∈ l, R a b := by
  induction h with
  | nil => cases hb
  | cons hab _ ih =>
    rcases List.mem_cons.mp hb with rfl | hb
    · exact ⟨_, List.mem_cons_self, hab⟩
    · obtain ⟨a, ha, hr⟩ := ih hb
      exact ⟨a, List.mem_cons_of_mem _ ha, hr⟩

/-! ## Runs -/

/-- A log and the counter. -/
structure LogState where
  /-- The log of the process. -/
  manager : CLogManager
  /-- `CLogManager::gloabl_lsn_` -/
  gloablLsn : Int
  /-- The records of the log. A restart has lost those that had not been written out. -/
  records : List CLogRecord
  /-- The records that the last restart has found. -/
  recovered : List DecodedRecord

namespace LogState

/-- The states after a run of appended records, flushes and restarts. A restart finds the log up to
the end of some record, that record ends in the block where it starts, and the last block of the
file ends the loop over its blocks. -/
inductive Reached (fhd : CLogBlock) : LogState → Prop
  | fresh : Reached fhd ⟨.fresh fhd, 0, [], []⟩
  | append {s : LogState} {m : CLogManager} {flag : CLogType} {trxId next : Int}
      {tableName : List UInt8} {rec : Record} {old : TableName} {heap : ℕ → UInt8}
      {r : CLogRecord} {rc : RC} (h : Reached fhd s) (htrx : IsInt32 trxId)
      (hpage : IsInt32 rec.rid.pageNum) (hslot : IsInt32 rec.rid.slotNum)
      (hgen : clogGenRecord s.gloablLsn flag trxId tableName rec old heap = some (r, next))
      (hnext : next ≤ 2147483647) (hlen : r.getLogrecLen ≤ CLogBuffer.capacity)
      (hrun : s.manager.clogAppendRecord r = some (rc, m)) :
      Reached fhd ⟨m, next, s.records ++ [r], s.recovered⟩
  | sync {s : LogState} {m : CLogManager} (h : Reached fhd s)
      (hrun : s.manager.clogSync = some m) : Reached fhd { s with manager := m }
  | restart {s : LogState} {m : CLogManager} {rs rest : List CLogRecord} {fuel : ℕ}
      {stack : ℕ → CLogBlock} {t : Recovery} (h : Reached fhd s) (hrecords : s.records = rs ++ rest)
      (hfile : s.manager.logFile.Content (encodings rs)) (hlast : EndsInBlock rs)
      (hread : s.manager.logFile.Readable) (hrun : s.manager.restart fuel stack = some (m, t)) :
      Reached fhd ⟨m, t.gloablLsn, rs, t.records⟩

/-- What holds in every state that is reached. -/
structure Sound (s : LogState) (full : List CLogBlock) (tail : Option CLogBlock) : Prop where
  kept : s.manager.Kept full tail
  framed : Framed (full ++ s.manager.logBuffer.held) s.records
  inRange : ∀ r ∈ s.records, r.InRange
  cells : Cells CLogRecord.lsn CLogRecord.lsnEnd 0 s.gloablLsn s.records
  recovered : ∀ d ∈ s.recovered, ∃ next, d.nextLsn = some next ∧ next ≤ s.gloablLsn

theorem Reached.sound {fhd : CLogBlock} {s : LogState} (h : Reached fhd s) :
    ∃ full tail, s.Sound full tail := by
  induction h with
  | fresh =>
    refine ⟨[], none, ⟨CLogManager.kept_fresh fhd, ⟨rfl, ?_⟩, by simp, rfl, by simp⟩⟩
    intro i block hblock
    cases hblock
  | @append s m flag trxId next tableName rec old heap r rc _ htrx hpage hslot hgen hnext hlen hrun
    ih =>
    obtain ⟨full, tail, hs⟩ := ih
    obtain ⟨rc', m', full', tail', hrun', hk', hbytes, hext, -⟩ := hs.kept.append r hlen
    rw [hrun] at hrun'
    cases hrun'
    obtain ⟨hnew, rfl⟩ := clogGenRecord_eq_some hgen
    have hpos := r.getLogrecLen_pos
    have hge := cells_le hs.cells
    have hr := CLogRecord.new_inRange hnew ⟨by omega, by omega⟩ htrx hpage hslot
      ⟨by omega, by omega⟩
    have hlsn : r.hdr.lsn = s.gloablLsn := CLogRecord.new_lsn hnew
    refine ⟨full', tail', ⟨hk', hs.framed.append hs.kept.packed hk'.packed hbytes hext, ?_, ?_, ?_⟩⟩
    · intro x hx
      rcases List.mem_append.mp hx with hx | hx
      · exact hs.inRange x hx
      · obtain rfl := List.mem_singleton.mp hx
        exact hr
    · refine cells_append.mpr ⟨s.gloablLsn, hs.cells, hlsn, r.lsn_lt_lsnEnd, ?_⟩
      rw [CLogRecord.lsnEnd, hlsn]
      rfl
    · intro d hd
      obtain ⟨e, he, hle⟩ := hs.recovered d hd
      exact ⟨e, he, hle.trans (by simp)⟩
  | @sync s m _ hrun ih =>
    obtain ⟨full, tail, hs⟩ := ih
    obtain ⟨m', full', tail', hrun', hk', hblocks, -⟩ := hs.kept.sync
    rw [hrun] at hrun'
    cases hrun'
    exact ⟨full', tail', ⟨hk', hblocks ▸ hs.framed, hs.inRange, hs.cells, hs.recovered⟩⟩
  | @restart s m rs rest fuel stack t _ hrecords hfile hlast hread hrun ih =>
    obtain ⟨full, tail, hs⟩ := ih
    obtain ⟨hk', hheld, -⟩ := hs.kept.restart hread hrun
    -- the file has the blocks of the log up to the end of a record
    obtain ⟨blocks, hblocks, hbytes⟩ := hfile
    obtain rfl := hblocks.unique hs.kept.consists
    have hframed := hs.framed
    rw [hrecords] at hframed
    have hframed' : Framed (full ++ tail.toList) rs :=
      hframed.of_grows hs.kept.packed_file hbytes fun i block => hs.kept.grows_file
    have hin : ∀ r ∈ rs, r.InRange := fun r hr =>
      hs.inRange r (hrecords ▸ List.mem_append_left _ hr)
    have hcells := hs.cells
    rw [hrecords] at hcells
    obtain ⟨lsn, hcells, -⟩ := cells_append.mp hcells
    obtain ⟨hend, hwaiting⟩ := endLsn_replay hlast hcells
    simp only [CLogManager.restart, Option.bind_eq_bind, Option.bind_eq_some_iff] at hrun
    obtain ⟨t', hrecover, hrun⟩ := hrun
    obtain ⟨rfl, rfl⟩ := Prod.mk.inj (Option.some.inj hrun)
    obtain ⟨hfound, hlsn⟩ := recover_replay hblocks hread hs.kept.packed_file hframed' hin hrecover
    rw [hend] at hlsn
    rw [hwaiting, List.head?_nil, Option.toList_none, List.append_nil] at hfound
    refine ⟨full, tail, ⟨hk', ?_, hin, ?_, ?_⟩⟩
    · rw [hheld]
      exact hframed'
    · rw [hlsn]
      exact hcells
    · intro d hd
      obtain ⟨r, hr, rest', hdecode⟩ := forall₂_mem_right hfound hd
      have hr' : r ∈ rs := by
        refine (mem_of_mem_replay rs (List.mem_append_left _ hr)).resolve_left ?_
        exact List.not_mem_nil
      refine ⟨r.lsnEnd, CLogRecord.nextLsn_of_decode (hin r hr') hdecode, ?_⟩
      rw [hlsn]
      exact (cells_mem hcells hr').2.2

/-- In every state that is reached, the ranges of the records of the log follow one another, and
the next number is behind the ranges of these records and of those that the last restart has
found. -/
theorem lsn_never_repeats {fhd : CLogBlock} {s : LogState} (h : Reached fhd s) :
    (s.records.Pairwise fun r r' => r.lsnEnd ≤ r'.lsn) ∧
      (∀ r ∈ s.records, r.lsnEnd ≤ s.gloablLsn) ∧
        ∀ d ∈ s.recovered, ∃ next, d.nextLsn = some next ∧ next ≤ s.gloablLsn := by
  obtain ⟨full, tail, hs⟩ := h.sound
  exact ⟨cells_pairwise_le hs.cells, fun r hr => (cells_mem hs.cells hr).2.2, hs.recovered⟩

/-- A transaction whose end is recovered. -/
theorem commit_keeps_numbers :
    ∃ s, Reached .zero s ∧ s.recovered ≠ [] ∧ s.gloablLsn = 16 ∧
      (s.records.Pairwise fun r r' => r.lsnEnd ≤ r'.lsn) ∧
        (∀ r ∈ s.records, r.lsnEnd ≤ s.gloablLsn) ∧
          ∀ d ∈ s.recovered, ∃ next, d.nextLsn = some next ∧ next ≤ s.gloablLsn := by
  obtain ⟨rc, m, full, tail, hrun, hk, hbytes, -, hrc, hcommit⟩ :=
    (CLogManager.kept_fresh .zero).append (.mtr true 0 1) (by decide)
  obtain rfl := hrc.mpr (by decide)
  have hfile := hcommit rfl rfl
  have hlog : logBytes (full ++ tail.toList) = encodings [.mtr true 0 1] := by
    rw [hfile, hbytes]
    rfl
  have hread : m.logFile.Readable := by
    refine ⟨_, hk.consists, Or.inr ?_⟩
    obtain ⟨block, hblock⟩ : ∃ block, tail = some block := by
      cases htail : tail with
      | some block => exact ⟨block, rfl⟩
      | none =>
        rw [htail, Option.toList_none, List.append_nil] at hlog
        have hlen := congrArg List.length hlog
        rw [logBytes_length_of_full hk.flushed.full] at hlen
        have hsixteen : (encodings [.mtr true 0 1]).length = 16 := rfl
        rw [hsixteen, clogBlockDataSize] at hlen
        omega
    exact ⟨block, by simp [hblock], (hk.notFull block hblock).2⟩
  have hreached : Reached .zero ⟨m, 16, [.mtr true 0 1], []⟩ :=
    @Reached.append .zero _ m .redoMtrCommit 1 16 [] ⟨⟨0, 0⟩, []⟩ .zero (fun _ => 0) _ _ .fresh
      (by decide) (by decide) (by decide) rfl (by decide) (by decide) hrun
  have hends : EndsInBlock [.mtr true 0 1] := by
    intro before last h
    rw [List.singleton_eq_append_iff] at h
    rcases h with ⟨rfl, h⟩ | ⟨-, h⟩
    · cases h
      decide
    · cases h
  have hrestart : (((CLogManager.fresh .zero).clogAppendRecord (.mtr true 0 1)).bind fun r =>
      (r.2.restart 1 fun _ => .zero).map fun r => (r.2.gloablLsn, r.2.records.length)) =
        some (16, 1) := by
    decide
  rw [hrun, Option.bind_some, Option.map_eq_some_iff] at hrestart
  obtain ⟨⟨m', t⟩, hrestart, ht⟩ := hrestart
  obtain ⟨hlsn, hlen⟩ := Prod.mk.inj ht
  have hreached' := hreached.restart (List.append_nil _).symm ⟨_, hk.consists, hlog⟩ hends hread
    hrestart
  exact ⟨_, hreached', List.ne_nil_of_length_pos (by rw [hlen]; decide), hlsn,
    lsn_never_repeats hreached'⟩

end LogState

/-! ## A record that goes over the end of a block -/

/-- A row of 464 bytes. -/
def wideRow : Record := ⟨⟨1, 0⟩, List.replicate 464 0⟩

/-- The insertion of the row, with 512 bytes the only record of the log, is written out, and the
log is opened again. -/
def wideRestart : Option Recovery := do
  let (r, _) ← clogGenRecord 0 .redoInsert 1 [116] wideRow .zero fun _ => 0
  let (_, m) ← (CLogManager.fresh .zero).clogAppendRecord r
  let m ← m.clogSync
  let (_, t) ← m.restart 2 fun _ => .zero
  return t

/-- The next record gets the number of the insertion. -/
theorem number_given_twice :
    ∃ t d r next, wideRestart = some t ∧ d ∈ t.records ∧ d.nextLsn = some 512 ∧
      clogGenRecord t.gloablLsn .redoMtrBegin 2 [] wideRow .zero (fun _ => 0) = some (r, next) ∧
      r.lsn = 0 := by
  have hrun : wideRestart.map (fun t => (t.gloablLsn, t.records.map DecodedRecord.nextLsn)) =
      some (0, [some 512]) := by
    decide +kernel
  obtain ⟨t, ht, hvalues⟩ := Option.map_eq_some_iff.mp hrun
  obtain ⟨hlsn, hnext⟩ := Prod.mk.inj hvalues
  obtain ⟨d, hd, hd'⟩ := List.mem_map.mp (hnext ▸ List.mem_singleton.mpr rfl)
  exact ⟨t, d, .mtr false t.gloablLsn 2, t.gloablLsn + 16, ht, hd, hd', rfl, hlsn⟩

end Miniob.Storage.Clog
