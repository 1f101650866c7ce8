import Miniob.Storage.Common.Redo

/-!
# The loop of recovery over several tables

Recovery hands the redo records of committed transactions to the tables, in the order of the log. It
ends early when a transaction has no entry, and when a page has no room for a record.

* `Db.redoneBy`, `Db.redone`: the redo records that are handed to a table, and `recover_db`: what
  they do.
* `Db.HasRoomFor`: the pages have room for some insertions.
* `Db.recover_committed`: then recovery succeeds, and redoes what has been committed.
-/

namespace Miniob.Storage.Common

open Miniob.Storage.Index Miniob.Storage.Record Miniob.Storage.Transaction

variable {V A : Type} [LinearOrder A]

namespace Db

/-- The redo records that the loop hands to a table. -/
def redoneBy (trxCommited : BitVec 32 → Option Bool) (db : Db V A) :
    List (String × LogRecord V) → List (String × LogRecord V)
  | [] => []
  | (name, r) :: log =>
    match r.redoTrxId with
    | none => redoneBy trxCommited db log
    | some trxId =>
      match trxCommited trxId with
      | none => []
      | some false => redoneBy trxCommited db log
      | some true =>
        match db.openedTables name with
        | none => redoneBy trxCommited db log
        | some t =>
          let (rc, t) := t.redo r
          let db : Db V A := ⟨Function.update db.openedTables name (some t)⟩
          (name, r) :: if rc = .success then redoneBy trxCommited db log else []

/-- A redo record is handed to its table. -/
def redo (db : Db V A) (r : String × LogRecord V) : Db V A :=
  match db.openedTables r.1 with
  | none => db
  | some t => ⟨Function.update db.openedTables r.1 (some (t.redo r.2).2)⟩

/-- The loop does nothing else. -/
theorem redoLoop_db (trxCommited : BitVec 32 → Option Bool) (log : List (String × LogRecord V)) :
    ∀ (db : Db V A) (max : BitVec 32),
      (redoLoop trxCommited db max log).2.1 = (redoneBy trxCommited db log).foldl redo db := by
  induction log with
  | nil => exact fun _ _ => rfl
  | cons entry log ih =>
    intro db max
    obtain ⟨name, r⟩ := entry
    rw [redoLoop, redoneBy]
    cases r.redoTrxId with
    | none => exact ih db max
    | some trxId =>
      dsimp only
      cases trxCommited trxId with
      | none => rfl
      | some committed =>
        cases committed with
        | false => exact ih db max
        | true =>
          dsimp only
          cases hdb : db.openedTables name with
          | none => exact ih db max
          | some t =>
            have hredo : db.redo (name, r) =
                ⟨Function.update db.openedTables name (some (t.redo r).2)⟩ := by
              simp only [redo, hdb]
            dsimp only
            rw [List.foldl_cons, hredo]
            by_cases hrc : (t.redo r).1 = .success
            · rw [if_pos hrc, if_pos hrc]
              exact ih _ _
            · rw [if_neg hrc, if_neg hrc]
              rfl

/-- The record is about a page of the table. -/
def onPage (name : String) (p : ℕ) (r : String × LogRecord V) : Bool :=
  r.1 = name ∧ r.2.redoRid.any fun rid => rid.pageNum = (p : Int)

/-- The record is an insertion into a slot of a page of the table. -/
def HasSlotFor (t : Table V A) : LogRecord V → Prop
  | .redoInsert _ rid _ => 0 < rid.pageNum ∧ rid.pageNum < t.records.length ∧ 0 ≤ rid.slotNum ∧
    rid.slotNum < (t.records.page rid.pageNum.toNat).recordCapacity
  | _ => False

instance (t : Table V A) : (r : LogRecord V) → Decidable (HasSlotFor t r)
  | .redoInsert _ _ _ => inferInstanceAs (Decidable (_ ∧ _ ∧ _ ∧ _))
  | .redoDelete _ _ | .mtrBegin _ | .mtrCommit _ => inferInstanceAs (Decidable False)

theorem HasSlotFor.eq_redoInsert {t : Table V A} {r : LogRecord V} (h : HasSlotFor t r) :
    ∃ trxId data, ∃ p slot : ℕ, r = .redoInsert trxId (slotRid p slot) data ∧ 0 < p ∧
      p < t.records.length ∧ slot < (t.records.page p).recordCapacity := by
  cases r with
  | redoInsert trxId rid data =>
    obtain ⟨pageNum, slotNum⟩ := rid
    obtain ⟨hp, hlt, hslot, hcapacity⟩ := h
    dsimp only at hp hlt hslot hcapacity
    refine ⟨trxId, data, pageNum.toNat, slotNum.toNat, ?_, by omega, by omega, by omega⟩
    rw [slotRid, Int.toNat_of_nonneg hp.le, Int.toNat_of_nonneg hslot]
  | redoDelete | mtrBegin | mtrCommit => exact h.elim

/-- The records are insertions into slots of the pages, and every page has room for its own. -/
structure HasRoomFor (db : Db V A) (log : List (String × LogRecord V)) : Prop where
  slot : ∀ r ∈ log, ∃ t ∈ db.openedTables r.1, HasSlotFor t r.2
  room : ∀ r ∈ log, ∀ t ∈ db.openedTables r.1, ∀ p < t.records.length, 0 < p →
    (t.records.page p).recordNum + log.countP (onPage r.1 p) ≤ (t.records.page p).recordCapacity

instance (db : Db V A) (log : List (String × LogRecord V)) : Decidable (db.HasRoomFor log) :=
  decidable_of_iff ((∀ r ∈ log, ∃ t ∈ db.openedTables r.1, HasSlotFor t r.2) ∧
      ∀ r ∈ log, ∀ t ∈ db.openedTables r.1, ∀ p < t.records.length, 0 < p →
        (t.records.page p).recordNum + log.countP (onPage r.1 p) ≤
          (t.records.page p).recordCapacity)
    ⟨fun h => ⟨h.1, h.2⟩, fun h => ⟨h.slot, h.room⟩⟩

/-- The first insertion succeeds, and the pages have room for the others. -/
theorem HasRoomFor.redo {db : Db V A} {name : String} {r : LogRecord V}
    {log : List (String × LogRecord V)} (h : db.HasRoomFor ((name, r) :: log)) :
    ∃ t, db.openedTables name = some t ∧ (t.redo r).1 = .success ∧
      HasRoomFor ⟨Function.update db.openedTables name (some (t.redo r).2)⟩ log := by
  obtain ⟨t, hdb, hslots⟩ := h.slot _ List.mem_cons_self
  obtain ⟨trxId, data, p, slot, rfl, hp, hlt, hslot⟩ := hslots.eq_redoInsert
  have hon : ∀ q, onPage name q (name, (.redoInsert trxId (slotRid p slot) data : LogRecord V)) =
      decide (q = p) := by
    intro q
    simp [onPage, LogRecord.redoRid, slotRid, eq_comm]
  have hroom := h.room _ List.mem_cons_self t hdb p hlt hp
  rw [List.countP_cons_of_pos (by simp [hon])] at hroom
  rcases recoverInsertRecord_cases t.records p slot data with
    ⟨-, header, hrun⟩ | ⟨hno, -⟩
  · have hredo : t.redo (.redoInsert trxId (slotRid p slot) data) = (.success, { t with
        records := { t.records.setPage p ((t.records.page p).fill slot data) with
          header := header } }) := by
      rw [Table.redo, Common.redo, hrun]
    -- the page has one record more, and the others are as they were
    have hpage : ∀ q, ((t.records.setPage p ((t.records.page p).fill slot data)).page q) =
        if q = p then (t.records.page p).fill slot data else t.records.page q := by
      intro q
      split_ifs with hq
      · rw [hq, RecordFile.setPage_page_self]
      · exact RecordFile.setPage_page_of_ne hq _
    have hcapacity : ∀ q, ((t.records.setPage p ((t.records.page p).fill slot data)).page
        q).recordCapacity = (t.records.page q).recordCapacity := by
      intro q
      rw [hpage]
      split_ifs with hq
      · rw [hq]
        rfl
      · rfl
    refine ⟨t, hdb, by rw [hredo], ?_⟩
    rw [hredo]
    refine ⟨fun r' hr' => ?_, fun r' hr' t' hdb' q hqlt hq => ?_⟩
    · obtain ⟨t', hdb', hslots'⟩ := h.slot r' (List.mem_cons_of_mem _ hr')
      by_cases hname : r'.1 = name
      · cases hdb.symm.trans (hname ▸ hdb')
        refine ⟨_, by rw [hname]; exact Function.update_self .., ?_⟩
        obtain ⟨_, _, p', slot', heq, hp', hlt', hslot'⟩ := hslots'.eq_redoInsert
        rw [heq]
        refine ⟨Int.ofNat_lt.mpr hp', Int.ofNat_lt.mpr hlt', Int.natCast_nonneg _, ?_⟩
        exact Int.ofNat_lt.mpr (hslot'.trans_eq (hcapacity p').symm)
      · exact ⟨t', (Function.update_of_ne hname _ _).trans hdb', hslots'⟩
    · by_cases hname : r'.1 = name
      · rw [hname] at hdb' ⊢
        cases (Function.update_self _ _ _).symm.trans hdb'
        have hold := h.room _ List.mem_cons_self t hdb q hqlt hq
        show ((t.records.setPage p _).page q).recordNum + _ ≤
          (((t.records.setPage p _).page q).recordCapacity : Int)
        rw [hcapacity, hpage]
        by_cases hqp : q = p
        · subst hqp
          rw [if_pos rfl, RecordPage.fill]
          push_cast at hroom ⊢
          omega
        · rw [if_neg hqp]
          rwa [List.countP_cons_of_neg (by simp [hon, hqp])] at hold
      · have hdb'' := (Function.update_of_ne hname _ _).symm.trans hdb'
        refine le_trans ?_ (h.room r' (List.mem_cons_of_mem _ hr') t' hdb'' q hqlt hq)
        have hle : log.countP (onPage r'.1 q) ≤
            ((name, .redoInsert trxId (slotRid p slot) data) :: log).countP (onPage r'.1 q) :=
          (List.sublist_cons_self _ log).countP_le
        omega
  · refine absurd ⟨⟨hp, hlt⟩, hslot, fun heq => ?_⟩ hno
    rw [heq] at hroom
    push_cast at hroom
    omega

/-- The record belongs to a transaction with a commit record. -/
def isCommitted (trxCommited : BitVec 32 → Option Bool) (r : String × LogRecord V) : Bool :=
  r.2.redoTrxId.any fun trxId => trxCommited trxId = some true

/-- The loop passes over the records of transactions without a commit record. -/
theorem redoLoop_filter {trxCommited : BitVec 32 → Option Bool} (log : List (String × LogRecord V)) :
    ∀ (db : Db V A) (max : BitVec 32),
      (∀ r ∈ log, ∀ trxId ∈ r.2.redoTrxId, trxCommited trxId ≠ none) →
      redoLoop trxCommited db max log =
        redoLoop trxCommited db max (log.filter (isCommitted trxCommited)) := by
  induction log with
  | nil => exact fun _ _ _ => rfl
  | cons entry log ih =>
    intro db max hentry
    obtain ⟨name, r⟩ := entry
    have hrest : ∀ r ∈ log, ∀ trxId ∈ r.2.redoTrxId, trxCommited trxId ≠ none :=
      fun r hr => hentry r (List.mem_cons_of_mem _ hr)
    cases hid : r.redoTrxId with
    | none =>
      rw [List.filter_cons_of_neg (by simp [isCommitted, hid]), redoLoop, hid]
      exact ih db max hrest
    | some trxId =>
      cases hcommit : trxCommited trxId with
      | none => exact absurd hcommit (hentry _ List.mem_cons_self trxId hid)
      | some committed =>
        cases committed with
        | false =>
          rw [List.filter_cons_of_neg (by simp [isCommitted, hid, hcommit]), redoLoop, hid]
          dsimp only
          rw [hcommit]
          exact ih db max hrest
        | true =>
          rw [List.filter_cons_of_pos (by simp [isCommitted, hid, hcommit]), redoLoop, redoLoop,
            hid]
          dsimp only
          rw [hcommit]
          dsimp only
          cases db.openedTables name with
          | none => exact ih db max hrest
          | some t =>
            dsimp only
            rw [ih _ _ hrest]

/-- **The loop succeeds** if every transaction has an entry and the pages have room, and it redoes
what has been committed. -/
theorem redoLoop_committed {trxCommited : BitVec 32 → Option Bool}
    (log : List (String × LogRecord V)) : ∀ {db : Db V A} (max : BitVec 32),
    (∀ r ∈ log, ∀ trxId ∈ r.2.redoTrxId, trxCommited trxId ≠ none) →
    db.HasRoomFor (log.filter (isCommitted trxCommited)) →
    (redoLoop trxCommited db max log).1 = .success ∧
      redoneBy trxCommited db log = log.filter (isCommitted trxCommited) := by
  induction log with
  | nil => exact fun _ _ _ => ⟨rfl, rfl⟩
  | cons entry log ih =>
    intro db max hentry hroom
    obtain ⟨name, r⟩ := entry
    have hrest : ∀ r ∈ log, ∀ trxId ∈ r.2.redoTrxId, trxCommited trxId ≠ none :=
      fun r hr => hentry r (List.mem_cons_of_mem _ hr)
    rw [redoLoop, redoneBy]
    cases hid : r.redoTrxId with
    | none =>
      have hno : isCommitted trxCommited (name, r) = false := by
        rw [isCommitted, hid]
        rfl
      rw [List.filter_cons_of_neg (by rw [hno]; simp)] at hroom ⊢
      exact ih max hrest hroom
    | some trxId =>
      dsimp only
      cases hcommit : trxCommited trxId with
      | none => exact absurd hcommit (hentry _ List.mem_cons_self trxId hid)
      | some committed =>
        cases committed with
        | false =>
          have hno : isCommitted trxCommited (name, r) = false := by
            simp [isCommitted, hid, hcommit]
          rw [List.filter_cons_of_neg (by rw [hno]; simp)] at hroom ⊢
          exact ih max hrest hroom
        | true =>
          have hyes : isCommitted trxCommited (name, r) = true := by
            simp [isCommitted, hid, hcommit]
          rw [List.filter_cons_of_pos hyes] at hroom ⊢
          obtain ⟨t, hdb, hrc, hroom'⟩ := hroom.redo
          dsimp only
          rw [hdb]
          dsimp only
          rw [if_pos hrc, if_pos hrc]
          obtain ⟨hsuccess, hredone⟩ := ih (maxTrxId max trxId) hrest hroom'
          exact ⟨hsuccess, congrArg _ hredone⟩

/-- The records of a log that recovery hands to a table. -/
def redone (db : Db V A) (log : List (String × LogRecord V)) : List (String × LogRecord V) :=
  let m := CLogMTRManager.empty.recover log
  redoneBy m.trxCommited db m.logRedoList

/-- Recovery does nothing else to the tables. -/
theorem recover_db (db : Db V A) (log : List (String × LogRecord V)) (counter : BitVec 32) :
    (db.recover log counter).2.1 = (db.redone log).foldl redo db :=
  redoLoop_db _ _ db 0

theorem trxCommited_logRecordManage (m : CLogMTRManager V) (r : String × LogRecord V)
    (trxId : BitVec 32) : (m.logRecordManage r).trxCommited trxId = none ↔
      m.trxCommited trxId = none ∧ r.2 ≠ .mtrBegin trxId ∧ r.2 ≠ .mtrCommit trxId := by
  obtain ⟨name, r⟩ := r
  cases r with
  | mtrBegin id => by_cases hid : trxId = id <;> simp [CLogMTRManager.logRecordManage, hid, eq_comm]
  | mtrCommit id =>
    by_cases hid : trxId = id <;> simp [CLogMTRManager.logRecordManage, hid, eq_comm]
  | redoInsert => simp [CLogMTRManager.logRecordManage]
  | redoDelete => simp [CLogMTRManager.logRecordManage]

/-- A transaction has no entry when no begin record and no commit record has its number. -/
theorem trxCommited_eq_none {log : List (String × LogRecord V)} {trxId : BitVec 32} :
    (CLogMTRManager.empty.recover log).trxCommited trxId = none ↔
      ∀ r ∈ log, r.2 ≠ .mtrBegin trxId ∧ r.2 ≠ .mtrCommit trxId := by
  induction log using List.reverseRecOn with
  | nil => exact iff_of_true rfl fun r hr => absurd hr List.not_mem_nil
  | append_singleton log r ih =>
    have hrun : CLogMTRManager.empty.recover (log ++ [r]) =
        (CLogMTRManager.empty.recover log).logRecordManage r := by
      rw [CLogMTRManager.recover, List.foldl_append]
      rfl
    rw [hrun, trxCommited_logRecordManage, ih]
    simp only [List.forall_mem_append, List.forall_mem_singleton]

/-- **Recovery succeeds** if every transaction has an entry and the pages have room, and it redoes
the records of the transactions with a commit record. -/
theorem recover_committed {db : Db V A} {log : List (String × LogRecord V)} (counter : BitVec 32)
    (hentry : ∀ r ∈ log, ∀ trxId ∈ r.2.redoTrxId,
      ∃ r' ∈ log, r'.2 = .mtrBegin trxId ∨ r'.2 = .mtrCommit trxId)
    (hroom : db.HasRoomFor
      (log.filter (isCommitted (CLogMTRManager.empty.recover log).trxCommited))) :
    (db.recover log counter).1 = .success ∧
      db.redone log = log.filter (isCommitted (CLogMTRManager.empty.recover log).trxCommited) := by
  have hlist : (CLogMTRManager.empty.recover log).logRedoList =
      log.filter fun r => r.2.redoTrxId.isSome :=
    (CLogMTRManager.logRedoList_recover _ log).trans (List.nil_append _)
  have hfilter : (log.filter fun r => r.2.redoTrxId.isSome).filter
      (isCommitted (CLogMTRManager.empty.recover log).trxCommited) =
      log.filter (isCommitted (CLogMTRManager.empty.recover log).trxCommited) := by
    rw [List.filter_filter]
    refine List.filter_congr fun r _ => ?_
    unfold isCommitted
    cases r.2.redoTrxId with
    | none => rfl
    | some trxId => simp
  rw [← hfilter] at hroom ⊢
  unfold recover redone
  simp only [hlist]
  refine redoLoop_committed _ 0 (fun r hr trxId hid hnone => ?_) hroom
  obtain ⟨r', hr', hmtr⟩ := hentry r (List.mem_filter.mp hr).1 trxId hid
  obtain ⟨hbegin, hcommit⟩ := trxCommited_eq_none.mp hnone r' hr'
  exact hmtr.elim hbegin hcommit

end Db

end Miniob.Storage.Common
