import Miniob.Storage.Common.Table

/-!
# Recovery

When a database is opened, the records of its log are read back and the redo records of the
transactions with a commit record are applied to the tables, in the order of the log.

* `LogRecord.apply`, `replayed`: what a redo record says about the records of a table.
* `RecordFile.redo`, `Table.redo`: what recovery does with it. The indexes are left alone.
* `CLogMTRManager`: the transactions and the redo records of a log.
* `Db.recover`: the loop over the redo records, which stops at the first one that fails.

The log is given as the records that are read back, each with the name of its table.
-/

namespace Miniob.Storage.Common

open Miniob.Storage.Index Miniob.Storage.Record Miniob.Storage.Transaction

variable {V A : Type} [LinearOrder A]

/-! ## Redo records -/

namespace LogRecord

/-- The transaction of a redo record. -/
def redoTrxId : LogRecord V → Option (BitVec 32)
  | redoInsert trxId _ _ => some trxId
  | redoDelete trxId _ => some trxId
  | _ => none

/-- The record that a redo record is about. -/
def redoRid : LogRecord V → Option RID
  | redoInsert _ rid _ => some rid
  | redoDelete _ rid => some rid
  | _ => none

/-- What a redo record says about the records of its table. -/
def apply (records : RID → Option (RecordData V)) : LogRecord V → RID → Option (RecordData V)
  | redoInsert _ rid data => Function.update records rid (some data)
  | redoDelete _ rid => Function.update records rid none
  | _ => records

end LogRecord

/-- The records that a log describes, applied in order to an empty table. -/
def replayed (log : List (LogRecord V)) : RID → Option (RecordData V) :=
  log.foldl LogRecord.apply fun _ => none

@[simp] theorem replayed_nil : replayed ([] : List (LogRecord V)) = fun _ => none := rfl

@[simp] theorem replayed_concat (log : List (LogRecord V)) (r : LogRecord V) :
    replayed (log ++ [r]) = r.apply (replayed log) := by
  rw [replayed, List.foldl_append]
  rfl

/-- Source: `table.cpp`, `Table::recover_insert_record`, `Table::recover_delete_record` -/
def redo (file : RecordFile (RecordData V)) : LogRecord V → RC × RecordFile (RecordData V)
  | .redoInsert _ rid data => file.recoverInsertRecord rid data
  | .redoDelete _ rid => file.deleteRecord rid
  | _ => (.success, file)

/-- Redo records are applied one after the other, up to the first one that fails. -/
def redoAll (file : RecordFile (RecordData V)) : List (LogRecord V) → RC × RecordFile (RecordData V)
  | [] => (.success, file)
  | r :: log =>
    if (redo file r).1 = .success then redoAll (redo file r).2 log else redo file r

/-- The table after its file has been changed by recovery. -/
def Table.redo (t : Table V A) (r : LogRecord V) : RC × Table V A :=
  ((Common.redo t.records r).1, { t with records := (Common.redo t.records r).2 })

/-! ## The log -/

/-- Source: `clog.h`, `class CLogMTRManager` -/
structure CLogMTRManager (V : Type) where
  /-- `log_redo_list` -/
  logRedoList : List (String × LogRecord V)
  /-- `trx_commited` -/
  trxCommited : BitVec 32 → Option Bool

namespace CLogMTRManager

/-- No log has been read yet. -/
def empty : CLogMTRManager V := ⟨[], fun _ => none⟩

/-- A transaction that is known already is not entered again when it begins.
Source: `clog.cpp`, `CLogMTRManager::log_record_manage` -/
def logRecordManage (m : CLogMTRManager V) : String × LogRecord V → CLogMTRManager V
  | (_, .mtrCommit trxId) =>
    { m with trxCommited := Function.update m.trxCommited trxId (some true) }
  | (_, .mtrBegin trxId) =>
    { m with
      trxCommited := Function.update m.trxCommited trxId
        (some ((m.trxCommited trxId).getD false)) }
  | r => { m with logRedoList := m.logRedoList ++ [r] }

/-- Read a log back. Source: `clog.cpp`, `CLogManager::recover` -/
def recover (m : CLogMTRManager V) (log : List (String × LogRecord V)) : CLogMTRManager V :=
  log.foldl logRecordManage m

/-- The redo records of the log, in order. -/
theorem logRedoList_recover (m : CLogMTRManager V) (log : List (String × LogRecord V)) :
    (m.recover log).logRedoList =
      m.logRedoList ++ log.filter fun r => r.2.redoTrxId.isSome := by
  unfold recover
  induction log generalizing m with
  | nil => simp
  | cons r log ih =>
    obtain ⟨name, r⟩ := r
    rw [List.foldl_cons, ih]
    cases r <;> simp [logRecordManage, LogRecord.redoTrxId]

/-- A transaction counts as committed when a commit record has its number. -/
theorem trxCommited_recover (m : CLogMTRManager V) (log : List (String × LogRecord V))
    (trxId : BitVec 32) :
    (m.recover log).trxCommited trxId = some true ↔
      m.trxCommited trxId = some true ∨ ∃ name, (name, .mtrCommit trxId) ∈ log := by
  unfold recover
  induction log generalizing m with
  | nil => simp
  | cons r log ih =>
    obtain ⟨name, r⟩ := r
    have hhead : (m.logRecordManage (name, r)).trxCommited trxId = some true ↔
        m.trxCommited trxId = some true ∨ r = .mtrCommit trxId := by
      cases r with
      | mtrCommit id => by_cases h : trxId = id <;> simp [logRecordManage, h, eq_comm]
      | mtrBegin id =>
        by_cases h : trxId = id
        · subst h
          cases hm : m.trxCommited trxId with
          | none => simp [logRecordManage, hm]
          | some b => simp [logRecordManage, hm]
        · simp [logRecordManage, h]
      | redoInsert => simp [logRecordManage]
      | redoDelete => simp [logRecordManage]
    rw [List.foldl_cons, ih, hhead, or_assoc]
    refine or_congr_right ⟨?_, ?_⟩
    · rintro (rfl | ⟨n, hmem⟩)
      · exact ⟨name, List.mem_cons_self⟩
      · exact ⟨n, List.mem_cons_of_mem _ hmem⟩
    · rintro ⟨n, hmem⟩
      rcases List.mem_cons.mp hmem with heq | hmem
      · exact Or.inl (Prod.mk.inj heq).2.symm
      · exact Or.inr ⟨n, hmem⟩

end CLogMTRManager

/-! ## The database -/

/-- Source: `db.h`, `class Db` -/
structure Db (V A : Type) [LinearOrder A] where
  /-- `opened_tables_` -/
  openedTables : String → Option (Table V A)

namespace Db

/-- The larger of two transaction numbers, which are signed. -/
def maxTrxId (a b : BitVec 32) : BitVec 32 := if a.slt b then b else a

/-- The loop over the redo records. A transaction without an entry is an error; a table that is not
there is passed over.
Source: `db.cpp`, `Db::recover` -/
def redoLoop (trxCommited : BitVec 32 → Option Bool) (db : Db V A) (max : BitVec 32) :
    List (String × LogRecord V) → RC × Db V A × BitVec 32
  | [] => (.success, db, max)
  | (name, r) :: log =>
    match r.redoTrxId with
    | none => redoLoop trxCommited db max log
    | some trxId =>
      match trxCommited trxId with
      | none => (.genericError, db, max)
      | some false => redoLoop trxCommited db max log
      | some true =>
        match db.openedTables name with
        | none => redoLoop trxCommited db max log
        | some t =>
          let (rc, t) := t.redo r
          let db : Db V A := ⟨Function.update db.openedTables name (some t)⟩
          if rc = .success then redoLoop trxCommited db (maxTrxId max trxId) log
          else (rc, db, max)

/-- The counter of the transaction numbers goes on behind the largest number that was redone.
Source: `db.cpp`, `Db::recover` -/
def recover (db : Db V A) (log : List (String × LogRecord V)) (counter : BitVec 32) :
    RC × Db V A × BitVec 32 :=
  let m := CLogMTRManager.empty.recover log
  let (rc, db, max) := redoLoop m.trxCommited db 0 m.logRedoList
  (rc, db, if rc = .success ∧ (0 : BitVec 32).slt max then max else counter)

/-- The loop on redo records of one table, all of them of committed transactions. -/
theorem redoLoop_eq {trxCommited : BitVec 32 → Option Bool} {name : String}
    (log : List (LogRecord V)) : ∀ {db : Db V A} {t : Table V A} (max : BitVec 32),
    db.openedTables name = some t →
    (∀ r ∈ log, ∃ trxId, r.redoTrxId = some trxId ∧ trxCommited trxId = some true) →
    ∃ db' max', redoLoop trxCommited db max (log.map fun r => (name, r)) =
        ((redoAll t.records log).1, db', max') ∧
      db'.openedTables name = some { t with records := (redoAll t.records log).2 } := by
  induction log with
  | nil =>
    intro db t max hdb _
    exact ⟨db, max, rfl, hdb⟩
  | cons r log ih =>
    intro db t max hdb hall
    obtain ⟨trxId, hid, hcommit⟩ := hall r List.mem_cons_self
    obtain ⟨db₁, hdb₁⟩ : ∃ db₁ : Db V A, db₁ =
        ⟨Function.update db.openedTables name (some (t.redo r).2)⟩ := ⟨_, rfl⟩
    have hupd : db₁.openedTables name = some { t with records := (redo t.records r).2 } := by
      rw [hdb₁]
      exact Function.update_self ..
    rw [List.map_cons, redoLoop, redoAll]
    simp only [hid, hcommit, hdb, ← hdb₁]
    by_cases hrc : (redo t.records r).1 = .success
    · have htable : (t.redo r).1 = .success := hrc
      simp only [if_pos hrc, if_pos htable]
      exact ih _ hupd fun r hr => hall r (List.mem_cons_of_mem _ hr)
    · have htable : ¬ (t.redo r).1 = .success := hrc
      simp only [if_neg hrc, if_neg htable]
      exact ⟨db₁, max, rfl, hupd⟩

/-- Recovery of a log that has the redo records of one table only, all of them of committed
transactions, applies them to the table. -/
theorem recover_eq {name : String} {log : List (String × LogRecord V)}
    {redoList : List (LogRecord V)}
    (hlog : (log.filter fun r => r.2.redoTrxId.isSome) = redoList.map fun r => (name, r))
    (hcommit : ∀ r ∈ redoList, ∀ trxId, r.redoTrxId = some trxId →
      ∃ name, (name, .mtrCommit trxId) ∈ log)
    {db : Db V A} {t : Table V A} (hdb : db.openedTables name = some t) (counter : BitVec 32) :
    (db.recover log counter).1 = (redoAll t.records redoList).1 ∧
      (db.recover log counter).2.1.openedTables name =
        some { t with records := (redoAll t.records redoList).2 } := by
  have hlist : (CLogMTRManager.empty.recover log).logRedoList = redoList.map fun r => (name, r) := by
    rw [CLogMTRManager.logRedoList_recover, hlog]
    rfl
  have hall : ∀ r ∈ redoList, ∃ trxId, r.redoTrxId = some trxId ∧
      (CLogMTRManager.empty.recover log).trxCommited trxId = some true := by
    intro r hr
    have hmem : (name, r) ∈ log.filter fun r => r.2.redoTrxId.isSome := by
      rw [hlog]
      exact List.mem_map.mpr ⟨r, hr, rfl⟩
    obtain ⟨trxId, hid⟩ := Option.isSome_iff_exists.mp (List.mem_filter.mp hmem).2
    exact ⟨trxId, hid, (CLogMTRManager.trxCommited_recover _ _ _).mpr
      (Or.inr (hcommit r hr trxId hid))⟩
  obtain ⟨db', max', hloop, hdb'⟩ := redoLoop_eq redoList (0 : BitVec 32) hdb hall
  unfold recover
  simp only [hlist, hloop, hdb', and_self]

end Db

end Miniob.Storage.Common
