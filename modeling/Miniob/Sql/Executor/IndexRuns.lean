import Miniob.Sql.Executor.LogComplete
import Miniob.Storage.Common.IndexChanges
import Miniob.Storage.Common.RedoLoop

/-!
# Indexes over a run

On a table that is empty at first, indexes are made, rows are inserted and deleted, transactions are
committed and rolled back, and the process crashes and is started again. A crash leaves a front part
of the log, and any state of the data file and of the files of the indexes.

* `Table.recover`: recovery of a database that has this table.
* `IndexEvent`, `Server.indexStep`: what happens to the table.
* `IndexHistory`: the tables of a run, whose files may be those that a crash leaves.
* `IndexHistory.KeepsIndexes`: the condition on an event.
* `indexes_match`: in a run of such events every index has the entries of the rows and no others.

`Table::insert_record` and `Table::delete_record` change the indexes with the data file, and so do
commit and rollback. `Table::recover_insert_record` and `Table::recover_delete_record` change the
data file only.
-/

namespace Miniob.Storage.Common.Table

open Miniob.Sql Miniob.Storage.Record

variable {V A : Type} [LinearOrder A]

/-- Recovery of a database that has no other table. Source: `db.cpp`, `Db::recover` -/
def recover (t : Table V A) (log : List (LogRecord V)) : RC × Table V A × BitVec 32 :=
  let (rc, db, counter) := Db.recover ⟨fun _ => some t⟩ (log.map fun r => ("", r)) 0
  (rc, (db.openedTables "").getD t, counter)

/-- If every transaction has an entry, the redo records of those with a commit record are applied to
the data file. -/
theorem recover_eq (t : Table V A) {log : List (LogRecord V)}
    (hentry : ∀ r ∈ log, ∀ id ∈ r.redoTrxId, .mtrBegin id ∈ log ∨ .mtrCommit id ∈ log) :
    (t.recover log).2.1 = { t with records := (redoAll t.records (committedRedo log)).2 } := by
  obtain ⟨m, hm⟩ : ∃ m, m = CLogMTRManager.empty.recover (log.map fun r => ("", r)) := ⟨_, rfl⟩
  have hlist : m.logRedoList =
      (log.filter fun r => r.redoTrxId.isSome).map fun r => ("", r) := by
    rw [hm, CLogMTRManager.logRedoList_recover, List.filter_map]
    rfl
  have hredo : m.logRedoList.filter (Db.isCommitted m.trxCommited) =
      (committedRedo log).map fun r => ("", r) := by
    rw [committedRedo, ← hm, hlist, List.filter_map, List.map_map,
      show (Prod.snd ∘ fun r : LogRecord V => ("", r)) = id from rfl, List.map_id]
    rfl
  have hknown : ∀ r ∈ m.logRedoList, ∀ id ∈ r.2.redoTrxId, m.trxCommited id ≠ none := by
    intro r hr id hid hnone
    rw [hlist] at hr
    obtain ⟨r', hr', rfl⟩ := List.mem_map.mp hr
    rw [hm, Db.trxCommited_eq_none] at hnone
    rcases hentry r' (List.mem_filter.mp hr').1 id hid with hmem | hmem
    · exact (hnone _ (List.mem_map_of_mem hmem)).1 rfl
    · exact (hnone _ (List.mem_map_of_mem hmem)).2 rfl
  have hall : ∀ r ∈ committedRedo log, ∃ id, r.redoTrxId = some id ∧
      m.trxCommited id = some true := by
    intro r hr
    rw [committedRedo, ← hm] at hr
    simpa [Option.any_eq_true] using (List.mem_filter.mp hr).2
  have hopened : (⟨fun _ => some t⟩ : Db V A).openedTables "" = some t := rfl
  obtain ⟨db, max, hloop, hdb⟩ := Db.redoLoop_eq (committedRedo log) (0 : BitVec 32) hopened hall
  unfold recover Db.recover
  rw [← hm]
  dsimp only
  rw [Db.redoLoop_filter _ _ _ hknown, hredo, hloop]
  dsimp only
  rw [hdb]
  rfl

end Miniob.Storage.Common.Table

namespace Miniob.Storage.Common

open Miniob.Storage.Index Miniob.Storage.Record Miniob.Storage.Transaction

variable {V A : Type} [LinearOrder A]

/-- What is in the file of an index when all its pages are written, `none` if these form no tree
that the comparator orders. -/
def TableIndex.file (index : TableIndex V A) : Option (SortedSet (IndexKey A)) :=
  if index.ordered then some index.entries else none

/-- Two data files have the same rows. -/
def SameRows (file file' : RecordFile (RecordData V)) : Prop :=
  ∀ rid, (file.record rid).map RecordData.values = (file'.record rid).map RecordData.values

theorem sameRows_iff {file file' : RecordFile (RecordData V)} : SameRows file file' ↔
    (∀ rid data, file.record rid = some data →
      (file'.record rid).map RecordData.values = some data.values) ∧
    ∀ rid data, file'.record rid = some data →
      (file.record rid).map RecordData.values = some data.values := by
  constructor
  · refine fun h => ⟨fun rid data hrid => ?_, fun rid data hrid => ?_⟩
    · rw [← h rid, hrid, Option.map_some]
    · rw [h rid, hrid, Option.map_some]
  · rintro ⟨hleft, hright⟩ rid
    cases hrid : file.record rid with
    | some data => exact (hleft rid data hrid).symm
    | none =>
      cases hrid' : file'.record rid with
      | none => rfl
      | some data =>
        have hnone := hright rid data hrid'
        rw [hrid] at hnone
        cases hnone

instance [DecidableEq V] (file file' : RecordFile (RecordData V)) :
    Decidable (SameRows file file') :=
  decidable_of_iff _ sameRows_iff.symm

end Miniob.Storage.Common

namespace Miniob.Storage.Common.LogRecord

open Miniob.Storage.Record Miniob.Storage.Transaction

/-- Redo records leave the records that they are not about. -/
theorem foldl_apply_of_ne {V : Type} {log : List (LogRecord V)} {rid : RID}
    {records : RID → Option (RecordData V)} (h : ∀ r ∈ log, r.redoRid ≠ some rid) :
    log.foldl LogRecord.apply records rid = records rid := by
  induction log generalizing records with
  | nil => rfl
  | cons r log ih =>
    rw [List.foldl_cons, ih fun r' hr' => h r' (List.mem_cons_of_mem _ hr')]
    have hne := h r List.mem_cons_self
    cases r with
    | redoInsert trxId rid' data =>
      exact Function.update_of_ne (fun heq => hne (congrArg some heq.symm)) ..
    | redoDelete trxId rid' =>
      exact Function.update_of_ne (fun heq => hne (congrArg some heq.symm)) ..
    | mtrBegin => rfl
    | mtrCommit => rfl

end Miniob.Storage.Common.LogRecord

namespace Miniob.Sql

open Miniob.Lib Miniob.Storage.Common Miniob.Storage.Index Miniob.Storage.Record
open Miniob.Storage.Transaction

variable {V A : Type} [LinearOrder A]

/-! ## Events -/

/-- What happens to the table. A call gets the transaction of a session, or none. -/
inductive IndexEvent (V A : Type) [LinearOrder A]
  /-- `Table::create_index` -/
  | createIndex (who : Option ℕ) (column : IndexColumn V A)
  /-- `Table::insert_record` -/
  | insert (who : Option ℕ) (data : RecordData V)
  /-- `Table::delete_record` -/
  | delete (who : Option ℕ) (rid : RID) (data : RecordData V)
  /-- `BEGIN` -/
  | begin (who : ℕ)
  /-- `COMMIT` -/
  | commit (who : ℕ)
  /-- `Trx::commit` -/
  | trxCommit (who : ℕ) (order : List (RID × OperationType))
  /-- `ROLLBACK` -/
  | rollback (who : ℕ) (order : List (RID × OperationType))
  /-- A crash and a restart. The file of an index is given by the entries of its tree, or by `none`
  if its pages form no tree that the comparator orders. -/
  | restart (records : RecordFile (RecordData V)) (files : List (Option (SortedSet (IndexKey A))))
    (kept : ℕ)

/-- The indexes of the description, on their files.
Source: `table.cpp`, `Table::open` -/
def openIndexes : List (TableIndex V A) → List (Option (SortedSet (IndexKey A))) →
    Option (List (TableIndex V A))
  | [], [] => some []
  | index :: indexes, file :: files => do
    let indexes ← openIndexes indexes files
    return index.openIndex file :: indexes
  | _, _ => none

namespace Server

/-- The transaction that a call gets. -/
def trxOf (e : Server V A) : Option ℕ → Option Trx × BitVec 32
  | none => (none, e.counter)
  | some who =>
    let (trx, counter) := (e.sessions who).currentTrx e.counter
    (some trx, counter)

/-- What a call leaves. -/
def leave (e : Server V A) (who : Option ℕ) (t : Table V A) (trx : Option Trx)
    (counter : BitVec 32) : Server V A :=
  match who with
  | none => ⟨t, counter, e.sessions⟩
  | some who => e.put who t counter { e.sessions who with trx := trx }

/-- A new process. Source: `db.cpp`, `Db::init`, `Db::recover` -/
def restartTable (e : Server V A) (records : RecordFile (RecordData V))
    (files : List (Option (SortedSet (IndexKey A)))) (kept : ℕ) : Option (Server V A) := do
  let indexes ← openIndexes e.table.indexes files
  let t : Table V A := ⟨e.table.recordCapacity, records, indexes, e.table.log.take kept⟩
  let (_, t, counter) := t.recover t.log
  return start t counter

section step

variable [Inhabited V] [DecidableEq V]

/-- An insertion succeeds, and a row that is deleted is there. -/
def indexStep (e : Server V A) : IndexEvent V A → Option (Server V A)
  | .createIndex who column =>
    let (trx, counter) := e.trxOf who
    some (e.leave who (e.table.createIndex trx column).2 trx counter)
  | .insert who data => do
    let (trx, counter) := e.trxOf who
    match ← e.table.insertRecord trx data .success with
    | (.ok _, t, trx) => return e.leave who t trx counter
    | (.error _, _, _) => none
  | .delete who rid data =>
    let (trx, counter) := e.trxOf who
    if e.table.record rid = some data then
      let (_, t, trx, counter) := e.table.deleteRecord counter trx rid data .success
      some (e.leave who t trx counter)
    else none
  | .begin who => some (e.doBegin who).2
  | .commit who => some (e.doCommit who).2
  | .trxCommit who order => do
    let (trx, counter) := (e.sessions who).currentTrx e.counter
    if order.Perm trx.operations then
      let (_, t, trx) ← trx.commit order e.table
      return e.leave (some who) t (some trx) counter
    else none
  | .rollback who order => (e.doRollback who order).map Prod.snd
  | .restart records files kept => e.restartTable records files kept

/-- Events, in whatever order they come. -/
def indexRun (events : List (IndexEvent V A)) (e : Server V A) : Option (Server V A) :=
  events.foldlM indexStep e

end step

/-- A table without rows and indexes. -/
def emptyTable [Inhabited V] (orders : Stream' SetOrder) (recordCapacity : ℕ) : Server V A :=
  start ⟨recordCapacity, .empty orders, [], []⟩ 0

/-! ## The condition -/

/-- What the log has for a data file. Every transaction of the log has a begin or a commit record,
and the redo records of the committed ones can be applied to the data file, which has the rows
already that they leave. -/
structure RedoneBefore (records : RecordFile (RecordData V)) (log : List (LogRecord V)) : Prop where
  entered : ∀ r ∈ log, ∀ id ∈ r.redoTrxId, .mtrBegin id ∈ log ∨ .mtrCommit id ∈ log
  applied : (redoAll records (committedRedo log)).1 = .success
  written : ∀ r ∈ committedRedo log, ∀ rid ∈ r.redoRid,
    ((committedRedo log).foldl LogRecord.apply records.record rid).map RecordData.values =
      (records.record rid).map RecordData.values

instance [DecidableEq V] (records : RecordFile (RecordData V)) (log : List (LogRecord V)) :
    Decidable (RedoneBefore records log) :=
  decidable_of_iff ((∀ r ∈ log, (r.redoTrxId.all fun id =>
        .mtrBegin id ∈ log ∨ .mtrCommit id ∈ log) = true) ∧
      (redoAll records (committedRedo log)).1 = .success ∧
      ∀ r ∈ committedRedo log, ∀ rid ∈ r.redoRid,
        ((committedRedo log).foldl LogRecord.apply records.record rid).map RecordData.values =
          (records.record rid).map RecordData.values) <| by
    simp only [Option.all_eq_true, decide_eq_true_eq]
    exact ⟨fun h => ⟨h.1, h.2.1, h.2.2⟩, fun h => ⟨h.entered, h.applied, h.written⟩⟩

end Server

/-- A run: the server, and the tables that there have been. -/
structure IndexHistory (V A : Type) [LinearOrder A] where
  server : Server V A
  /-- The table at the start and after each event, the last one first. -/
  moments : List (Table V A)

namespace IndexHistory

/-- The run that begins with an empty table. -/
def start [Inhabited V] (orders : Stream' SetOrder) (recordCapacity : ℕ) : IndexHistory V A :=
  ⟨.emptyTable orders recordCapacity, [(Server.emptyTable orders recordCapacity).table]⟩

/-- An event, and the moment after it. -/
def step [Inhabited V] [DecidableEq V] (h : IndexHistory V A) (event : IndexEvent V A) :
    Option (IndexHistory V A) :=
  (h.server.indexStep event).map fun e => ⟨e, e.table :: h.moments⟩

/-- The file of the index at a place has been written at a moment when the table had the rows of the
data file. -/
def WrittenAt (h : IndexHistory V A) (records : RecordFile (RecordData V)) (place : ℕ)
    (file : Option (SortedSet (IndexKey A))) : Prop :=
  ∃ t ∈ h.moments, t.indexes[place]?.map TableIndex.file = some file ∧ SameRows records t.records

/-- The condition on an event. -/
def KeepsIndexes [Inhabited V] (h : IndexHistory V A) : IndexEvent V A → Prop
  | .createIndex who column =>
    let trx := (h.server.trxOf who).1
    h.server.table.SeesAll trx ∧
      column.OrdersValues ((h.server.table.visibleRows trx).map fun r => column.field r.2.values)
  | .insert _ data => h.server.table.KeepsRows ∧ h.server.table.OrdersKeys data.values
  | .restart records files kept => Server.RedoneBefore records (h.server.table.log.take kept) ∧
    ∀ place : Fin files.length, h.WrittenAt records place (files.get place)
  | .delete _ _ _ | .begin _ | .commit _ | .trxCommit _ _ | .rollback _ _ => True

instance [DecidableEq V] (h : IndexHistory V A) (records : RecordFile (RecordData V)) (place : ℕ)
    (file : Option (SortedSet (IndexKey A))) : Decidable (h.WrittenAt records place file) :=
  inferInstanceAs (Decidable (∃ t ∈ h.moments, _))

instance [Inhabited V] [DecidableEq V] (h : IndexHistory V A) :
    (event : IndexEvent V A) → Decidable (h.KeepsIndexes event)
  | .createIndex _ _ => inferInstanceAs (Decidable (_ ∧ _))
  | .insert _ _ => inferInstanceAs (Decidable (_ ∧ _))
  | .restart records files kept => inferInstanceAs (Decidable
      (Server.RedoneBefore records (h.server.table.log.take kept) ∧
        ∀ place : Fin files.length, h.WrittenAt records place (files.get place)))
  | .delete _ _ _ | .begin _ | .commit _ | .trxCommit _ _ | .rollback _ _ =>
    inferInstanceAs (Decidable True)

end IndexHistory

namespace Server

/-! ## What holds between two events -/

/-- The indexes match, operations are about slots, and so are the redo records. -/
structure IndexesSound (e : Server V A) : Prop where
  indexes : e.table.IndexesMatch
  slots : ∀ who, ∀ x ∈ (e.sessions who).trx, ∀ op ∈ x.operations, 0 ≤ op.1.slotNum
  rids : ∀ r ∈ e.table.log, ∀ rid ∈ r.redoRid, ∃ p slot : ℕ, rid = slotRid p slot

variable {e e' : Server V A} {who : ℕ} {t : Table V A} {counter : BitVec 32}

theorem indexesSound_emptyTable [Inhabited V] (orders : Stream' SetOrder) (recordCapacity : ℕ) :
    (emptyTable orders recordCapacity : Server V A).IndexesSound := by
  refine ⟨?_, ?_, ?_⟩
  · intro index hmem
    cases hmem
  · intro who x hx
    cases hx
  · intro r hr
    cases hr

/-- What a statement of a session leaves. -/
theorem IndexesSound.put (h : e.IndexesSound) {session : Session} (ht : t.IndexesMatch)
    (hslots : ∀ x ∈ session.trx, ∀ op ∈ x.operations, 0 ≤ op.1.slotNum)
    (hrids : ∀ r ∈ t.log, ∀ rid ∈ r.redoRid, ∃ p slot : ℕ, rid = slotRid p slot) :
    (e.put who t counter session).IndexesSound := by
  refine ⟨ht, fun who' x hx => ?_, hrids⟩
  change x ∈ (Function.update e.sessions who session who').trx at hx
  by_cases hwho : who' = who
  · rw [hwho, Function.update_self] at hx
    exact hslots x hx
  · rw [Function.update_of_ne hwho] at hx
    exact h.slots who' x hx

theorem IndexesSound.leave (h : e.IndexesSound) {who : Option ℕ} {trx : Option Trx}
    (ht : t.IndexesMatch) (hslots : ∀ x ∈ trx, ∀ op ∈ x.operations, 0 ≤ op.1.slotNum)
    (hrids : ∀ r ∈ t.log, ∀ rid ∈ r.redoRid, ∃ p slot : ℕ, rid = slotRid p slot) :
    (e.leave who t trx counter).IndexesSound := by
  cases who with
  | none => exact ⟨ht, h.slots, hrids⟩
  | some who => exact h.put ht hslots hrids

theorem leave_table (who : Option ℕ) (trx : Option Trx) :
    (e.leave who t trx counter).table = t := by
  cases who <;> rfl

/-- A transaction object that is made has no operations. -/
theorem IndexesSound.currentTrx (h : e.IndexesSound) (who : ℕ) :
    ∀ op ∈ ((e.sessions who).currentTrx e.counter).1.operations, 0 ≤ op.1.slotNum := by
  unfold Session.currentTrx
  cases htrx : (e.sessions who).trx with
  | none => exact fun op hop => absurd hop List.not_mem_nil
  | some x => exact h.slots who x htrx

theorem IndexesSound.trxOf (h : e.IndexesSound) (who : Option ℕ) :
    ∀ x ∈ (e.trxOf who).1, ∀ op ∈ x.operations, 0 ≤ op.1.slotNum := by
  cases who with
  | none => exact fun x hx => absurd hx.symm (Option.some_ne_none x)
  | some who =>
    intro x hx
    cases hx
    exact h.currentTrx who

/-- A record of a transaction that begins or ends is no redo record. -/
theorem IndexesSound.append (h : e.IndexesSound) {r : LogRecord V} (hr : r.redoRid = none) :
    (clogAppendRecord e.table r).IndexesMatch ∧
      ∀ r' ∈ (clogAppendRecord e.table r).log, ∀ rid ∈ r'.redoRid,
        ∃ p slot : ℕ, rid = slotRid p slot := by
  refine ⟨h.indexes, fun r' hr' rid hrid => ?_⟩
  rcases List.mem_append.mp hr' with hr' | hr'
  · exact h.rids r' hr' rid hrid
  · rw [List.mem_singleton.mp hr', hr] at hrid
    cases hrid

theorem IndexesSound.endOperations (h : e.IndexesSound)
    {step : Table V A → RID × OperationType → Option (RC × Table V A)}
    (hstep : step = Table.commitOperation ∨ step = Table.rollbackOperation)
    {order : List (RID × OperationType)} {trx : Trx} (horder : order.Perm trx.operations)
    (hslots : ∀ op ∈ trx.operations, 0 ≤ op.1.slotNum) {rc : RC}
    (hend : Table.endOperations step (.success, e.table) order = some (rc, t)) :
    t.IndexesMatch ∧ ∀ r ∈ t.log, ∀ rid ∈ r.redoRid, ∃ p slot : ℕ, rid = slotRid p slot := by
  obtain ⟨hmatch, hlog⟩ := Table.IndexesMatch.endOperations hstep order h.indexes
    (fun op hop => hslots op (horder.mem_iff.mp hop)) hend
  exact ⟨hmatch, hlog ▸ h.rids⟩

section step

variable [Inhabited V]

theorem IndexesSound.insert (h : e.IndexesSound) (hkeep : e.table.KeepsRows) {who : Option ℕ}
    {data : RecordData V} (hord : e.table.OrdersKeys data.values) {rid : RID} {trx' : Option Trx}
    (hins : e.table.insertRecord (e.trxOf who).1 data .success = some (.ok rid, t, trx')) :
    (e.leave who t trx' counter).IndexesSound := by
  obtain ⟨hmatch, ⟨p, slot, rfl⟩, htrx, hlog⟩ := h.indexes.insertRecord hkeep hord hins
  refine h.leave hmatch (fun x' hx' op hop => ?_) fun r hr rid hrid => ?_
  · obtain ⟨x, hx, hrun⟩ := htrx x' hx'
    rw [← show (x.insertRecord (slotRid p slot)).2 = x' by rw [hrun]] at hop
    rcases Trx.mem_insertRecord hop with hop | hop
    · exact h.trxOf who x hx op hop
    · rw [hop]
      exact Int.natCast_nonneg slot
  · rcases hlog r hr with hr | hr
    · exact h.rids r hr rid hrid
    · exact ⟨p, slot, Option.some.inj (hrid.symm.trans hr)⟩

omit [Inhabited V] in
theorem IndexesSound.delete (h : e.IndexesSound) {who : Option ℕ} {data : RecordData V} {rid : RID}
    (hrid : e.table.record rid = some data) (counter counter' : BitVec 32) :
    (e.leave who (e.table.deleteRecord counter (e.trxOf who).1 rid data .success).2.1
      (e.table.deleteRecord counter (e.trxOf who).1 rid data .success).2.2.1
      counter').IndexesSound := by
  obtain ⟨hmatch, htrx, hlog⟩ := h.indexes.deleteRecord hrid counter (e.trxOf who).1
  obtain ⟨p, slot, rfl, -⟩ := RecordFile.record_eq_some hrid
  refine h.leave hmatch (fun x' hx' op hop => ?_) fun r hr rid hrid => ?_
  · obtain ⟨x, hx, rfl⟩ := htrx x' hx'
    rcases Trx.mem_deleteRecord hop with hop | hop
    · exact h.trxOf who x hx op hop
    · rw [hop]
      exact Int.natCast_nonneg slot
  · rcases hlog r hr with hr | hr
    · exact h.rids r hr rid hrid
    · exact ⟨p, slot, Option.some.inj (hrid.symm.trans hr)⟩

omit [Inhabited V] in
/-- After a restart the indexes are those that have been found, and the data file has the rows that
the redo leaves. -/
theorem restartTable_table (h : e.IndexesSound) {records : RecordFile (RecordData V)}
    {files : List (Option (SortedSet (IndexKey A)))} {kept : ℕ}
    (hredone : RedoneBefore records (e.table.log.take kept))
    (hrun : e.restartTable records files kept = some e') :
    openIndexes e.table.indexes files = some e'.table.indexes ∧
      e'.table.log = e.table.log.take kept ∧ (∀ rid, (e'.table.record rid).map RecordData.values =
        (records.record rid).map RecordData.values) ∧ ∀ who, (e'.sessions who).trx = none := by
  obtain ⟨indexes, hopen, hrun⟩ := Option.bind_eq_some_iff.mp hrun
  have hrids : ∀ r ∈ committedRedo (e.table.log.take kept),
      ∃ p slot : ℕ, r.redoRid = some (slotRid p slot) := by
    intro r hr
    obtain ⟨hmem, id, hid, -⟩ := mem_committedRedo.mp hr
    have hmem := List.mem_of_mem_take hmem
    cases r with
    | redoInsert trxId rid data =>
      obtain ⟨p, slot, rfl⟩ := h.rids _ hmem rid rfl
      exact ⟨p, slot, rfl⟩
    | redoDelete trxId rid =>
      obtain ⟨p, slot, rfl⟩ := h.rids _ hmem rid rfl
      exact ⟨p, slot, rfl⟩
    | mtrBegin => cases hid
    | mtrCommit => cases hid
  have htable := Table.recover_eq
    (⟨e.table.recordCapacity, records, indexes, e.table.log.take kept⟩ : Table V A) hredone.entered
  have he' : e'.table = ⟨e.table.recordCapacity,
      (redoAll records (committedRedo (e.table.log.take kept))).2, indexes,
      e.table.log.take kept⟩ := by
    rw [← Option.some.inj hrun]
    exact htable
  refine ⟨he' ▸ hopen, by rw [he'], fun rid => ?_, fun who => by rw [← Option.some.inj hrun]; rfl⟩
  rw [he']
  show ((redoAll records (committedRedo (e.table.log.take kept))).2.record rid).map _ = _
  rw [redoAll_rows _ hrids hredone.applied]
  by_cases hredo : ∃ r ∈ committedRedo (e.table.log.take kept), r.redoRid = some rid
  · obtain ⟨r, hr, hrid⟩ := hredo
    exact hredone.written r hr rid hrid
  · rw [LogRecord.foldl_apply_of_ne fun r hr hrid => hredo ⟨r, hr, hrid⟩]

omit [Inhabited V] in
/-- Recovery changes no index: when it leaves the rows too, the indexes match after it if and only
if those of the files have the rows of the data file. -/
theorem restart_indexesMatch_iff (h : e.IndexesSound) {records : RecordFile (RecordData V)}
    {files : List (Option (SortedSet (IndexKey A)))} {kept : ℕ}
    (hredone : RedoneBefore records (e.table.log.take kept))
    (hrun : e.restartTable records files kept = some e') :
    e'.table.IndexesMatch ↔ ∀ indexes ∈ openIndexes e.table.indexes files,
      ∀ index ∈ indexes, index.Matches records.record := by
  obtain ⟨hopen, -, hvalues, -⟩ := restartTable_table h hredone hrun
  simp only [hopen, Option.mem_some_iff, forall_eq']
  exact forall₂_congr fun index _ => ⟨fun hmatch => hmatch.of_values fun rid => (hvalues rid).symm,
    fun hmatch => hmatch.of_values hvalues⟩

omit [Inhabited V] in
theorem IndexesSound.restart (h : e.IndexesSound) {records : RecordFile (RecordData V)}
    {files : List (Option (SortedSet (IndexKey A)))} {kept : ℕ}
    (hredone : RedoneBefore records (e.table.log.take kept))
    (hwritten : ∀ indexes ∈ openIndexes e.table.indexes files,
      ∀ index ∈ indexes, index.Matches records.record)
    (hrun : e.restartTable records files kept = some e') : e'.IndexesSound := by
  obtain ⟨-, hlog, -, htrx⟩ := restartTable_table h hredone hrun
  refine ⟨(restart_indexesMatch_iff h hredone hrun).mpr hwritten, fun who x hx => ?_, ?_⟩
  · rw [htrx who] at hx
    cases hx
  · rw [hlog]
    exact fun r hr => h.rids r (List.mem_of_mem_take hr)

omit [Inhabited V] in
/-- An index that is opened is one of the description, on its file. -/
theorem mem_openIndexes : ∀ {indexes indexes' : List (TableIndex V A)}
    {files : List (Option (SortedSet (IndexKey A)))}, openIndexes indexes files = some indexes' →
    ∀ index' ∈ indexes', ∃ (place : Fin files.length) (index : TableIndex V A),
      indexes[place.1]? = some index ∧ index' = index.openIndex (files.get place)
  | [], _, [], h, index', hmem => by
    cases h
    cases hmem
  | index :: indexes, _, file :: files, h, index', hmem => by
    obtain ⟨rest, hrest, h⟩ := Option.bind_eq_some_iff.mp h
    cases h
    rcases List.mem_cons.mp hmem with rfl | hmem
    · exact ⟨⟨0, Nat.succ_pos _⟩, index, rfl, rfl⟩
    · obtain ⟨place, index, hindex, rfl⟩ := mem_openIndexes hrest index' hmem
      exact ⟨place.succ, index, hindex, rfl⟩

omit [Inhabited V] in
theorem keys_openIndexes : ∀ {indexes indexes' : List (TableIndex V A)}
    {files : List (Option (SortedSet (IndexKey A)))}, openIndexes indexes files = some indexes' →
    indexes'.map TableIndex.keys = indexes.map TableIndex.keys
  | [], _, [], h => by
    cases h
    rfl
  | index :: indexes, _, file :: files, h => by
    obtain ⟨rest, hrest, h⟩ := Option.bind_eq_some_iff.mp h
    cases h
    rw [List.map_cons, List.map_cons, keys_openIndexes hrest]
    cases file <;> rfl

end step

end Server

namespace IndexHistory

variable {h h' : IndexHistory V A}

/-- The indexes have matched so far, and no index has gone. -/
structure Sound (h : IndexHistory V A) : Prop where
  server : h.server.IndexesSound
  matched : ∀ t ∈ h.moments, t.IndexesMatch
  keys : ∀ t ∈ h.moments, t.keys <+: h.server.table.keys

theorem sound_start [Inhabited V] (orders : Stream' SetOrder) (recordCapacity : ℕ) :
    (start orders recordCapacity : IndexHistory V A).Sound := by
  have hserver : (Server.emptyTable orders recordCapacity : Server V A).IndexesSound :=
    Server.indexesSound_emptyTable orders recordCapacity
  refine ⟨hserver, fun t ht => ?_, fun t ht => ?_⟩
  · rw [List.mem_singleton.mp ht]
    exact hserver.indexes
  · rw [List.mem_singleton.mp ht]
    exact List.prefix_refl _

/-- A file that has been written when the table had the rows of the data file has their entries:
those that the index had at that moment. -/
theorem Sound.writtenAt (hs : h.Sound) {records : RecordFile (RecordData V)} {place : ℕ}
    {file : Option (SortedSet (IndexKey A))} {index : TableIndex V A}
    (hindex : h.server.table.indexes[place]? = some index)
    (hwritten : h.WrittenAt records place file) :
    (index.openIndex file).Matches records.record := by
  obtain ⟨t, ht, hfile, hrows⟩ := hwritten
  obtain ⟨index₀, hindex₀, rfl⟩ := Option.map_eq_some_iff.mp hfile
  have hmatch := hs.matched t ht index₀ (List.mem_of_getElem? hindex₀)
  have hkeys : index.keys = index₀.keys := by
    obtain ⟨later, hlater⟩ := hs.keys t ht
    have hplace : t.keys[place]? = some index₀.keys := by
      rw [Table.keys, List.getElem?_map, hindex₀, Option.map_some]
    have hplace' : h.server.table.keys[place]? = some index.keys := by
      rw [Table.keys, List.getElem?_map, hindex, Option.map_some]
    rw [← hlater, List.getElem?_append_left (List.getElem?_eq_some_iff.mp hplace).1, hplace]
      at hplace'
    exact (Option.some.inj hplace').symm
  rw [TableIndex.file, if_pos hmatch.orders.1]
  have hopened : (index.openIndex (some index₀.entries)).keys = index₀.keys := hkeys
  exact (hmatch.of_keys hopened rfl rfl).of_values hrows

variable [Inhabited V] [DecidableEq V]

/-- **An event keeps the indexes**, and those that there are stay. -/
theorem Sound.indexStep (hs : h.Sound) {event : IndexEvent V A} (hkeeps : h.KeepsIndexes event)
    {e' : Server V A} (hstep : h.server.indexStep event = some e') :
    e'.IndexesSound ∧ h.server.table.keys <+: e'.table.keys := by
  have hserver := hs.server
  cases event with
  | createIndex who column =>
    cases hstep
    obtain ⟨hmatch, hlog⟩ := hserver.indexes.createIndex hkeeps.1 column hkeeps.2
    refine ⟨hserver.leave hmatch (hserver.trxOf who) (hlog ▸ hserver.rids), ?_⟩
    rw [Server.leave_table]
    exact Table.keys_createIndex _ column
  | insert who data =>
    obtain ⟨⟨r, t, trx'⟩, hins, hstep⟩ := Option.bind_eq_some_iff.mp hstep
    cases r with
    | error rc => cases hstep
    | ok rid =>
      cases hstep
      refine ⟨hserver.insert hkeeps.1 hkeeps.2 hins, ?_⟩
      rw [Server.leave_table, Table.keys_insertRecord hins]
  | delete who rid data =>
    unfold Server.indexStep at hstep
    dsimp only at hstep
    split at hstep
    · rename_i hrid
      cases hstep
      refine ⟨hserver.delete hrid _ _, ?_⟩
      rw [Server.leave_table, Table.keys_deleteRecord]
    · cases hstep
  | begin who =>
    cases hstep
    obtain ⟨hmatch, hrids⟩ := hserver.append (r := .mtrBegin _) rfl
    exact ⟨hserver.put hmatch (fun x hx => Option.some.inj hx ▸ hserver.currentTrx who) hrids,
      List.prefix_refl _⟩
  | commit who =>
    cases hstep
    obtain ⟨hmatch, hrids⟩ := hserver.append (r := .mtrCommit _) rfl
    exact ⟨hserver.put hmatch (fun x hx => Option.some.inj hx ▸ hserver.currentTrx who) hrids,
      List.prefix_refl _⟩
  | trxCommit who order =>
    unfold Server.indexStep at hstep
    dsimp only at hstep
    split at hstep
    · rename_i horder
      obtain ⟨⟨rc, t, x⟩, hcommit, hstep⟩ := Option.bind_eq_some_iff.mp hstep
      obtain ⟨⟨rc', t'⟩, hend, heq⟩ := Option.map_eq_some_iff.mp hcommit
      cases heq
      cases hstep
      obtain ⟨hmatch, hrids⟩ :=
        hserver.endOperations (Or.inl rfl) horder (hserver.currentTrx who) hend
      refine ⟨hserver.leave hmatch (by simp) hrids, ?_⟩
      rw [Server.leave_table, Table.keys_endOperations (Or.inl rfl) order hend]
    · cases hstep
  | rollback who order =>
    obtain ⟨⟨rc, e'⟩, hroll, rfl⟩ := Option.map_eq_some_iff.mp hstep
    unfold Server.doRollback at hroll
    dsimp only at hroll
    split at hroll
    · rename_i horder
      obtain ⟨⟨rc', t, x⟩, hrollback, hroll⟩ := Option.bind_eq_some_iff.mp hroll
      obtain ⟨⟨rc'', t'⟩, hend, heq⟩ := Option.map_eq_some_iff.mp hrollback
      cases heq
      cases hroll
      obtain ⟨hmatch, hrids⟩ :=
        hserver.endOperations (Or.inr rfl) horder (hserver.currentTrx who) hend
      refine ⟨hserver.put hmatch (by simp) hrids, ?_⟩
      show h.server.table.keys <+: t.keys
      rw [Table.keys_endOperations (Or.inr rfl) order hend]
    · cases hroll
  | restart records files kept =>
    have hwritten : ∀ indexes ∈ openIndexes h.server.table.indexes files,
        ∀ index ∈ indexes, index.Matches records.record := by
      intro indexes hopen index hmem
      obtain ⟨place, index₀, hindex₀, rfl⟩ := Server.mem_openIndexes hopen index hmem
      exact hs.writtenAt hindex₀ (hkeeps.2 place)
    obtain ⟨hopen, -⟩ := Server.restartTable_table hserver hkeeps.1 hstep
    refine ⟨hserver.restart hkeeps.1 hwritten hstep, ?_⟩
    rw [Table.keys, ← Server.keys_openIndexes hopen]
    exact List.prefix_refl _

theorem Sound.step (hs : h.Sound) {event : IndexEvent V A} (hkeeps : h.KeepsIndexes event)
    (hstep : h.step event = some h') : h'.Sound := by
  obtain ⟨e', hserverStep, rfl⟩ := Option.map_eq_some_iff.mp hstep
  obtain ⟨hserver, hkeys⟩ := hs.indexStep hkeeps hserverStep
  refine ⟨hserver, fun t ht => ?_, fun t ht => ?_⟩
  · rcases List.mem_cons.mp ht with rfl | ht
    · exact hserver.indexes
    · exact hs.matched t ht
  · rcases List.mem_cons.mp ht with rfl | ht
    · exact List.prefix_refl _
    · exact (hs.keys t ht).trans hkeys

/-- A run of the server is a run with its moments. -/
theorem exists_run (events : List (IndexEvent V A)) : ∀ {h : IndexHistory V A} {e : Server V A},
    h.server.indexRun events = some e →
      ∃ h', events.foldlM step h = some h' ∧ h'.server = e := by
  induction events with
  | nil =>
    intro h e hrun
    exact ⟨h, rfl, Option.some.inj hrun⟩
  | cons event events ih =>
    intro h e hrun
    rw [Server.indexRun, List.foldlM_cons] at hrun
    obtain ⟨e₁, hstep, hrest⟩ := Option.bind_eq_some_iff.mp hrun
    obtain ⟨h', hrun', hserver⟩ := @ih ⟨e₁, e₁.table :: h.moments⟩ e hrest
    refine ⟨h', ?_, hserver⟩
    rw [List.foldlM_cons, step, hstep]
    exact hrun'

end IndexHistory

/-- **The indexes agree with the table** in every state that events lead to from an empty table, if
they meet the condition. -/
theorem indexes_match [Inhabited V] [DecidableEq V] (orders : Stream' SetOrder)
    (recordCapacity : ℕ) (events : List (IndexEvent V A))
    (hall : AllSteps IndexHistory.step IndexHistory.KeepsIndexes events
      (.start orders recordCapacity)) {e : Server V A}
    (hrun : (Server.emptyTable orders recordCapacity).indexRun events = some e) :
    e.table.IndexesMatch := by
  obtain ⟨h, hsteps, rfl⟩ :=
    IndexHistory.exists_run events (h := IndexHistory.start orders recordCapacity) hrun
  have hsound : h.Sound := hall.invariant IndexHistory.Sound hsteps
    (fun _ _ _ hs hkeeps hstep => hs.step hkeeps hstep) (IndexHistory.sound_start _ _)
  exact hsound.server.indexes

/-- A data file with the row 8 in the second slot. -/
def writtenFile : RecordFile (RecordData ℕ) :=
  (((RecordFile.empty (.const .newestFirst)).allocatePage 4).2.recoverInsertRecord (slotRid 1 1)
    ⟨0, 8⟩).2

/-- An index is made, a transaction inserts two rows, deletes one of them, and commits. A crash
leaves the row 8 and its entry, and the next process inserts a row again. -/
def indexEvents : List (IndexEvent ℕ ℤ) :=
  [.createIndex none numberColumn, .begin 0, .insert (some 0) ⟨0, 7⟩, .insert (some 0) ⟨0, 8⟩,
    .delete (some 0) (slotRid 1 0) ⟨1, 7⟩, .commit 0,
    .restart writtenFile [some (numberColumn.newIndex.insertEntry 8 (slotRid 1 1)).2.entries] 5,
    .insert none ⟨0, 5⟩]

theorem indexes_match_restart : ∃ e : Server ℕ ℤ,
    (Server.emptyTable (.const .newestFirst) 4).indexRun indexEvents = some e ∧
      e.table.record (slotRid 1 1) = some ⟨1, 8⟩ ∧ e.table.IndexesMatch := by
  have hrun : ((Server.emptyTable (.const .newestFirst) 4).indexRun indexEvents).map
      (fun e => e.table.record (slotRid 1 1)) = some (some ⟨1, 8⟩) := by decide
  obtain ⟨e, he, hrow⟩ := Option.map_eq_some_iff.mp hrun
  exact ⟨e, he, hrow, indexes_match _ 4 _ (by decide) he⟩

/-- A transaction inserts a row. The page of the row is written to disk, and the pages of the index
are as they have been made. The restart redoes the row, without its entry. -/
theorem redone_without_entry : ∃ e e' : Server ℕ ℤ,
    (Server.emptyTable (.const .newestFirst) 10).indexRun
      [.createIndex none numberColumn, .begin 0, .insert (some 0) ⟨0, 7⟩, .commit 0] = some e ∧
    e.indexRun [.restart e.table.records [some .empty] 3] = some e' ∧
    ¬ e'.table.IndexesMatch := by
  have hcount : (do
      let e ← (Server.emptyTable (.const .newestFirst) 10 : Server ℕ ℤ).indexRun
        [.createIndex none numberColumn, .begin 0, .insert (some 0) ⟨0, 7⟩, .commit 0]
      let e' ← e.indexRun [.restart e.table.records [some .empty] 3]
      some ((e'.table.record (slotRid 1 0)).isSome,
        e'.table.indexes.map fun index => index.entries.entries.length) : Option (Bool × List ℕ)) =
      some (true, [0]) := by
    decide
  obtain ⟨e, hrun, hcount⟩ := Option.bind_eq_some_iff.mp hcount
  obtain ⟨e', hrun', hcount⟩ := Option.bind_eq_some_iff.mp hcount
  refine ⟨e, e', hrun, hrun', fun h => ?_⟩
  rw [Option.some_inj, Prod.mk.injEq] at hcount
  obtain ⟨hrow, hlengths⟩ := hcount
  obtain ⟨data, hdata⟩ := Option.isSome_iff_exists.mp hrow
  obtain ⟨index, hmem, hlength⟩ : ∃ index ∈ e'.table.indexes, index.entries.entries.length = 0 :=
    List.mem_map.mp (hlengths ▸ List.mem_singleton_self 0)
  obtain ⟨entry, hentry, -⟩ := ((h index hmem).covers _ _ hdata).2
  rw [List.length_eq_zero_iff.mp hlength] at hentry
  cases hentry

end Miniob.Sql
