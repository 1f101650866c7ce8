import Miniob.Common.Comparator
import Miniob.Storage.Record.RecordFile
import Miniob.Storage.Index.Reference
import Miniob.Storage.Trx.Trx

/-!
# Tables

A table has a file of records and an index for some of its columns, and writes redo records to the
log when a transaction changes it.

* `TableIndex`: an index is the sorted set that the B+ tree of its file refines, as long as its keys
  have values that the comparator orders. From a call with another value on it may answer anything.
* `Table`: `insertRecord`, `deleteRecord`, what commit and rollback do to a record, `createIndex`
  and the redo of a record.
* `Trx.commit`, `Trx.rollback`: all operations of a transaction, in the order in which the hash set
  gives them.

A call takes the code that the log returns for its record as an argument. A write through the null
pointer that `get_record` leaves for a page that cannot be read is undefined.
-/

namespace Miniob.Storage.Common

open Miniob.Common Miniob.Storage.Index Miniob.Storage.Record Miniob.Storage.Transaction

/-! ## Indexes -/

/-- The two ends of a scan, with a flag for an end that is included. -/
abbrev Bounds (A : Type) := Option (A × Bool) × Option (A × Bool)

/-- What a tree answers whose keys the comparator does not order: a search may miss a key. -/
structure Unordered (A : Type) where
  /-- What the next insertion or deletion returns. -/
  rc : RC
  /-- What a scanner returns until then. -/
  scan : Bounds A → Option (List RID)

/-- What an index is made on. Source: `bplus_tree.h`, `class AttrComparator` -/
structure IndexColumn (V A : Type) [LinearOrder A] where
  /-- The value of the column in a record. -/
  field : V → A
  /-- `attr_comparator_` -/
  compare : A → A → Int
  /-- The values that the keys are to have. -/
  known : A → Bool
  /-- The comparator orders them. -/
  orders : ∀ v w, known v = true → known w = true → SignOfOrder (compare v w) v w
  /-- The answers from a call with another value on, whatever they are. -/
  unordered : Stream' (Unordered A)

/-- An index on a column.
Source: `bplus_tree_index.h`, `class BplusTreeIndex` -/
structure TableIndex (V A : Type) [LinearOrder A] extends IndexColumn V A where
  /-- The keys of all calls have had such values. -/
  ordered : Bool
  /-- The entries, if it has. -/
  entries : SortedSet (IndexKey A)

variable {V A : Type} [LinearOrder A]

/-- The values are among those that the comparator orders. -/
def IndexColumn.OrdersValues (column : IndexColumn V A) (values : List A) : Prop :=
  ∀ v ∈ values, column.known v = true

instance (column : IndexColumn V A) (values : List A) : Decidable (column.OrdersValues values) :=
  inferInstanceAs (Decidable (∀ v ∈ values, column.known v = true))

/-- The index of a file, whose keys are in order and have these entries, or not in order. -/
def IndexColumn.openIndex (column : IndexColumn V A) :
    Option (SortedSet (IndexKey A)) → TableIndex V A
  | some entries => { column with ordered := true, entries := entries }
  | none => { column with ordered := false, entries := .empty }

/-- A new index. -/
def IndexColumn.newIndex (column : IndexColumn V A) : TableIndex V A := column.openIndex (some .empty)

/-- A column of numbers whose differences do not overflow.
Source: `comparator.cpp`, `compare_int` -/
def numberColumn : IndexColumn ℕ ℤ where
  field v := v
  compare := compareInt
  known v := decide (v.natAbs < 1073741824)
  orders v w hv hw := by
    have hdiff : compareInt v w = v - w := wrap32_eq (by simp at hv hw; omega) (by simp at hv hw; omega)
    rw [hdiff]
    exact ⟨by omega, by omega, by omega⟩
  unordered := .const ⟨.internal, fun _ => none⟩

namespace TableIndex

/-- The key of a record in the index. -/
def key (index : TableIndex V A) (values : V) (rid : RID) : IndexKey A := ⟨index.field values, rid⟩

/-- The comparator has ordered all keys, and these values are among those that it orders. -/
def Orders (index : TableIndex V A) (values : List A) : Prop :=
  index.ordered = true ∧ index.OrdersValues values

instance (index : TableIndex V A) (values : List A) : Decidable (index.Orders values) :=
  inferInstanceAs (Decidable (_ ∧ _))

/-- The index with other answers for values that the comparator may not order. -/
def withAnswers (index : TableIndex V A) (answers : Stream' (Unordered A)) : TableIndex V A :=
  { index with unordered := answers }

/-- A call with a value that the comparator may not order. -/
def disorder (index : TableIndex V A) : RC × TableIndex V A :=
  (index.unordered.head.rc, { index.withAnswers index.unordered.tail with ordered := false })

/-- Source: `bplus_tree_index.cpp`, `BplusTreeIndex::insert_entry` -/
def insertEntry (index : TableIndex V A) (values : V) (rid : RID) : RC × TableIndex V A :=
  if index.Orders [index.field values] then
    let (rc, entries) := (IndexOp.insertEntry (index.key values rid) rid).reference index.entries
    (rc, { index with entries := entries })
  else index.disorder

/-- Source: `bplus_tree_index.cpp`, `BplusTreeIndex::delete_entry` -/
def deleteEntry (index : TableIndex V A) (values : V) (rid : RID) : RC × TableIndex V A :=
  if index.Orders [index.field values] then
    let (rc, entries) := (IndexOp.deleteEntry (index.key values rid)).reference index.entries
    (rc, { index with entries := entries })
  else index.disorder

end TableIndex

/-- The loop ends at the first index that fails.
Source: `table.cpp`, `Table::insert_entry_of_indexes` -/
def insertEntryOfIndexes : List (TableIndex V A) → V → RID → RC × List (TableIndex V A)
  | [], _, _ => (.success, [])
  | index :: indexes, values, rid =>
    let (rc, index) := index.insertEntry values rid
    if rc ≠ .success then (rc, index :: indexes)
    else
      let (rc, indexes) := insertEntryOfIndexes indexes values rid
      (rc, index :: indexes)

/-- Source: `table.cpp`, `Table::delete_entry_of_indexes` -/
def deleteEntryOfIndexes (errorOnNotExists : Bool) :
    List (TableIndex V A) → V → RID → RC × List (TableIndex V A)
  | [], _, _ => (.success, [])
  | index :: indexes, values, rid =>
    let (rc, index) := index.deleteEntry values rid
    if rc ≠ .success ∧ (rc ≠ .recordInvalidKey ∨ ¬ errorOnNotExists) then (rc, index :: indexes)
    else
      match indexes with
      | [] => (rc, [index])
      | _ =>
        let (rc, indexes) := deleteEntryOfIndexes errorOnNotExists indexes values rid
        (rc, index :: indexes)

/-! ## The table -/

/-- A record of the log. Source: `clog.h`, `union CLogRecords` -/
inductive LogRecord (V : Type)
  /-- `REDO_MTR_BEGIN` -/
  | mtrBegin (trxId : BitVec 32)
  /-- `REDO_MTR_COMMIT` -/
  | mtrCommit (trxId : BitVec 32)
  /-- `REDO_INSERT` -/
  | redoInsert (trxId : BitVec 32) (rid : RID) (data : RecordData V)
  /-- `REDO_DELETE` -/
  | redoDelete (trxId : BitVec 32) (rid : RID)
  deriving DecidableEq

/-- Source: `table.h`, `class Table` -/
structure Table (V A : Type) [LinearOrder A] where
  /-- The number of records on a page. -/
  recordCapacity : ℕ
  /-- `record_handler_` -/
  records : RecordFile (RecordData V)
  /-- `indexes_` -/
  indexes : List (TableIndex V A)
  /-- The records appended to `clog_manager_`. -/
  log : List (LogRecord V)

namespace Table

variable [Inhabited V]

/-- The record is taken out of the file again.
Source: `table.cpp`, the error paths of `Table::insert_record` -/
def undoInsert (t : Table V A) (rid : RID) : Table V A :=
  { t with records := (t.records.deleteRecord rid).2 }

/-- Write the redo record of an insertion. -/
def logInsert (t : Table V A) (trx : Option Trx) (rid : RID) (data : RecordData V) (logRc : RC) :
    Except RC RID × Table V A × Option Trx :=
  match trx with
  | none => (.ok rid, t, none)
  | some trx =>
    let t := { t with log := t.log ++ [.redoInsert trx.trxId rid data] }
    (if logRc = .success then .ok rid else .error logRc, t, some trx)

/-- Insert the entries of the indexes, or take everything back.
Source: `table.cpp`, `Table::insert_record` -/
def insertEntries (t : Table V A) (trx : Option Trx) (rid : RID) (data : RecordData V)
    (logRc : RC) : Except RC RID × Table V A × Option Trx :=
  match insertEntryOfIndexes t.indexes data.values rid with
  | (.success, indexes) => logInsert { t with indexes := indexes } trx rid data logRc
  | (rc, indexes) =>
    let (_, indexes) := deleteEntryOfIndexes true indexes data.values rid
    (.error rc, undoInsert { t with indexes := indexes } rid, trx)

/-- Source: `table.cpp`, `Table::insert_record` -/
def insertRecord (t : Table V A) (trx : Option Trx) (data : RecordData V) (logRc : RC) :
    Option (Except RC RID × Table V A × Option Trx) := do
  let data := match trx with
    | some trx => trx.initTrxInfo data
    | none => data
  let (inserted, records) ← t.records.insertRecord t.recordCapacity data
  let t := { t with records := records }
  match inserted with
  | .error rc => return (.error rc, t, trx)
  | .ok rid =>
    match trx with
    | none => return t.insertEntries none rid data logRc
    | some trx =>
      match trx.insertRecord rid with
      | (.success, trx) => return t.insertEntries (some trx) rid data logRc
      | (rc, trx) => return (.error rc, t.undoInsert rid, some trx)

/-- Source: `table.cpp`, `Table::delete_record` -/
def deleteRecord (t : Table V A) (counter : BitVec 32) (trx : Option Trx) (rid : RID)
    (data : RecordData V) (logRc : RC) : RC × Table V A × Option Trx × BitVec 32 :=
  match deleteEntryOfIndexes false t.indexes data.values rid with
  | (.success, indexes) =>
    let t := { t with indexes := indexes }
    match t.records.deleteRecord rid with
    | (.success, records) =>
      let t := { t with records := records }
      match trx with
      | none => (.success, t, none, counter)
      | some trx =>
        let (_, trx, counter) := trx.deleteRecord counter rid
        (logRc, { t with log := t.log ++ [.redoDelete trx.trxId rid] }, some trx, counter)
    | (rc, records) => (rc, { t with records := records }, trx, counter)
  | (rc, indexes) => (rc, { t with indexes := indexes }, trx, counter)

/-- Write the transaction field of a record in its page. -/
def setTrxId (t : Table V A) (rid : RID) (data : RecordData V) (trxId : BitVec 32) : Table V A :=
  { t with records := (t.records.updateRecord rid (data.setRecordTrxId trxId false)).2 }

/-- Source: `table.cpp`, `Table::commit_insert`; `trx.cpp`, `Trx::commit_insert` -/
def commitInsert (t : Table V A) (rid : RID) : Option (RC × Table V A) := do
  match ← t.records.getRecord rid with
  | .error rc => return (rc, t)
  | .ok data => return (.success, t.setTrxId rid data 0)

/-- Source: `table.cpp`, `Table::rollback_insert` -/
def rollbackInsert (t : Table V A) (rid : RID) : Option (RC × Table V A) := do
  match ← t.records.getRecord rid with
  | .error rc => return (rc, t)
  | .ok data =>
    match deleteEntryOfIndexes false t.indexes data.values rid with
    | (.success, indexes) =>
      let (rc, records) := t.records.deleteRecord rid
      return (rc, { t with indexes := indexes, records := records })
    | (rc, indexes) => return (rc, { t with indexes := indexes })

/-- Source: `table.cpp`, `Table::commit_delete` -/
def commitDelete (t : Table V A) (rid : RID) : Option (RC × Table V A) := do
  match ← t.records.getRecord rid with
  | .error rc => return (rc, t)
  | .ok data =>
    let (_, indexes) := deleteEntryOfIndexes false t.indexes data.values rid
    let (rc, records) := t.records.deleteRecord rid
    return (rc, { t with indexes := indexes, records := records })

/-- Source: `table.cpp`, `Table::rollback_delete`; `trx.cpp`, `Trx::rollback_delete` -/
def rollbackDelete (t : Table V A) (rid : RID) : Option (RC × Table V A) := do
  match ← t.records.getRecord rid with
  | .error rc => return (rc, t)
  | .ok data => return (.success, t.setTrxId rid data 0)

/-- What commit does to an operation. Source: `trx.cpp`, `Trx::commit` -/
def commitOperation (t : Table V A) : RID × OperationType → Option (RC × Table V A)
  | (rid, .insert) => t.commitInsert rid
  | (rid, .delete) => t.commitDelete rid

/-- What rollback does to an operation. Source: `trx.cpp`, `Trx::rollback` -/
def rollbackOperation (t : Table V A) : RID × OperationType → Option (RC × Table V A)
  | (rid, .insert) => t.rollbackInsert rid
  | (rid, .delete) => t.rollbackDelete rid

/-- Commit or roll back one operation after the other. The code of the last one is kept. -/
def endOperations (step : Table V A → RID × OperationType → Option (RC × Table V A)) :
    RC × Table V A → List (RID × OperationType) → Option (RC × Table V A)
  | (rc, t), [] => some (rc, t)
  | (_, t), op :: ops => do
    let r ← step t op
    endOperations step r ops

/-- The records that a table has. -/
def record (t : Table V A) (rid : RID) : Option (RecordData V) := t.records.record rid

instance decidableForallRecord (t : Table V A) (P : RID → RecordData V → Prop)
    [∀ rid data, Decidable (P rid data)] :
    Decidable (∀ rid data, t.record rid = some data → P rid data) :=
  t.records.decidableForallRecord P

end Table

end Miniob.Storage.Common

namespace Miniob.Storage.Transaction.Trx

open Miniob.Storage.Common

variable {V A : Type} [LinearOrder A] [Inhabited V]

/-- The operations come in the order in which the hash set has them.
Source: `trx.cpp`, `Trx::commit` -/
def commit (_trx : Trx) (order : List (RID × OperationType)) (t : Table V A) :
    Option (RC × Table V A × Trx) :=
  (Table.endOperations Table.commitOperation (.success, t) order).map fun (rc, t) =>
    (rc, t, ⟨0, []⟩)

/-- Source: `trx.cpp`, `Trx::rollback` -/
def rollback (_trx : Trx) (order : List (RID × OperationType)) (t : Table V A) :
    Option (RC × Table V A × Trx) :=
  (Table.endOperations Table.rollbackOperation (.success, t) order).map fun (rc, t) =>
    (rc, t, ⟨0, []⟩)

end Miniob.Storage.Transaction.Trx
