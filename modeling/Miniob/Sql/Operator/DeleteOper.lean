import Miniob.Sql.Operator.LogicalOperator
import Miniob.Storage.Common.OpenTable

/-!
# The deletion of the rows of a scan

`DELETE` asks its child for one row after the other and deletes each of them before it asks for the
next one, so that the table changes under the scan. It ends when the child has no further row, and
also when the child fails.

* `DeletePlan`: the statement; `deleteNext`: the loop of the operator over its child.
* `DeletePlan.tableScan`, `DeletePlan.indexScan`: the two children, over the files of the table.
* `DeletePlan.deleteByTable`, `DeletePlan.deleteByIndex`: the statement with either of them.
* `DeletePlan.DeletesMatching`: what the statement is for.

A call of a scanner may fail; what else the statement calls does not. The conditions of the
statement are all those of the scan. What closing the scanners does is no part of this.
-/

namespace Miniob.Sql

open Miniob.Storage.Common Miniob.Storage.Index Miniob.Storage.Record Miniob.Storage.Transaction
open Miniob.Storage.BufferPool (flat)

/-! ## The statement -/

/-- A code that a scanner returns when it fails. -/
abbrev ScanFault := {rc : RC // rc ≠ .success ∧ rc ≠ .recordEof}

/-- A row of a table. -/
abbrev Row (V : Type) := RID × RecordData V

/-- A statement as its plan has it. -/
structure DeletePlan (V : Type) where
  /-- The table, as its tuples see it. -/
  schema : TableSchema
  /-- The columns of a record. -/
  cells : V → String → TupleCell
  /-- `predicates_` -/
  predicates : List Expression
  /-- Which calls of the scanner fail, by their number. -/
  fault : ℕ → Option ScanFault

/-- What the operator asks of its child and of the table. -/
structure RowScan (S V : Type) where
  /-- The next record. -/
  fetch : S → Option (RC × Option (Row V) × S)
  /-- `delete_record` -/
  deleteRecord : S → Row V → Option (RC × S)

namespace DeletePlan

variable {S V A : Type}

/-- Source: `table_scan_physical_operator.cpp`, `TableScanPhysicalOperator::filter`;
`index_scan_physical_operator.cpp`, `IndexScanPhysicalOperator::filter` -/
def filter (q : DeletePlan V) (row : Row V) : Except RC Bool :=
  filterScan (.row q.schema ⟨row.1, q.cells row.2.values⟩) q.predicates

/-- The row matches. -/
def accepts (q : DeletePlan V) (row : Row V) : Bool :=
  match q.filter row with
  | .ok result => result
  | .error _ => false

/-- The loop over the records up to one that matches.
Source: `table_scan_physical_operator.cpp`, `TableScanPhysicalOperator::next`;
`index_scan_physical_operator.cpp`, `IndexScanPhysicalOperator::next` -/
def nextRow (q : DeletePlan V) (scan : RowScan S V) : ℕ → S → Option (RC × Option (Row V) × S)
  | 0, _ => none
  | fuel + 1, s => do
    let (rc, row, s) ← scan.fetch s
    if rc ≠ .success then return (rc, none, s)
    let row ← row
    match q.filter row with
    | .error rc => return (rc, none, s)
    | .ok true => return (.success, some row, s)
    | .ok false => nextRow q scan fuel s

/-- The loop of the operator: what it returns, and what its child has returned last.
Source: `delete_physical_operator.cpp`, `DeletePhysicalOperator::next` -/
def deleteNext (q : DeletePlan V) (scan : RowScan S V) (fuel : ℕ) : ℕ → S → Option (RC × RC × S)
  | 0, _ => none
  | n + 1, s => do
    let (rc, row, s) ← q.nextRow scan fuel s
    -- whatever the child has returned
    if rc ≠ .success then return (.recordEof, rc, s)
    match row with
    | none => return (rc, rc, s)
    | some row =>
      let (rc, s) ← scan.deleteRecord s row
      if rc ≠ .success then return (rc, .success, s)
      deleteNext q scan fuel n s

/-- After every deletion the place of the scan is kept. -/
def Undisturbed (q : DeletePlan V) (scan : RowScan S V) (InPlace : S → S → Prop) (fuel : ℕ) :
    ℕ → S → Prop
  | 0, _ => True
  | n + 1, s => ∀ r ∈ q.nextRow scan fuel s, ∀ row ∈ r.2.1,
      ∀ r' ∈ scan.deleteRecord r.2.2 row,
        InPlace r.2.2 r'.2 ∧ Undisturbed q scan InPlace fuel n r'.2

instance decidableUndisturbed (q : DeletePlan V) (scan : RowScan S V) (InPlace : S → S → Prop)
    [∀ s s', Decidable (InPlace s s')] (fuel : ℕ) :
    (n : ℕ) → (s : S) → Decidable (q.Undisturbed scan InPlace fuel n s)
  | 0, _ => inferInstanceAs (Decidable True)
  | n + 1, s =>
    have : ∀ s, Decidable (q.Undisturbed scan InPlace fuel n s) :=
      decidableUndisturbed q scan InPlace fuel n
    inferInstanceAs (Decidable (∀ r ∈ q.nextRow scan fuel s, ∀ row ∈ r.2.1,
      ∀ r' ∈ scan.deleteRecord r.2.2 row,
        InPlace r.2.2 r'.2 ∧ q.Undisturbed scan InPlace fuel n r'.2))

end DeletePlan

/-! ## The two scans -/

/-- A scan of the data file that has been opened.
Source: `table_scan_physical_operator.h`, `class TableScanPhysicalOperator` -/
structure OpenTableScan (V A : Type) where
  /-- `table_` -/
  table : OpenTable V A
  /-- `record_scanner_` -/
  recordScanner : RecordFileScanner (RecordData V)
  /-- How often the scanner has been called. -/
  calls : ℕ

/-- A scan of an index that has been opened.
Source: `index_scan_physical_operator.h`, `class IndexScanPhysicalOperator` -/
structure OpenIndexScan (V A : Type) where
  /-- `table_` -/
  table : OpenTable V A
  /-- `index_scanner_` -/
  indexScanner : BplusTreeScanner
  /-- How often the scanner has been called. -/
  calls : ℕ

namespace DeletePlan

variable {S V A : Type} [Inhabited A]

/-- Source: `table_scan_physical_operator.cpp`, `TableScanPhysicalOperator::next` -/
def tableScan (q : DeletePlan V) (fuel : ℕ) : RowScan (OpenTableScan V A) V where
  fetch s :=
    match s.recordScanner.nextRecord, q.fault s.calls with
    | none, _ => some (.recordEof, none, s)
    | some _, some rc => some (rc.1, none, { s with calls := s.calls + 1 })
    | some record, none => (s.recordScanner.fetchNextRecord s.table.files).map
        fun (scanner, files) =>
          (.success, some record, ⟨{ s.table with files := files }, scanner, s.calls + 1⟩)
  deleteRecord s row :=
    (s.table.deleteRecord fuel row).map fun (rc, table) => (rc, { s with table := table })

/-- A scan that has ended calls no page.
Source: `index_scan_physical_operator.cpp`, `IndexScanPhysicalOperator::next` -/
def indexScan (q : DeletePlan V) (fuel n : ℕ) : RowScan (OpenIndexScan V A) V where
  fetch s :=
    match if s.indexScanner.endIndex = -1 then none else q.fault s.calls with
    | some rc => some (rc.1, none, { s with calls := s.calls + 1 })
    | none => do
      let index ← s.table.indexes[n]?
      let (((rc, rid, scanner), _), _) ←
        exec flat (nextEntry s.indexScanner) index.header index.pages
      let s := { s with indexScanner := scanner, calls := s.calls + 1 }
      if rc ≠ .success then return (rc, none, s)
      let rid ← rid
      let r := (s.table.files s.table.pool).getRecord .allSuccess rid.pageNum rid.slotNum.toNat
      let files := Function.update s.table.files s.table.pool r.file
      let s := { s with table := { s.table with files := files } }
      if r.rc ≠ .success then return (r.rc, none, s)
      let data ← r.record
      return (.success, some (rid, data), s)
  deleteRecord s row :=
    (s.table.deleteRecord fuel row).map fun (rc, table) => (rc, { s with table := table })

/-- The statement with a scan of the data file.
Source: `delete_physical_operator.cpp`, `DeletePhysicalOperator::open`;
`table_scan_physical_operator.cpp`, `TableScanPhysicalOperator::open` -/
def deleteByTable (q : DeletePlan V) (fuel : ℕ) (t : OpenTable V A) :
    Option (RC × RC × OpenTable V A) := do
  let (scanner, files) ← RecordFileScanner.fresh.openScan t.files t.pool none
  let (rc, last, s) ←
    q.deleteNext (q.tableScan fuel) fuel fuel ⟨{ t with files := files }, scanner, 0⟩
  return (rc, last, s.table)

/-- The scan of an index that has been opened between two keys.
Source: `index_scan_physical_operator.cpp`, `IndexScanPhysicalOperator::open`;
`bplus_tree_index.cpp`, `BplusTreeIndex::create_scanner` -/
def openIndexScan (fuel n : ℕ) (left right : IndexKey A) (t : OpenTable V A) :
    Option (RC × OpenIndexScan V A) := do
  let index ← t.indexes[n]?
  let scanner : BplusTreeScanner := { BplusTreeScanner.closed with inited := true }
  let (((rc, scanner), _), _) ← exec flat
    (openKeys index.comparator fuel (some left) (some right) scanner) index.header index.pages
  return (if rc = .success then .success else .internal, ⟨t, scanner, 0⟩)

/-- The statement with a scan of an index. The keys are those that the scanner makes of a literal.
Source: `delete_physical_operator.cpp`, `DeletePhysicalOperator::open` -/
def deleteByIndex (q : DeletePlan V) (fuel n : ℕ) (left right : IndexKey A) (t : OpenTable V A) :
    Option (RC × RC × OpenTable V A) := do
  let (rc, s) ← openIndexScan fuel n left right t
  if rc ≠ .success then return (rc, rc, s.table)
  let (rc, last, s) ← q.deleteNext (q.indexScan fuel n) fuel fuel s
  return (rc, last, s.table)

/-! ## What the statement is for -/

/-- A statement that has run to the end has met no error, the rows that matched before it are gone
and no others, and the indexes have the entries of the rows that are left. -/
def DeletesMatching [LinearOrder A] (q : DeletePlan V) (t : OpenTable V A)
    (result : Option (RC × RC × OpenTable V A)) : Prop :=
  ∃ rc last t', result = some (rc, last, t') ∧ (rc = .recordEof → last = .recordEof ∧
    (t'.record = fun rid => (t.record rid).filter fun data => !q.accepts (rid, data)) ∧
    ∃ height, t'.Consistent height)

end DeletePlan

end Miniob.Sql
