import Miniob.Sql.Expr.TupleCell
import Miniob.Storage.Common.Consistent
import Miniob.Storage.Record.FileScan

/-!
# Reading a table

`Table::scan_record` hands the records that a filter accepts and a transaction sees to a reader. It
goes through an index if the filter has a condition on a column with an index, else through all
records.

* `ConditionFilter`: a comparison, or several filters that all have to accept a record.
* `TableIndex.createScanner`: the records of a range of an index.
* `Table.findIndexForScan`: the range that a filter leads to.
* `Table.scanRecord`: the records that are handed over.

A filter compares cells, an index the values of its keys. The reader does not end the scan and does
not change the table.
-/

namespace Miniob.Storage.Common

open Miniob.Storage.Index Miniob.Storage.Record Miniob.Storage.Transaction
open Miniob.Sql (CompOp TupleCell compareTupleCell)

/-! ## Filters -/

/-- A side of a comparison. Source: `condition_filter.h`, `struct ConDesc` -/
inductive ConDesc (C : Type)
  /-- A column, `is_attr` is true. -/
  | attr (column : C)
  /-- A constant. -/
  | value (constant : TupleCell)
  deriving DecidableEq

/-- Source: `condition_filter.h`, `class ConditionFilter` -/
inductive ConditionFilter (C : Type)
  /-- `DefaultConditionFilter`, whose sides have the same type. -/
  | default (left right : ConDesc C) (compOp : CompOp)
  /-- `CompositeConditionFilter` -/
  | composite (filters : List (ConditionFilter C))

/-- The columns of a table and those with an index, in the order of the indexes.
Source: `table_meta.h`, `class TableMeta` -/
structure TableMeta (V A C : Type) where
  /-- The value of a column in a record. -/
  field : C → V → A
  /-- The cell of a column of a record. -/
  cell : C → V → TupleCell
  /-- The ends of a scan, as values of the column. Source: `bplus_tree.cpp`,
  `BplusTreeScanner::fix_user_key` -/
  ends : C → Bounds TupleCell → Bounds A
  /-- The columns of the indexes. -/
  indexes : List C

variable {V A C : Type}

/-- The cell of a side of a comparison. -/
def ConDesc.get (cell : C → V → TupleCell) (values : V) : ConDesc C → TupleCell
  | attr column => cell column values
  | value constant => constant

mutual

/-- Source: `condition_filter.cpp`, `DefaultConditionFilter::filter`,
`CompositeConditionFilter::filter` -/
def ConditionFilter.filter (cell : C → V → TupleCell) (values : V) : ConditionFilter C → Bool
  | .default left right compOp =>
    compareTupleCell compOp (left.get cell values) (right.get cell values)
  | .composite filters => filterAll cell values filters

/-- The loop over the filters of a `CompositeConditionFilter`. -/
def filterAll (cell : C → V → TupleCell) (values : V) : List (ConditionFilter C) → Bool
  | [] => true
  | f :: filters => f.filter cell values && filterAll cell values filters

end

/-! ## Ranges of an index -/

/-- The ends that an operator and a constant lead to, as if the column were on the left.
Source: `table.cpp`, `Table::find_index_for_scan` -/
def scanBounds {A : Type} (v : A) : CompOp → Option (Bounds A)
  | .equalTo => some (some (v, true), some (v, true))
  | .lessEqual => some (none, some (v, true))
  | .greatEqual => some (some (v, true), none)
  | .lessThan => some (none, some (v, false))
  | .greatThan => some (some (v, false), none)
  | .notEqual => none

/-- The ends as other values. -/
def Bounds.map {A B : Type} (f : A → B) (b : Bounds A) : Bounds B :=
  (b.1.map fun l => (f l.1, l.2), b.2.map fun r => (f r.1, r.2))

/-- The values of the ends. -/
def Bounds.values (b : Bounds A) : List A := (b.1.toList ++ b.2.toList).map Prod.fst

variable [LinearOrder A]

/-- The value lies between the ends. -/
def Bounds.Within (b : Bounds A) (a : A) : Prop := Index.Within b.1 b.2 a

instance (b : Bounds A) (a : A) : Decidable (b.Within a) :=
  inferInstanceAs (Decidable (Index.Within b.1 b.2 a))

/-- The entries of a range, in order. -/
def TableIndex.range (index : TableIndex V A) (b : Bounds A) : List (IndexKey A × RID) :=
  index.entries.entries.filter fun e => b.Within e.1.attr

/-- The identifiers that a scanner returns, `none` if it cannot be opened, on a tree without
entries. If both ends are given, `open` compares them, which are the same here, and included.
Source: `bplus_tree_index.cpp`, `BplusTreeIndex::create_scanner` -/
def TableIndex.createScanner (index : TableIndex V A) (b : Bounds A) : Option (List RID) :=
  if index.ordered = true ∧ index.entries.entries = [] then none
  else if index.Orders b.values then some ((index.range b).map Prod.snd)
  else index.unordered.head.scan b

/-! ## Scans -/

namespace Table

/-- The record is visible, and the filter accepts it. -/
def accepts (m : TableMeta V A C) (trx : Option Trx) (filter : Option (ConditionFilter C))
    (data : RecordData V) : Bool :=
  (trx.all fun trx => trx.isVisible data) && filter.all fun f => f.filter m.cell data.values

variable [DecidableEq C]

/-- Source: `table.cpp`, `Table::find_index_by_field` -/
def findIndexByField (t : Table V A) (m : TableMeta V A C) (column : C) :
    Option (TableIndex V A) :=
  (m.indexes.zip t.indexes).lookup column

/-- The scanner for a comparison of a column with a constant, on whichever side it is. -/
def findIndexForColumn (t : Table V A) (m : TableMeta V A C) (column : C) (v : TupleCell)
    (compOp : CompOp) : Option (List RID) := do
  let index ← t.findIndexByField m column
  let bounds ← scanBounds v compOp
  index.createScanner (m.ends column bounds)

mutual

/-- Source: `table.cpp`, `Table::find_index_for_scan` -/
def findIndexForScan (t : Table V A) (m : TableMeta V A C) :
    ConditionFilter C → Option (List RID)
  | .default (.attr column) (.value v) compOp => t.findIndexForColumn m column v compOp
  | .default (.value v) (.attr column) compOp => t.findIndexForColumn m column v compOp
  | .default (.attr _) (.attr _) _ => none
  | .default (.value _) (.value _) _ => none
  | .composite filters => t.findIndexForFilters m filters

/-- The first filter of a `CompositeConditionFilter` that leads to a scanner. -/
def findIndexForFilters (t : Table V A) (m : TableMeta V A C) :
    List (ConditionFilter C) → Option (List RID)
  | [] => none
  | f :: filters =>
    match t.findIndexForScan m f with
    | some rids => some rids
    | none => t.findIndexForFilters m filters

end

/-- Every entry that is fetched counts, whether its record is handed over or not.
Source: `table.cpp`, `Table::scan_record_by_index` -/
def scanRecordByIndex (t : Table V A) (accepts : RecordData V → Bool) :
    ℕ → List RID → Option (RC × List (RID × RecordData V))
  | 0, _ => some (.success, [])
  | _ + 1, [] => some (.success, [])
  | limit + 1, rid :: rids => do
    match ← t.records.getRecord rid with
    | .error rc => return (rc, [])
    | .ok data =>
      let (rc, records) ← t.scanRecordByIndex accepts limit rids
      return (rc, bif accepts data then (rid, data) :: records else records)

/-- `INT_MAX` stands for no limit. -/
def effectiveLimit (limit : Int) : ℕ := if limit < 0 then 2147483647 else limit.toNat

/-- The loop without an index does not look at the limit.
Source: `table.cpp`, `Table::scan_record` -/
def scanRecord (t : Table V A) (m : TableMeta V A C) (trx : Option Trx)
    (filter : Option (ConditionFilter C)) (limit : Int) :
    Option (RC × List (RID × RecordData V)) :=
  if limit = 0 then some (.success, [])
  else
    match filter.bind (t.findIndexForScan m) with
    | some rids => t.scanRecordByIndex (accepts m trx filter) (effectiveLimit limit) rids
    | none => some (.success, t.records.scan.filter fun r => accepts m trx filter r.2)

end Table

end Miniob.Storage.Common
