import Miniob.Sql.Operator.QueryRows
import Miniob.Sql.Optimizer.PlanConditions
import Miniob.Storage.Index.ColumnIndex

/-!
# Reading a table through an index

A scan with an equality between a column and a constant reads the table through the index of the
column, if there is one. The index hands out record identifiers in the order of its keys, and each
record is fetched and checked against all conditions of the scan.

* `indexScanOper`: the operator.
* `createIndexedPlan`: the operators for a logical plan over tables with indexes.
* `IndexLists`: the entries of an index are those of the records of a table.
* `indexScan_scans`: then the operator hands up the rows that a table scan hands up, in another
  order.
* `createIndexedPlan_scans`: so do the operators of a plan.
* `query_with_indexes`: a query gets the same rows with indexes as without them.

A table without records is left out of the results when a condition leads to one of its indexes: the
scanner of an empty index cannot be opened (`openScan_empty`).
-/

namespace Miniob.Sql

open Miniob.Common Miniob.Lib Miniob.Storage.Index
open Miniob.Storage.BufferPool (FlatPool flat)

/-! ## The operator -/

/-- The indexes of the columns of each table. Source: `table.cpp`, `Table::find_index_by_field` -/
abbrev TableIndexes := String → String → Option ColumnIndex

/-- The record of an identifier.
Source: `record_manager.cpp`, `RecordFileHandler::get_record` -/
def getRecord (records : List Record) (rid : RID) : Option Record :=
  records.find? fun record => record.rid = rid

/-- Source: `index_scan_physical_operator.h`, `class IndexScanPhysicalOperator` -/
structure IndexScanState where
  /-- `index_scanner_` -/
  indexScanner : Option BplusTreeScanner
  /-- `current_record_` -/
  currentRecord : Option Record

/-- The loop over the entries up to one whose record the conditions hold of.
Source: `index_scan_physical_operator.cpp`, `IndexScanPhysicalOperator::next` -/
def indexScanNext (index : ColumnIndex) (records : List Record) (table : TableSchema)
    (predicates : List Expression) : ℕ → IndexScanState → Option (RC × IndexScanState)
  | 0, _ => none
  | n + 1, s => do
    let (rc, rid, scanner) ← index.nextEntry (← s.indexScanner)
    if rc ≠ .success then return (rc, { s with indexScanner := some scanner })
    match getRecord records (← rid) with
    | none => return (.recordRecordNotExist, { s with indexScanner := some scanner })
    | some record =>
      match filterScan (.row table record) predicates with
      | .error rc => return (rc, ⟨some scanner, some record⟩)
      | .ok true => return (.success, ⟨some scanner, some record⟩)
      | .ok false =>
        indexScanNext index records table predicates n ⟨some scanner, some record⟩

/-- The entries of one key. Source: `index_scan_physical_operator.cpp`,
`IndexScanPhysicalOperator::open`, `IndexScanPhysicalOperator::close`,
`IndexScanPhysicalOperator::current_tuple` -/
def indexScanOper (depth : ℕ) (index : ColumnIndex) (key : index.type.UserKey)
    (records : List Record) (table : TableSchema) (predicates : List Expression) :
    PhysicalOperator where
  State := IndexScanState
  init := ⟨none, none⟩
  openOper s :=
    match index.createScanner depth (some (key, true)) (some (key, true)) with
    | none => (.internal, s)
    | some scanner => (.success, { s with indexScanner := some scanner })
  next := indexScanNext index records table predicates
  close s := (.success, { s with indexScanner := none })
  currentTuple s := s.currentRecord.map (.row table)

/-! ## Plans -/

/-- The column and the constant of an equality that an index can be used for.
Source: `physical_plan_generator.cpp`, `PhysicalPlanGenerator::create_plan` -/
def fieldAndValue : Expression → Option (Field × TupleCell)
  | .comparison .equalTo (.field field) (.value cell) => some (field, cell)
  | .comparison .equalTo (.value cell) (.field field) => some (field, cell)
  | _ => none

/-- The first condition that an index can be used for, and the index.
Source: `physical_plan_generator.cpp`, `PhysicalPlanGenerator::create_plan` -/
def findIndex (indexes : TableIndexes) (table : TableSchema) (predicates : List Expression) :
    Option (ColumnIndex × TupleCell) :=
  predicates.findSome? fun e => do
    let (field, cell) ← fieldAndValue e
    let index ← indexes table.name field.fieldName
    return (index, cell)

/-- The bytes of a constant of the type of the column. -/
def literalKey : (type : AttrType) → TupleCell → Option type.UserKey
  | .ints, .ints v => some v
  | .floats, .floats v => some v
  | .chars _, .chars s => some s
  | _, _ => none

/-- The operators of a plan, with the indexes of the tables. A constant of another type than the
column, the bytes of which are taken for a key, is left out.
Source: `physical_plan_generator.cpp`, `PhysicalPlanGenerator::create_plan` -/
def createIndexedPlan (depth : ℕ) (indexes : TableIndexes) (contents : Contents) :
    LogicalOperator → Option PhysicalOperator
  | .mk (.tableGet table predicates) _ _ =>
    match findIndex indexes table predicates with
    | none => some (tableScan contents table predicates)
    | some (index, cell) => (literalKey index.type cell).map fun key =>
      indexScanOper depth index key (contents table.name) table predicates
  | .mk .predicate [e] [child] =>
    (createIndexedPlan depth indexes contents child).map (predicateOper e)
  | .mk (.projection _) _ [] => some projectNothing
  | .mk (.projection fields) _ (child :: _) =>
    (createIndexedPlan depth indexes contents child).map (project fields)
  | .mk .join _ [left, right] =>
    (createIndexedPlan depth indexes contents left).bind fun left =>
      (createIndexedPlan depth indexes contents right).map (nestedLoopJoin left)
  | _ => none

/-! ## Values and cells -/

/-- The cell of a value of a column. -/
def keyCell : (type : AttrType) → type.KeyValue → TupleCell
  | .ints, v => .ints v
  | .floats, v => .floats v
  | .chars _, v => .chars v.bytes

section cells

variable {type : AttrType} {values : List type.KeyValue}

theorem literalKey_keyCell (v : type.KeyValue) :
    literalKey type (keyCell type v) = some (type.userKey v) := by
  cases type <;> rfl

/-- Cells of values that can be compared are equal to a condition if the values are the same. -/
theorem compareTupleCell_keyCell (hvalues : type.Comparable values) {v w : type.KeyValue}
    (hv : v ∈ values) (hw : w ∈ values) :
    compareTupleCell .equalTo (keyCell type v) (keyCell type w) = true ↔ v = w := by
  have hsame := (hvalues.sign hv hw).zero
  have hzero : (keyCell type v).compare (keyCell type w) = 0 ↔ v = w := by
    cases type with
    | ints => exact hsame
    | floats => exact hsame
    | chars n =>
      exact (compareString_eq_zero_iff v.no_zero w.no_zero).trans CharsValue.bytes_injective.eq_iff
  rw [← hzero]
  exact decide_eq_true_iff.trans eq_comm

end cells

/-! ## What the operator hands up -/

section operator

variable {index : ColumnIndex} {key : index.type.UserKey} {records : List Record}
  {table : TableSchema} {predicates : List Expression} {depth : ℕ}

/-- The scanner has reached the end. -/
theorem indexScanNext_eof {scanner scanner' : BplusTreeScanner} {rid : Option RID}
    {current : Option Record} (h : index.nextEntry scanner = some (.recordEof, rid, scanner'))
    (n : ℕ) : indexScanNext index records table predicates (n + 1) ⟨some scanner, current⟩ =
      some (.recordEof, ⟨some scanner', current⟩) := by
  simp [indexScanNext, h]

/-- One record is fetched and the conditions hold. -/
theorem indexScanNext_accept {scanner scanner' : BplusTreeScanner} {rid : RID} {record : Record}
    {current : Option Record} (h : index.nextEntry scanner = some (.success, some rid, scanner'))
    (hrecord : getRecord records rid = some record)
    (hfilter : filterScan (.row table record) predicates = .ok true) (n : ℕ) :
    indexScanNext index records table predicates (n + 1) ⟨some scanner, current⟩ =
      some (.success, ⟨some scanner', some record⟩) := by
  simp [indexScanNext, h, hrecord, hfilter]

/-- One record is fetched and passed over. -/
theorem indexScanNext_skip {scanner scanner' : BplusTreeScanner} {rid : RID} {record : Record}
    {current : Option Record} (h : index.nextEntry scanner = some (.success, some rid, scanner'))
    (hrecord : getRecord records rid = some record)
    (hfilter : filterScan (.row table record) predicates = .ok false) (n : ℕ) :
    indexScanNext index records table predicates (n + 1) ⟨some scanner, current⟩ =
      indexScanNext index records table predicates n ⟨some scanner', some record⟩ := by
  simp [indexScanNext, h, hrecord, hfilter]

/-- The operator hands up the rows of the records that the scanner leads to, if the conditions hold
of them. By induction on what the scanner returns. -/
theorem indexScan_emits {scanner : BplusTreeScanner} {rids : List RID}
    (hleads : index.Leads scanner rids) {current : Option Record} {kept : List Tuple}
    (hfound : ∀ rid ∈ rids, ∃ record, getRecord records rid = some record)
    (hkept : filterRows (filterScan · predicates)
      ((rids.filterMap (getRecord records)).map (.row table)) = .ok kept) :
    (indexScanOper depth index key records table predicates).Emits (fun _ => True)
      ⟨some scanner, current⟩ kept := by
  induction hleads generalizing current kept with
  | @eof scanner scanner' rid h =>
    cases hkept
    have hreturns : (indexScanOper depth index key records table predicates).Returns
        ⟨some scanner, current⟩ .recordEof ⟨some scanner', current⟩ := by
      refine ⟨1, fun fuel hfuel => ?_⟩
      obtain ⟨n, rfl⟩ := Nat.exists_eq_add_of_le' hfuel
      exact indexScanNext_eof h n
    exact .eof hreturns ⟨_, rfl, trivial⟩
  | @entry scanner scanner' rid rids h _ ih =>
    obtain ⟨record, hrecord⟩ := hfound rid List.mem_cons_self
    rw [List.filterMap_cons_some hrecord, List.map_cons] at hkept
    obtain ⟨b, rest, hfilter, hrest, rfl⟩ := filterRows_cons hkept
    have hemits : (indexScanOper depth index key records table predicates).Emits (fun _ => True)
        ⟨some scanner', some record⟩ rest :=
      ih (fun rid' hrid' => hfound rid' (List.mem_cons_of_mem _ hrid')) hrest
    cases b with
    | true =>
      have hreturns : (indexScanOper depth index key records table predicates).Returns
          ⟨some scanner, current⟩ .success ⟨some scanner', some record⟩ := by
        refine ⟨1, fun fuel hfuel => ?_⟩
        obtain ⟨n, rfl⟩ := Nat.exists_eq_add_of_le' hfuel
        exact indexScanNext_accept h hrecord hfilter n
      exact .row hreturns rfl ⟨_, rfl, trivial⟩ hemits
    | false =>
      refine hemits.congr fun rc s'' hreturns => ?_
      obtain ⟨n, hn⟩ : ∃ n, ∀ fuel ≥ n, indexScanNext index records table predicates fuel
        ⟨some scanner', some record⟩ = some (rc, s'') := hreturns
      refine ⟨n + 1, fun fuel hfuel => ?_⟩
      obtain ⟨m, rfl⟩ := Nat.exists_eq_add_of_le' (Nat.le_trans (Nat.le_add_left 1 n) hfuel)
      exact (indexScanNext_skip h hrecord hfilter m).trans (hn m (by omega))

/-- Whenever the scanner can be opened, the operator can. -/
theorem indexScan_of_leads {scanner : BplusTreeScanner} {rids : List RID} {kept : List Tuple}
    (hopen : index.createScanner depth (some (key, true)) (some (key, true)) = some scanner)
    (hleads : index.Leads scanner rids)
    (hfound : ∀ rid ∈ rids, ∃ record, getRecord records rid = some record)
    (hkept : filterRows (filterScan · predicates)
      ((rids.filterMap (getRecord records)).map (.row table)) = .ok kept) :
    (indexScanOper depth index key records table predicates).Scans kept := by
  refine ⟨fun _ => True, trivial, fun s _ => ⟨{ s with indexScanner := some scanner }, ?_,
    indexScan_emits hleads hfound hkept⟩⟩
  show (match index.createScanner depth (some (key, true)) (some (key, true)) with
    | none => (RC.internal, s)
    | some scanner => (.success, { s with indexScanner := some scanner })) = _
  rw [hopen]

end operator

/-! ## An index on the records of a table -/

/-- The entries of the index are those of the records. The values of the column and the constants
that it is compared with can be compared, and there is a record if there is a constant. -/
structure IndexLists (index : ColumnIndex) (column : String) (records : List Record)
    (literals : List TupleCell) (values : List index.type.KeyValue) (height : ℕ)
    (C : SortedSet (IndexKey index.type.KeyValue)) : Prop where
  /-- The values can be compared. -/
  comparable : index.type.Comparable values
  /-- The pages are a tree with these entries. -/
  tree : RepresentsSet (ValueKey (· ∈ values)) index.header index.pages height C
  /-- The entries are those of the records. -/
  entries : ∀ e, e ∈ C.entries ↔ ∃ record ∈ records,
    record.data column = keyCell index.type e.1.attr ∧ e.1.rid = record.rid ∧ e.2 = record.rid
  /-- Every record has a value in the column. -/
  typed : ∀ record ∈ records, ∃ v ∈ values, record.data column = keyCell index.type v
  /-- The records have different identifiers. -/
  distinct : (records.map Record.rid).Nodup
  /-- The identifiers can be stored. -/
  storable : ∀ record ∈ records, Storable record.rid
  /-- The constants are values of the column. -/
  constants : ∀ cell ∈ literals, ∃ v ∈ values, cell = keyCell index.type v
  /-- An index that is looked into has entries. -/
  nonempty : literals ≠ [] → records ≠ []

/-- A record is found by its identifier. -/
theorem getRecord_eq {records : List Record} (hdistinct : (records.map Record.rid).Nodup)
    {record : Record} (h : record ∈ records) : getRecord records record.rid = some record := by
  induction records with
  | nil => cases h
  | cons first records ih =>
    rw [List.map_cons, List.nodup_cons] at hdistinct
    unfold getRecord
    rw [List.find?_cons]
    rcases List.mem_cons.mp h with rfl | h
    · simp
    · have hne : first.rid ≠ record.rid := fun heq =>
        hdistinct.1 (heq ▸ List.mem_map_of_mem h)
      rw [decide_eq_false hne]
      exact ih hdistinct.2 h

namespace IndexLists

variable {index : ColumnIndex} {column : String} {records : List Record}
  {literals : List TupleCell} {values : List index.type.KeyValue} {height : ℕ}
  {C : SortedSet (IndexKey index.type.KeyValue)} {v : index.type.KeyValue} {depth : ℕ}

/-- The record identifiers of the entries of a value. -/
def ridsOf (C : SortedSet (IndexKey index.type.KeyValue)) (v : index.type.KeyValue) : List RID :=
  ridsWithin C (some (v, true)) (some (v, true))

theorem mem_ridsOf (h : IndexLists index column records literals values height C) {rid : RID} :
    rid ∈ ridsOf C v ↔
      ∃ record ∈ records, record.data column = keyCell index.type v ∧ record.rid = rid := by
  rw [ridsOf, ridsWithin_self]
  simp only [List.mem_map, List.mem_filter, decide_eq_true_eq]
  constructor
  · rintro ⟨e, ⟨he, rfl⟩, rfl⟩
    obtain ⟨record, hrecord, hdata, -, hrid⟩ := (h.entries e).mp he
    exact ⟨record, hrecord, hdata, hrid.symm⟩
  · rintro ⟨record, hrecord, hdata, rfl⟩
    exact ⟨(⟨v, record.rid⟩, record.rid),
      ⟨(h.entries _).mpr ⟨record, hrecord, hdata, rfl, rfl⟩, rfl⟩, rfl⟩

theorem nodup_ridsOf (h : IndexLists index column records literals values height C) :
    (ridsOf C v).Nodup := by
  rw [ridsOf, ridsWithin_self]
  have hentries : C.entries.Nodup :=
    C.sorted.imp fun {e f} hlt heq => absurd (congrArg Prod.fst heq) hlt.ne
  refine (hentries.filter _).map_on fun e he f hf heq => ?_
  simp only [List.mem_filter, decide_eq_true_eq] at he hf
  obtain ⟨record, -, -, hrid, hrid'⟩ := (h.entries e).mp he.1
  obtain ⟨record', -, -, hfrid, hfrid'⟩ := (h.entries f).mp hf.1
  obtain ⟨⟨a, r⟩, q⟩ := e
  obtain ⟨⟨a', r'⟩, q'⟩ := f
  simp_all

/-- **The entries of a value lead to its records**, in some order. -/
theorem fetched_perm (h : IndexLists index column records literals values height C) :
    ((ridsOf C v).filterMap (getRecord records)).Perm
      (records.filter fun record => record.data column = keyCell index.type v) := by
  have hrids : (ridsOf C v).Perm
      ((records.filter fun record => record.data column = keyCell index.type v).map
        Record.rid) := by
    refine (List.perm_ext_iff_of_nodup h.nodup_ridsOf ?_).mpr fun rid => ?_
    · exact h.distinct.sublist (List.filter_sublist.map _)
    · rw [h.mem_ridsOf]
      simp only [List.mem_map, List.mem_filter, decide_eq_true_eq, and_assoc]
  refine (hrids.filterMap _).trans (List.Perm.of_eq ?_)
  rw [List.filterMap_map]
  refine (List.filterMap_congr fun record hrecord => ?_).trans List.filterMap_some
  exact getRecord_eq h.distinct (List.mem_filter.mp hrecord).1

theorem found_ridsOf (h : IndexLists index column records literals values height C) :
    ∀ rid ∈ ridsOf C v, ∃ record, getRecord records rid = some record := by
  intro rid hrid
  obtain ⟨record, hrecord, -, rfl⟩ := h.mem_ridsOf.mp hrid
  exact ⟨record, getRecord_eq h.distinct hrecord⟩

/-- The scanner of a value leads to its entries, but cannot be opened if there are no records. -/
theorem range (h : IndexLists index column records literals values height C) (hv : v ∈ values)
    (hdepth : height ≤ depth) (hlength : C.entries.length < depth) :
    records = [] ∧ index.createScanner depth (some (index.type.userKey v, true))
        (some (index.type.userKey v, true)) = none ∨
      records ≠ [] ∧ ∃ scanner, index.createScanner depth (some (index.type.userKey v, true))
          (some (index.type.userKey v, true)) = some scanner ∧
        index.Leads scanner (ridsOf C v) := by
  have hstored : ∀ e ∈ C.entries, Storable e.1.rid := by
    intro e he
    obtain ⟨record, hrecord, -, hrid, -⟩ := (h.entries e).mp he
    rw [hrid]
    exact h.storable record hrecord
  have hbound : ∀ b ∈ some (v, true), b.1 ∈ values := by
    rintro b hb
    cases hb
    exact hv
  have hacc : ¬ Excludes (some (v, true)) (some (v, true)) := by simp [Excludes]
  have hsome : (some (v, true)).map index.type.userBound =
      some (index.type.userKey v, true) := rfl
  have hopens := openRange_ok (fun _ _ hv hw => h.comparable.sign hv hw) h.tree hstored hdepth
    hlength hbound hbound hacc
  rw [← openScanner_eq, hsome] at hopens
  rcases hopens with ⟨hnil, hopen⟩ | ⟨hne, scanner, scanner₂, hopen, hnext⟩
  · refine Or.inl ⟨List.eq_nil_iff_forall_not_mem.mpr fun record hrecord => ?_, ?_⟩
    · -- every record has an entry
      obtain ⟨w, -, hdata⟩ := h.typed record hrecord
      have hmem := (h.entries (⟨w, record.rid⟩, record.rid)).mpr
        ⟨record, hrecord, hdata, rfl, rfl⟩
      rw [hnil] at hmem
      cases hmem
    · rw [ColumnIndex.createScanner, hopen]
  · refine Or.inr ⟨?_, scanner, ?_, ColumnIndex.leads_of_nextEntries hnext⟩
    · rintro rfl
      obtain ⟨e, he⟩ := List.exists_mem_of_ne_nil _ hne
      obtain ⟨record, hrecord, -⟩ := (h.entries e).mp he
      cases hrecord
    · rw [ColumnIndex.createScanner, hopen]

end IndexLists

/-! ## The rows of an index scan -/

/-- The condition holds, if it has a value. -/
def accepted (filter : Tuple → Except RC Bool) (tuple : Tuple) : Bool :=
  match filter tuple with
  | .ok b => b
  | .error _ => false

/-- Rows that are filtered without an error. -/
theorem filterRows_inv {filter : Tuple → Except RC Bool} {tuples kept : List Tuple}
    (h : filterRows filter tuples = .ok kept) :
    (∀ tuple ∈ tuples, filter tuple = .ok (accepted filter tuple)) ∧
      kept = tuples.filter (accepted filter) := by
  induction tuples generalizing kept with
  | nil =>
    cases h
    exact ⟨by simp, rfl⟩
  | cons tuple tuples ih =>
    obtain ⟨b, rest, hfilter, hrest, rfl⟩ := filterRows_cons h
    obtain ⟨hall, rfl⟩ := ih hrest
    have htuple : accepted filter tuple = b := by rw [accepted, hfilter]
    refine ⟨fun t ht => ?_, ?_⟩
    · rcases List.mem_cons.mp ht with rfl | ht
      · rw [htuple, hfilter]
      · exact hall t ht
    · rw [List.filter_cons, htuple]

/-- The same rows in another order are filtered alike. -/
theorem filterRows_perm {filter : Tuple → Except RC Bool} {tuples tuples' kept : List Tuple}
    (h : filterRows filter tuples = .ok kept) (hperm : tuples'.Perm tuples) :
    ∃ kept', filterRows filter tuples' = .ok kept' ∧ kept'.Perm kept := by
  obtain ⟨hall, rfl⟩ := filterRows_inv h
  exact ⟨_, filterRows_eq fun t ht => hall t (hperm.subset ht), hperm.filter _⟩

/-- All conditions hold of a row that a scan hands up. By induction on the conditions. -/
theorem filterScan_true {tuple : Tuple} {predicates : List Expression}
    (h : filterScan tuple predicates = .ok true) {e : Expression} (he : e ∈ predicates) :
    ∃ cell, e.getValue tuple = .ok cell ∧ cell.getBoolean = true := by
  induction predicates with
  | nil => cases he
  | cons first predicates ih =>
    obtain ⟨cell, hcell, h⟩ := bind_inv h
    cases hvalue : cell.getBoolean with
    | false =>
      rw [hvalue, if_neg (by simp)] at h
      cases h
    | true =>
      rw [hvalue, if_pos rfl] at h
      rcases List.mem_cons.mp he with rfl | he
      · exact ⟨cell, hcell, hvalue⟩
      · exact ih h he

/-- An equality holds of a record: its cell compares equal to the constant, on either side. -/
theorem getValue_fieldAndValue {table : TableSchema} {record : Record} {e : Expression}
    {field : Field} {cell value : TupleCell} (h : fieldAndValue e = some (field, cell))
    (hvalue : e.getValue (.row table record) = .ok value) (htrue : value.getBoolean = true) :
    compareTupleCell .equalTo (record.data field.fieldName) cell = true ∨
      compareTupleCell .equalTo cell (record.data field.fieldName) = true := by
  have hfind : ∀ {c : TupleCell}, (Tuple.row table record).findCell field = .ok c →
      record.data field.fieldName = c := by
    intro c hc
    rw [Tuple.findCell] at hc
    split_ifs at hc
    exact Except.ok.inj hc
  unfold fieldAndValue at h
  split at h
  · cases h
    obtain ⟨left, hleft, hvalue⟩ := bind_inv hvalue
    cases hvalue
    rw [hfind hleft]
    exact Or.inl htrue
  · cases h
    obtain ⟨left, hleft, hvalue⟩ := bind_inv hvalue
    cases hleft
    obtain ⟨right, hright, hvalue⟩ := bind_inv hvalue
    cases hvalue
    rw [hfind hright]
    exact Or.inr htrue
  · cases h

/-- **An index scan hands up the rows of a table scan**, in some order. -/
theorem indexScan_scans {index : ColumnIndex} {field : Field} {records : List Record}
    {literals : List TupleCell} {values : List index.type.KeyValue} {height depth : ℕ}
    {C : SortedSet (IndexKey index.type.KeyValue)} {v : index.type.KeyValue}
    {table : TableSchema} {predicates : List Expression} {e : Expression} {kept : List Tuple}
    (h : IndexLists index field.fieldName records literals values height C) (hv : v ∈ values)
    (hne : records ≠ []) (hdepth : height ≤ depth) (hlength : C.entries.length < depth)
    (he : e ∈ predicates) (hequal : fieldAndValue e = some (field, keyCell index.type v))
    (hkept : filterRows (filterScan · predicates) (records.map (.row table)) = .ok kept) :
    ∃ kept', (indexScanOper depth index (index.type.userKey v) records table predicates).Scans
      kept' ∧ kept'.Perm kept := by
  obtain ⟨-, scanner, hopen, hleads⟩ := (h.range hv hdepth hlength).resolve_left fun hnil =>
    hne hnil.1
  obtain ⟨hall, rfl⟩ := filterRows_inv hkept
  have hfetched := (h.fetched_perm (v := v)).map (Tuple.row table)
  have hsub : ∀ t ∈ ((IndexLists.ridsOf C v).filterMap (getRecord records)).map (Tuple.row table),
      filterScan t predicates = .ok (accepted (filterScan · predicates) t) := by
    intro t ht
    obtain ⟨record, hrecord, rfl⟩ := List.mem_map.mp (hfetched.subset ht)
    exact hall _ (List.mem_map_of_mem (List.mem_filter.mp hrecord).1)
  refine ⟨_, indexScan_of_leads hopen hleads h.found_ridsOf (filterRows_eq hsub),
    (hfetched.filter _).trans (List.Perm.of_eq ?_)⟩
  -- a record that the conditions hold of has the value
  rw [List.filter_map, List.filter_map, List.filter_filter]
  refine congrArg _ (List.filter_congr fun record hrecord => ?_)
  rw [Function.comp_apply, Bool.and_eq_left_iff_imp]
  intro haccepted
  have htrue := hall _ (List.mem_map_of_mem hrecord)
  rw [haccepted] at htrue
  obtain ⟨value, hvalue, hboolean⟩ := filterScan_true htrue he
  obtain ⟨w, hw, hdata⟩ := h.typed record hrecord
  have hcompare := getValue_fieldAndValue hequal hvalue hboolean
  rw [hdata, compareTupleCell_keyCell h.comparable hw hv,
    compareTupleCell_keyCell h.comparable hv hw] at hcompare
  rw [decide_eq_true_eq, hdata, hcompare.elim id Eq.symm]

/-! ## The operators of a plan -/

/-- The constants that the comparisons ask a column to be equal to. -/
def comparedTo (units : List FilterUnit) (field : Field) : List TupleCell :=
  units.filterMap fun unit => match fieldAndValue unit.toExpression with
    | some (f, cell) => if f = field then some cell else none
    | none => none

section plans

variable {indexes : TableIndexes} {contents : Contents} {table : TableSchema}
  {predicates : List Expression} {units : List FilterUnit} {depth : ℕ}

theorem findIndex_eq_some {index : ColumnIndex} {cell : TupleCell}
    (h : findIndex indexes table predicates = some (index, cell)) :
    ∃ e ∈ predicates, ∃ field, fieldAndValue e = some (field, cell) ∧
      indexes table.name field.fieldName = some index := by
  obtain ⟨e, he, h⟩ := List.exists_of_findSome?_eq_some h
  obtain ⟨⟨field, cell'⟩, hequal, h⟩ := Option.bind_eq_some_iff.mp h
  obtain ⟨index', hindex, h⟩ := Option.bind_eq_some_iff.mp h
  cases h
  exact ⟨e, he, field, hequal, hindex⟩

/-- An equality in a condition is a comparison of the statement. -/
theorem BuiltFrom.comparedTo {e : Expression} {field : Field} {cell : TupleCell}
    (h : BuiltFrom (fun unit => unit ∈ units) e) (hequal : fieldAndValue e = some (field, cell))
    (hknown : ∀ unit ∈ units, unit.Known [table]) :
    field.tableName = table.name ∧ cell ∈ Sql.comparedTo units field := by
  cases h with
  | constant => cases hequal
  | conjunction => cases hequal
  | @comparison comp left right hunit =>
    refine ⟨?_, List.mem_filterMap.mpr ⟨_, hunit, ?_⟩⟩
    · have hfield : left = .attr field ∨ right = .attr field := by
        rcases left with f | v <;> rcases right with f' | v' <;> cases comp <;> cases hequal
        · exact Or.inl rfl
        · exact Or.inr rfl
      obtain ⟨t, ht, hhas⟩ := hknown _ hunit field hfield
      rw [← List.mem_singleton.mp ht]
      exact hhas.1
    · show (match fieldAndValue (.comparison comp left.toExpression right.toExpression) with
        | some (f, cell) => if f = field then some cell else none
        | none => none) = some cell
      rw [hequal]
      exact if_pos rfl

/-- The indexes of the tables list their records, and the constants that a column with an index is
compared with are values of the column. -/
def Indexed (indexes : TableIndexes) (contents : Contents) (units : List FilterUnit)
    (table : TableSchema) : Prop :=
  ∀ column index, indexes table.name column = some index → ∃ values height C,
    IndexLists index column (contents table.name) (comparedTo units ⟨table.name, column⟩) values
      height C

/-- The index that a scan uses lists the records of the table, and the constant is a value of the
column. -/
theorem Indexed.found {index : ColumnIndex} {cell : TupleCell}
    (h : Indexed indexes contents units table) (hknown : ∀ unit ∈ units, unit.Known [table])
    (hbuilt : ∀ e ∈ predicates, BuiltFrom (fun unit => unit ∈ units) e)
    (hfind : findIndex indexes table predicates = some (index, cell)) :
    ∃ e ∈ predicates, ∃ field values height C, ∃ v ∈ values,
      fieldAndValue e = some (field, keyCell index.type v) ∧ cell = keyCell index.type v ∧
      contents table.name ≠ [] ∧
      IndexLists index field.fieldName (contents table.name) (comparedTo units field) values
        height C := by
  obtain ⟨e, he, field, hequal, hindex⟩ := findIndex_eq_some hfind
  obtain ⟨htable, hmem⟩ := (hbuilt e he).comparedTo hequal hknown
  obtain ⟨values, height, C, hlists⟩ := h _ _ hindex
  have hfield : (⟨table.name, field.fieldName⟩ : Field) = field := by rw [← htable]
  rw [hfield] at hlists
  obtain ⟨v, hv, rfl⟩ := hlists.constants cell hmem
  exact ⟨e, he, field, values, height, C, v, hv, hequal, rfl,
    hlists.nonempty (List.ne_nil_of_mem hmem), hlists⟩

/-- Operators can be made with indexes where they can be made without them. By induction on the
plan. -/
theorem exists_createIndexedPlan {plan : LogicalOperator} {oper : PhysicalOperator} (depth : ℕ)
    (hindexed : Indexed indexes contents units table)
    (hknown : ∀ unit ∈ units, unit.Known [table])
    (hfrom : PlanFrom (fun unit => unit ∈ units) (fun t => t = table) plan)
    (hplan : createPlan contents plan = some oper) :
    ∃ oper', createIndexedPlan depth indexes contents plan = some oper' := by
  induction plan using createPlan.induct generalizing oper with
  | case1 t predicates expressions children =>
    rw [createIndexedPlan]
    cases hfrom with
    | mk hscan _ _ =>
      obtain ⟨rfl, hbuilt⟩ := hscan t predicates rfl
      cases hfind : findIndex indexes t predicates with
      | none => exact ⟨_, rfl⟩
      | some found =>
        obtain ⟨index, cell⟩ := found
        obtain ⟨e, he, field, values, height, C, v, hv, -, rfl, -⟩ :=
          hindexed.found hknown hbuilt hfind
        simp only [literalKey_keyCell]
        exact ⟨_, rfl⟩
  | case2 e child ih =>
    obtain ⟨childOper, hchild, -⟩ := Option.map_eq_some_iff.mp hplan
    cases hfrom with
    | mk _ _ hchildren =>
      obtain ⟨child', hchild'⟩ := ih (hchildren _ List.mem_cons_self) hchild
      rw [createIndexedPlan, hchild']
      exact ⟨_, rfl⟩
  | case3 fields expressions => exact ⟨_, rfl⟩
  | case4 fields expressions child children ih =>
    obtain ⟨childOper, hchild, -⟩ := Option.map_eq_some_iff.mp hplan
    cases hfrom with
    | mk _ _ hchildren =>
      obtain ⟨child', hchild'⟩ := ih (hchildren _ List.mem_cons_self) hchild
      rw [createIndexedPlan, hchild']
      exact ⟨_, rfl⟩
  | case5 expressions left right ihl ihr =>
    obtain ⟨leftOper, hleft, hbind⟩ := Option.bind_eq_some_iff.mp hplan
    obtain ⟨rightOper, hright, -⟩ := Option.map_eq_some_iff.mp hbind
    cases hfrom with
    | mk _ _ hchildren =>
      obtain ⟨left', hleft'⟩ := ihl (hchildren _ (by simp)) hleft
      obtain ⟨right', hright'⟩ := ihr (hchildren _ (by simp)) hright
      rw [createIndexedPlan, hleft', hright']
      exact ⟨_, rfl⟩
  | case6 plan h1 h2 h3 h4 h5 =>
    rw [createPlan.eq_6 _ _ h1 h2 h3 h4 h5] at hplan
    cases hplan

/-- The operators of a plan over one table hand up the rows of the plan, in some order. By induction
on the plan. -/
theorem createIndexedPlan_scans {plan : LogicalOperator} {tuples : List Tuple}
    (hindexed : Indexed indexes contents units table)
    (hknown : ∀ unit ∈ units, unit.Known [table])
    (hfrom : PlanFrom (fun unit => unit ∈ units) (fun t => t = table) plan)
    (hrows : plan.rows contents = .ok tuples) :
    ∃ n, ∀ depth ≥ n, ∀ oper, createIndexedPlan depth indexes contents plan = some oper →
      ∃ tuples', oper.Scans tuples' ∧ tuples'.Perm tuples := by
  induction plan using createPlan.induct generalizing tuples with
  | case1 t predicates expressions children =>
    cases hfrom with
    | mk hscan _ _ =>
      obtain ⟨rfl, hbuilt⟩ := hscan t predicates rfl
      cases hfind : findIndex indexes t predicates with
      | none =>
        refine ⟨0, fun depth _ oper hplan => ⟨tuples, ?_, .refl _⟩⟩
        rw [createIndexedPlan, hfind] at hplan
        cases hplan
        exact tableScan_scans hrows
      | some found =>
        obtain ⟨index, cell⟩ := found
        obtain ⟨e, he, field, values, height, C, v, hv, hequal, rfl, hne, hlists⟩ :=
          hindexed.found hknown hbuilt hfind
        refine ⟨height + C.entries.length + 1, fun depth hdepth oper hplan => ?_⟩
        rw [createIndexedPlan, hfind] at hplan
        simp only [literalKey_keyCell, Option.map_some, Option.some.injEq] at hplan
        subst hplan
        exact indexScan_scans hlists hv hne (by omega) (by omega) he hequal hrows
  | case2 e child ih =>
    obtain ⟨childTuples, hchildRows, hkept⟩ := bind_inv hrows
    cases hfrom with
    | mk _ _ hchildren =>
      obtain ⟨n, hn⟩ := ih (hchildren _ List.mem_cons_self) hchildRows
      refine ⟨n, fun depth hdepth oper hplan => ?_⟩
      obtain ⟨childOper, hchild, rfl⟩ := Option.map_eq_some_iff.mp hplan
      obtain ⟨childTuples', hscans, hperm⟩ := hn depth hdepth childOper hchild
      obtain ⟨kept', hkept', hperm'⟩ := filterRows_perm hkept hperm
      exact ⟨kept', predicateOper_scans hscans hkept', hperm'⟩
  | case3 fields expressions =>
    cases hrows
    refine ⟨0, fun depth _ oper hplan => ⟨[], ?_, .refl _⟩⟩
    cases hplan
    exact projectNothing_scans
  | case4 fields expressions child children ih =>
    obtain ⟨childTuples, hchildRows, hmap⟩ := bind_inv hrows
    cases hmap
    cases hfrom with
    | mk _ _ hchildren =>
      obtain ⟨n, hn⟩ := ih (hchildren _ List.mem_cons_self) hchildRows
      refine ⟨n, fun depth hdepth oper hplan => ?_⟩
      obtain ⟨childOper, hchild, rfl⟩ := Option.map_eq_some_iff.mp hplan
      obtain ⟨childTuples', hscans, hperm⟩ := hn depth hdepth childOper hchild
      exact ⟨_, project_scans hscans, hperm.map _⟩
  | case5 expressions left right ihl ihr =>
    obtain ⟨lefts, hleftRows, hjoin⟩ := bind_inv hrows
    obtain ⟨rights, hrightRows, rfl⟩ := joinRows_inv hjoin
    cases hfrom with
    | mk _ _ hchildren =>
      obtain ⟨n, hn⟩ := ihl (hchildren _ (by simp)) hleftRows
      have hright : ∃ m, ∀ depth ≥ m, ∀ oper,
          createIndexedPlan depth indexes contents right = some oper →
            ∃ rights', (lefts ≠ [] → oper.Scans rights') ∧ rights'.Perm rights := by
        by_cases hnil : lefts = []
        · exact ⟨0, fun _ _ _ _ => ⟨rights, fun hne => absurd hnil hne, .refl _⟩⟩
        · obtain ⟨m, hm⟩ := ihr (hchildren _ (by simp)) (hrightRows hnil)
          refine ⟨m, fun depth hdepth oper hplan => ?_⟩
          obtain ⟨rights', hscans, hperm⟩ := hm depth hdepth oper hplan
          exact ⟨rights', fun _ => hscans, hperm⟩
      obtain ⟨m, hm⟩ := hright
      refine ⟨n + m, fun depth hdepth oper hplan => ?_⟩
      obtain ⟨leftOper, hleft, hbind⟩ := Option.bind_eq_some_iff.mp hplan
      obtain ⟨rightOper, hright, rfl⟩ := Option.map_eq_some_iff.mp hbind
      obtain ⟨lefts', hscansL, hpermL⟩ := hn depth (by omega) leftOper hleft
      obtain ⟨rights', hscansR, hpermR⟩ := hm depth (by omega) rightOper hright
      refine ⟨_, nestedLoopJoin_scans hscansL fun hne => hscansR fun hnil => hne ?_, ?_⟩
      · exact List.perm_nil.mp (hnil ▸ hpermL)
      · exact (hpermL.flatMap_right _).trans
          (List.Perm.flatMap_left _ fun l _ => hpermR.map _)
  | case6 plan h1 h2 h3 h4 h5 =>
    refine ⟨0, fun depth _ oper hplan => ?_⟩
    rw [createIndexedPlan.eq_6 _ _ _ _ h1 h2 h3 h4 h5] at hplan
    cases hplan

/-- A plan whose scans have no conditions uses no index. By induction on the plan. -/
theorem BareScans.createIndexedPlan {plan : LogicalOperator} (h : BareScans plan) :
    Sql.createIndexedPlan depth indexes contents plan = createPlan contents plan := by
  induction plan using createPlan.induct with
  | case1 table predicates expressions children =>
    cases h with
    | mk hscan _ _ =>
      obtain rfl := hscan table predicates rfl
      rfl
  | case2 e child ih =>
    cases h with
    | mk _ _ hchildren =>
      rw [Sql.createIndexedPlan, createPlan, ih (hchildren _ List.mem_cons_self)]
  | case3 fields expressions => rfl
  | case4 fields expressions child children ih =>
    cases h with
    | mk _ _ hchildren =>
      rw [Sql.createIndexedPlan, createPlan, ih (hchildren _ List.mem_cons_self)]
  | case5 expressions left right ihl ihr =>
    cases h with
    | mk _ _ hchildren =>
      rw [Sql.createIndexedPlan, createPlan, ihl (hchildren _ (by simp)),
        ihr (hchildren _ (by simp))]
  | case6 plan h1 h2 h3 h4 h5 =>
    rw [createPlan.eq_6 _ _ h1 h2 h3 h4 h5,
      Sql.createIndexedPlan.eq_6 _ _ _ _ h1 h2 h3 h4 h5]

end plans

/-! ## Queries -/

/-- **A query over tables with indexes.** A statement is made of a query over tables that are named
once each. If it is over one table, its indexes list the records of the table. Then the client gets
the rows that `query_shown` says, each as often, whatever indexes are used to find them. -/
theorem query_with_indexes {db : Db} {contents : Contents} {indexes : TableIndexes}
    {attr : RelAttr} {attrs : List RelAttr} {relation : String} {relations : List String}
    {conditions : List Condition} {stmt : SelectStmt}
    (hdistinct : (relation :: relations).Nodup)
    (hcreate : SelectStmt.create db (select (selectAttr attr attrs) relation relations
      (conditionList conditions)) = .ok stmt)
    (hindexed : ∀ table, stmt.tables = [table] →
      Indexed indexes contents stmt.filterStmt table) :
    ∃ n, ∀ depth ≥ n, ∃ oper,
      createIndexedPlan depth indexes contents (rewrite (createLogicalPlan (.select stmt))) =
        some oper ∧
      ∃ rows, rows.Perm (((crossProduct (stmt.tables.map (TableSchema.choices contents))).filter
          fun choice => (decisive conditions).all fun c => c.holds choice).map
            (selectCells (attr :: attrs))) ∧
        ∃ m, ∀ fuel ≥ m, writeResult fuel oper = some (.success, rows) := by
  obtain ⟨-, tuples, hrows, hshown⟩ := query_shown contents hdistinct hcreate
  obtain ⟨plain, hplain⟩ := exists_createPlan contents stmt
  by_cases hsingle : ∃ table, stmt.tables = [table]
  · obtain ⟨table, htable⟩ := hsingle
    have hknown : ∀ unit ∈ stmt.filterStmt, unit.Known [table] := fun unit hunit => by
      rw [← htable]
      exact stmt.known unit hunit
    have hfrom := planFrom_rewrite_plan (.select stmt)
    have htables : (fun t => t ∈ (Stmt.select stmt).tables) = fun t => t = table := by
      funext t
      show (t ∈ stmt.tables) = _
      rw [htable, List.mem_singleton]
    rw [htables] at hfrom
    obtain ⟨n, hn⟩ := createIndexedPlan_scans (hindexed table htable) hknown hfrom hrows
    refine ⟨n, fun depth hdepth => ?_⟩
    obtain ⟨oper, hoper⟩ :=
      exists_createIndexedPlan depth (hindexed table htable) hknown hfrom hplain
    obtain ⟨tuples', hscans, hperm⟩ := hn depth hdepth oper hoper
    obtain ⟨rows, hshown', hperm'⟩ := List.perm_comp_forall₂ hperm hshown
    exact ⟨oper, hoper, rows, hperm', writeResult_eq hscans hshown'⟩
  · -- the conditions of a join are not handed to a scan
    have hbare := bareScans_rewrite_plan stmt fun table htable => hsingle ⟨table, htable⟩
    refine ⟨0, fun depth _ => ⟨plain, hbare.createIndexedPlan.trans hplain, _, .refl _,
      writeResult_eq (createPlan_scans hplain hrows) hshown⟩⟩

/-- `select a.x from a where a.x = 2` -/
def indexedStmt : SelectStmt where
  tables := [⟨"a", ["__trx", "x"]⟩]
  queryFields := [⟨"a", "x"⟩]
  filterStmt := [⟨.equalTo, .attr ⟨"a", "x"⟩, .value (.ints 2)⟩]
  tables_ne_nil := List.cons_ne_nil _ _
  known := by
    intro unit hunit field hfield
    rw [List.mem_singleton.mp hunit] at hfield
    rcases hfield with hfield | hfield <;> cases hfield
    decide

/-- An index on the column `x` of `a` in `joinContents`. -/
def onlyIndex (index : ColumnIndex) : TableIndexes := fun table column =>
  if table = "a" ∧ column = "x" then some index else none

/-- The entries of the two records. -/
def twoEntries : SortedSet (IndexKey AttrType.ints.KeyValue) :=
  ((IndexOp.insertEntry ⟨(2 : Int), ⟨1, 1⟩⟩ ⟨1, 1⟩).reference
    ((IndexOp.insertEntry ⟨(1 : Int), ⟨1, 0⟩⟩ ⟨1, 0⟩).reference .empty).2).2

/-- An index into which the two records have been inserted. -/
theorem exists_indexed : ∃ index : ColumnIndex, ∀ table,
    indexedStmt.tables = [table] →
      Indexed (onlyIndex index) joinContents indexedStmt.filterStmt table := by
  have hvalues : AttrType.ints.Comparable [1, 2] := by
    simp [AttrType.Comparable, FitsInt]
  have ho : OrdersKeys (keyComparator AttrType.ints.compare)
      (ValueKey (· ∈ ([1, 2] : List AttrType.ints.KeyValue))) :=
    valueKey_orders fun _ _ hv hw => hvalues.sign hv hw
  have hsize : 6 ≤ (newFileHeader 4 6 4).internalMaxSize ∧ 4 ≤ (newFileHeader 4 6 4).leafMaxSize :=
    by decide
  obtain ⟨s₀, -, h₀⟩ := create_ok (ValueKey (· ∈ ([1, 2] : List AttrType.ints.KeyValue))) hsize.1 hsize.2
    default
  obtain ⟨header₁, s₁, -, h₁, -⟩ := op_ok ho 2 (.insertEntry ⟨(1 : Int), ⟨1, 0⟩⟩ ⟨1, 0⟩) h₀
    ⟨List.mem_cons_self, by decide⟩ (by decide)
  obtain ⟨header₂, s₂, -, h₂, -⟩ := op_ok ho 2 (.insertEntry ⟨(2 : Int), ⟨1, 1⟩⟩ ⟨1, 1⟩) h₁
    ⟨by decide, by decide⟩ (by decide)
  refine ⟨⟨.ints, header₂, s₂⟩, ?_⟩
  rintro table htable column index hindex
  cases htable
  obtain ⟨rfl, rfl⟩ : column = "x" ∧ (⟨.ints, header₂, s₂⟩ : ColumnIndex) = index := by
    unfold onlyIndex at hindex
    split_ifs at hindex with hif
    exact ⟨hif.2, Option.some.inj hindex⟩
  have hrecords : joinContents "a" = [joinRecord 0 1, joinRecord 1 2] := rfl
  have hentries : twoEntries.entries =
      [(⟨(1 : Int), ⟨1, 0⟩⟩, ⟨1, 0⟩), (⟨(2 : Int), ⟨1, 1⟩⟩, ⟨1, 1⟩)] := by decide
  refine ⟨[(1 : Int), (2 : Int)], 2, twoEntries, ?_⟩
  rw [hrecords]
  refine ⟨hvalues, h₂, ?_, ?_, by decide, ?_, ?_, by simp⟩
  · intro e
    rw [hentries]
    simp only [List.mem_cons, List.not_mem_nil, or_false, exists_eq_or_imp, exists_eq_left]
    constructor
    · rintro (rfl | rfl)
      · exact Or.inl ⟨rfl, rfl, rfl⟩
      · exact Or.inr ⟨rfl, rfl, rfl⟩
    · obtain ⟨⟨v, r⟩, q⟩ := e
      rintro (⟨hdata, rfl, rfl⟩ | ⟨hdata, rfl, rfl⟩)
      · cases hdata
        exact Or.inl rfl
      · cases hdata
        exact Or.inr rfl
  · intro record hrecord
    simp only [List.mem_cons, List.not_mem_nil, or_false] at hrecord
    rcases hrecord with rfl | rfl
    · exact ⟨(1 : Int), List.mem_cons_self, rfl⟩
    · exact ⟨(2 : Int), List.mem_cons_of_mem _ List.mem_cons_self, rfl⟩
  · intro record hrecord
    simp only [List.mem_cons, List.not_mem_nil, or_false] at hrecord
    rcases hrecord with rfl | rfl <;> decide
  · intro cell hcell
    obtain rfl := List.mem_singleton.mp hcell
    exact ⟨(2 : Int), List.mem_cons_of_mem _ List.mem_cons_self, rfl⟩

/-- The row is found through the index. -/
theorem indexed_query_row : ∃ index : ColumnIndex, ∃ n, ∀ depth ≥ n, ∃ oper,
    createIndexedPlan depth (onlyIndex index) joinContents
      (rewrite (createLogicalPlan (.select indexedStmt))) = some oper ∧
    ∃ rows, rows.Perm [[.ints 2]] ∧ ∃ m, ∀ fuel ≥ m, writeResult fuel oper =
      some (.success, rows) := by
  obtain ⟨index, hindex⟩ := exists_indexed
  exact ⟨index, @query_with_indexes joinDb joinContents (onlyIndex index) ⟨"a", "x"⟩ [] "a" []
    [⟨.attr ⟨"a", "x"⟩, .equalTo, .value (.ints 2)⟩] indexedStmt (by decide) rfl hindex⟩

/-- The scanner of an index without entries cannot be opened, and with it the operator. -/
theorem openScan_empty {index : ColumnIndex} {column : String} {height depth : ℕ}
    {values : List index.type.KeyValue} {C : SortedSet (IndexKey index.type.KeyValue)}
    {v : index.type.KeyValue} (h : IndexLists index column [] [] values height C) (hv : v ∈ values)
    (hdepth : height ≤ depth) (hlength : C.entries.length < depth) (table : TableSchema)
    (predicates : List Expression) :
    ∀ fuel, writeResult fuel (indexScanOper depth index (index.type.userKey v) [] table
      predicates) = some (.internal, []) := by
  intro fuel
  obtain ⟨-, hopen⟩ := (h.range hv hdepth hlength).resolve_right fun hne => hne.1 rfl
  have hinternal : (indexScanOper depth index (index.type.userKey v) [] table predicates).openOper
      (indexScanOper depth index (index.type.userKey v) [] table predicates).init =
        (.internal, (⟨none, none⟩ : IndexScanState)) := by
    simp only [indexScanOper, hopen]
  simp [writeResult, hinternal]

end Miniob.Sql
