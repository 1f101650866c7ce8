import Miniob.Storage.Common.Consistent
import Miniob.Storage.Common.CreateIndex
import Miniob.Storage.Common.Redo
import Miniob.Storage.Record.FileScan

/-!
# Indexes and the calls that change a table

Every call on a table changes its records and its indexes. After a crash the pages of the data file
may count records twice and the file header may be an old one, so that nothing is assumed here about
the data file.

* `RecordFile.insertRecord_rows`: a successful insertion fills an empty slot, and loses the records
  of the page that it initialises.
* `Table.IndexesMatch`: every index has the entries of the records and no others.
* `IndexesMatch.insertRecord`, `IndexesMatch.deleteRecord`, `IndexesMatch.endOperations`,
  `IndexesMatch.createIndex`: the calls keep this.
* `Table.keys`: what the indexes are made on, which no call changes.
* `redoAll_rows`: the redo of a log changes the records, and no index.
-/

namespace Miniob.Storage.Record

open Miniob.Common

variable {R : Type} {file file' : RecordFile R} {capacity : ℕ} {rid : RID} {data : R}

namespace RecordFile

/-! ## The data file -/

/-- The page that `free_pages_` offers is a page of the file. -/
theorem findFreePage_some {ps rest : List ℕ} {p : ℕ}
    (h : file.findFreePage ps = (.ok (some p), rest)) : 0 < p ∧ p < file.length := by
  induction ps with
  | nil => cases h
  | cons q ps ih =>
    unfold findFreePage getThisPage at h
    by_cases hin : (0 : Int) < q ∧ (q : Int) < file.length
    · rw [if_pos hin] at h
      by_cases hfull : (file.page q).isFull
      · simp only [Int.toNat_natCast, if_pos hfull] at h
        exact ih h
      · simp only [Int.toNat_natCast, if_neg hfull] at h
        cases h
        omega
    · rw [if_neg hin] at h
      cases h

/-- The page of the next record is a page of the file. -/
theorem choosePage_page [Inhabited R] (hcount : 0 < file.header.pageCount) {p : ℕ}
    (h : file.choosePage capacity = (.ok p, file')) : 0 < p ∧ p < file'.length := by
  unfold choosePage at h
  rcases hfound : file.findFreePage file.freePages with ⟨found, rest⟩
  rw [hfound] at h
  cases found with
  | error rc => cases h
  | ok found =>
    cases found with
    | some q =>
      cases h
      have hin := findFreePage_some hfound
      exact hin
    | none =>
      unfold allocatePage at h
      dsimp only at h
      split at h
      · rename_i q hfree
        unfold getThisPage at h
        by_cases hin : (0 : Int) < q ∧ (q : Int) < file.length
        · simp only [if_pos hin] at h
          cases h
          exact ⟨by omega, by simp only [addFreePage, setPage]; omega⟩
        · simp only [if_neg hin] at h
          cases h
      · split at h
        · cases h
        · cases h
          exact ⟨hcount, by simp only [addFreePage, setPage]; omega⟩

/-- A successful insertion fills an empty slot of the page that is chosen. -/
theorem insertRecord_rows [Inhabited R] (hcount : 0 < file.header.pageCount)
    (h : file.insertRecord capacity data = some (.ok rid, file')) :
    (∃ p slot : ℕ, rid = slotRid p slot) ∧ (file.choosePage capacity).2.record rid = none ∧
      file'.record = Function.update (file.choosePage capacity).2.record rid (some data) := by
  unfold insertRecord at h
  rcases hchoose : file.choosePage capacity with ⟨found, chosen⟩
  rw [hchoose] at h
  cases found with
  | error rc => cases h
  | ok p =>
    obtain ⟨hp, hlt⟩ := choosePage_page hcount hchoose
    obtain ⟨inserted, hins, heq⟩ := Option.map_eq_some_iff.mp h
    unfold RecordPage.insertRecord at hins
    split at hins
    · cases hins
      cases heq
    · obtain ⟨slot, hnext, rfl⟩ := Option.map_eq_some_iff.mp hins
      cases heq
      rw [nextUnsettedBit, nextBit_eq (Or.inl rfl), List.find?_range_eq_some] at hnext
      have hslot : slot < (chosen.page p).recordCapacity := List.mem_range.mp hnext.2.1
      have hbit : (chosen.page p).bitmap slot = false := (of_decide_eq_true hnext.1).2
      refine ⟨⟨p, slot, rfl⟩, ?_, record_setPage_fill hp hlt hslot data⟩
      show chosen.record (slotRid p slot) = none
      rw [record_slotRid hp hlt, RecordPage.record_natCast, if_neg]
      simp [RecordPage.used, hbit]

end RecordFile

end Miniob.Storage.Record

namespace Miniob.Storage.Common

open Miniob.Storage.Index Miniob.Storage.Record Miniob.Storage.Transaction

variable {V A : Type} [LinearOrder A]

namespace Table

variable {t t' : Table V A} {rid : RID} {data : RecordData V}

/-- Every index has the entries of the records, one for each, and no others. -/
def IndexesMatch (t : Table V A) : Prop := ∀ index ∈ t.indexes, index.Matches t.record

/-! ## Changing a record -/

theorem IndexesMatch.mapEntries {f : TableIndex V A → TableIndex V A}
    {records : RID → Option (RecordData V)} (h : t.IndexesMatch)
    (hf : ∀ index ∈ t.indexes, index.Matches t.record → (f index).Matches records)
    {file : RecordFile (RecordData V)} (hfile : file.record = records) (log : List (LogRecord V)) :
    IndexesMatch { t with records := file, indexes := t.indexes.map f, log := log } := by
  intro index hmem
  obtain ⟨index₀, hmem₀, rfl⟩ := List.mem_map.mp hmem
  show TableIndex.Matches _ file.record
  rw [hfile]
  exact hf index₀ hmem₀ (h index₀ hmem₀)

/-- The file has a page for a row, and no row is on a page that is initialised for it. The file
header counts itself. -/
structure KeepsRows [Inhabited V] (t : Table V A) : Prop where
  rows : (t.records.choosePage t.recordCapacity).2.record = t.record
  header : 0 < t.records.header.pageCount

instance [Inhabited V] [DecidableEq V] (t : Table V A) : Decidable t.KeepsRows :=
  decidable_of_iff ((t.records.choosePage t.recordCapacity).2.record = t.records.record ∧
      0 < t.records.header.pageCount)
    ⟨fun h => ⟨h.1, h.2⟩, fun h => ⟨h.rows, h.header⟩⟩

/-- The entries of a new row go to all indexes, or the call fails. -/
theorem insertEntries_ok [Inhabited V] {trx trx' : Option Trx} {logRc : RC} {rid' : RID}
    (h : t.insertEntries trx rid data logRc = (.ok rid', t', trx')) :
    rid' = rid ∧ trx' = trx ∧ ∃ indexes, ∃ log : List (LogRecord V),
      insertEntryOfIndexes t.indexes data.values rid = (.success, indexes) ∧
      (∀ r ∈ log, r.redoRid = some rid) ∧
      t' = { t with indexes := indexes, log := t.log ++ log } := by
  unfold insertEntries at h
  split at h
  · rename_i indexes hindexes
    cases trx with
    | none =>
      cases h
      exact ⟨rfl, rfl, indexes, [], hindexes, by simp, by rw [List.append_nil]⟩
    | some x =>
      unfold logInsert at h
      dsimp only at h
      split at h
      · cases h
        refine ⟨rfl, rfl, indexes, [.redoInsert x.trxId rid data], hindexes, fun r hr => ?_, rfl⟩
        rw [List.mem_singleton.mp hr]
        rfl
      · cases h
  · cases h

/-- A successful insertion of a row whose keys the comparators order. -/
theorem IndexesMatch.insertRecord [Inhabited V] (h : t.IndexesMatch) (hkeep : t.KeepsRows)
    (hord : t.OrdersKeys data.values) {trx trx' : Option Trx} {logRc : RC}
    (hins : t.insertRecord trx data logRc = some (.ok rid, t', trx')) :
    t'.IndexesMatch ∧ (∃ p slot : ℕ, rid = slotRid p slot) ∧
      (∀ x' ∈ trx', ∃ x ∈ trx, x.insertRecord rid = (.success, x')) ∧
      ∀ r ∈ t'.log, r ∈ t.log ∨ r.redoRid = some rid := by
  unfold Table.insertRecord at hins
  obtain ⟨⟨inserted, records⟩, hfile, hins⟩ := Option.bind_eq_some_iff.mp hins
  cases inserted with
  | error rc => cases hins
  | ok rid₀ =>
    -- what is left to do is the same with and without a transaction
    obtain ⟨row, x, hvalues, hrows, hx, hentries⟩ : ∃ row x, row.values = data.values ∧
        t.records.insertRecord t.recordCapacity row = some (.ok rid₀, records) ∧
        (∀ x' ∈ x, ∃ x₀ ∈ trx, x₀.insertRecord rid₀ = (.success, x')) ∧
        ({ t with records := records } : Table V A).insertEntries x rid₀ row logRc =
          (.ok rid, t', trx') := by
      cases trx with
      | none => exact ⟨_, none, rfl, hfile, by simp, Option.some.inj hins⟩
      | some x =>
        dsimp only at hins
        split at hins
        · rename_i x' hx'
          refine ⟨x.initTrxInfo data, some x', rfl, hfile, fun y hy => ⟨x, rfl, ?_⟩, Option.some.inj hins⟩
          rw [← Option.some.inj hy]
          exact hx'
        · cases hins
    obtain ⟨rfl, rfl, indexes, log, hindexes, hlog, rfl⟩ := insertEntries_ok hentries
    rw [← hvalues] at hord
    obtain ⟨-, rfl⟩ := hord.indexes hindexes
    obtain ⟨hslot, hnone, hrecord⟩ := RecordFile.insertRecord_rows hkeep.header hrows
    rw [hkeep.rows] at hnone hrecord
    refine ⟨h.mapEntries (fun index hmem hindex => hindex.insertEntry hnone (hord index hmem))
      hrecord _, hslot, hx, fun r hr => ?_⟩
    exact (List.mem_append.mp hr).imp_right (hlog r)

/-- A row that is there is deleted, with its entries. -/
theorem IndexesMatch.deleteRow (h : t.IndexesMatch) (hrid : t.record rid = some data) :
    deleteEntryOfIndexes false t.indexes data.values rid =
        (.success, t.indexes.map fun index => (index.deleteEntry data.values rid).2) ∧
      ∃ records, t.records.deleteRecord rid = (.success, records) ∧ ∀ log,
        IndexesMatch { t with
          records := records
          indexes := t.indexes.map fun index => (index.deleteEntry data.values rid).2
          log := log } := by
  have hentries := deleteEntryOfIndexes_of_lists fun index hmem =>
    (h index hmem).covers rid data hrid
  obtain ⟨p, slot, rfl, hp, hlt, hused, -⟩ := RecordFile.record_eq_some hrid
  rcases deleteRecord_cases t.records p slot with ⟨-, -, -, header, hdel⟩ | ⟨hnone, -⟩
  · refine ⟨hentries, _, hdel, fun log => ?_⟩
    exact h.mapEntries (fun index _ hindex => hindex.deleteEntry hrid)
      (RecordFile.record_setPage_clear hp hlt) log
  · cases hnone.symm.trans hrid

theorem IndexesMatch.deleteRecord (h : t.IndexesMatch) (hrid : t.record rid = some data)
    (counter : BitVec 32) (trx : Option Trx) :
    (t.deleteRecord counter trx rid data .success).2.1.IndexesMatch ∧
      (∀ x' ∈ (t.deleteRecord counter trx rid data .success).2.2.1, ∃ x ∈ trx,
        x' = (x.deleteRecord counter rid).2.1) ∧
      ∀ r ∈ (t.deleteRecord counter trx rid data .success).2.1.log,
        r ∈ t.log ∨ r.redoRid = some rid := by
  obtain ⟨hentries, records, hdel, hmatch⟩ := h.deleteRow hrid
  unfold Table.deleteRecord
  simp only [hentries, hdel]
  cases trx with
  | none => exact ⟨hmatch t.log, by simp, fun r hr => Or.inl hr⟩
  | some x =>
    refine ⟨hmatch _, by simp, fun r hr => (List.mem_append.mp hr).imp_right fun hr => ?_⟩
    rw [List.mem_singleton.mp hr]
    rfl

/-- The transaction field of a row is written. -/
theorem IndexesMatch.setTrxId (h : t.IndexesMatch) (hrid : t.record rid = some data)
    (trxId : BitVec 32) : (t.setTrxId rid data trxId).IndexesMatch := by
  intro index hmem
  show index.Matches (t.records.updateRecord rid (data.setRecordTrxId trxId false)).2.record
  rw [RecordFile.updateRecord_rows hrid]
  exact (h index hmem).update hrid rfl

/-! ## The end of a transaction -/

/-- An operation is committed or rolled back. -/
theorem IndexesMatch.endOperation (h : t.IndexesMatch) (hslot : 0 ≤ rid.slotNum)
    {type : OperationType} {rc : RC}
    (hstep : t.commitOperation (rid, type) = some (rc, t') ∨
      t.rollbackOperation (rid, type) = some (rc, t')) : t'.IndexesMatch ∧ t'.log = t.log := by
  cases hrid : t.record rid with
  | none =>
    rw [endOperation_of_none hslot hrid hstep]
    exact ⟨h, rfl⟩
  | some data =>
    have hget : t.records.getRecord rid = some (.ok data) := RecordFile.getRecord_of_some hrid
    obtain ⟨hentries, records, hdel, hmatch⟩ := h.deleteRow hrid
    -- the row is deleted, or its transaction field is written
    rcases hstep with hstep | hstep <;> cases type <;>
      simp only [commitOperation, commitInsert, commitDelete, rollbackOperation, rollbackInsert,
        rollbackDelete, hget, hentries, hdel, Option.bind_eq_bind, Option.bind_some, Option.pure_def,
        Option.some_inj, Prod.mk.injEq] at hstep <;>
      obtain ⟨-, rfl⟩ := hstep
    · exact ⟨h.setTrxId hrid 0, rfl⟩
    · exact ⟨hmatch t.log, rfl⟩
    · exact ⟨hmatch t.log, rfl⟩
    · exact ⟨h.setTrxId hrid 0, rfl⟩

/-- All operations of a transaction. -/
theorem IndexesMatch.endOperations
    {step : Table V A → RID × OperationType → Option (RC × Table V A)}
    (hstep : step = commitOperation ∨ step = rollbackOperation) (ops : List (RID × OperationType)) :
    ∀ {t t' : Table V A} {rc rc' : RC}, t.IndexesMatch → (∀ op ∈ ops, 0 ≤ op.1.slotNum) →
      Table.endOperations step (rc, t) ops = some (rc', t') →
      t'.IndexesMatch ∧ t'.log = t.log := by
  induction ops with
  | nil =>
    intro t t' rc rc' h _ hrun
    cases hrun
    exact ⟨h, rfl⟩
  | cons op ops ih =>
    intro t t' rc rc' h hslots hrun
    obtain ⟨⟨rc₁, t₁⟩, hone, hrest⟩ := Option.bind_eq_some_iff.mp hrun
    have hone' : t.commitOperation op = some (rc₁, t₁) ∨
        t.rollbackOperation op = some (rc₁, t₁) := by
      rcases hstep with rfl | rfl
      · exact Or.inl hone
      · exact Or.inr hone
    obtain ⟨h₁, hlog⟩ := h.endOperation (hslots op List.mem_cons_self) hone'
    obtain ⟨h', hlog'⟩ := ih h₁ (fun op hop => hslots op (List.mem_cons_of_mem _ hop)) hrest
    exact ⟨h', hlog'.trans hlog⟩

/-! ## Making an index -/

/-- The rows that a transaction sees, in the order of a scan of the data file. -/
def visibleRows (t : Table V A) (trx : Option Trx) : List (RID × RecordData V) :=
  t.records.scan.filter fun r => trx.all fun x => x.isVisible r.2

/-- An index on a column. The checks of the name and the files of the index are left out.
Source: `table.cpp`, `Table::create_index`, `Table::scan_record` -/
def createIndex (t : Table V A) (trx : Option Trx) (column : IndexColumn V A) :
    RC × Table V A :=
  let rows := (t.visibleRows trx).map fun r => (r.1, r.2.values)
  let (rc, tree) := TableIndexes.insertRows column.newIndex rows
  if rc = .success then (.success, { t with indexes := t.indexes ++ [tree] }) else (rc, t)

/-- Rows that are not in the index yet are inserted, if the comparator orders them. By induction on
the rows. -/
theorem insertRows_matches (rows : List (RID × RecordData V)) :
    ∀ {tree : TableIndex V A} {records : RID → Option (RecordData V)}, tree.Matches records →
      tree.Orders (rows.map fun r => tree.field r.2.values) →
      (rows.map Prod.fst).Nodup → (∀ r ∈ rows, records r.1 = none) →
      ∃ tree' records', TableIndexes.insertRows tree (rows.map fun r => (r.1, r.2.values)) =
          (.success, tree') ∧ tree'.Matches records' ∧
        ∀ rid data, records' rid = some data ↔ (rid, data) ∈ rows ∨ records rid = some data := by
  induction rows with
  | nil =>
    intro tree records h _ _ _
    exact ⟨tree, records, rfl, h, fun rid data => by simp⟩
  | cons row rows ih =>
    intro tree records h hord hnodup hnone
    obtain ⟨rid₀, data₀⟩ := row
    rw [List.map_cons, List.nodup_cons] at hnodup
    have hrid₀ : records rid₀ = none := hnone _ List.mem_cons_self
    have hord₀ : tree.Orders [tree.field data₀.values] :=
      hord.mono fun b hb => List.mem_singleton.mp hb ▸ List.mem_cons_self
    have hlacks := h.lacks hrid₀ hord₀
    have hok := TableIndex.insertEntry_of_lacks hlacks
    have hnext : (tree.insertEntry data₀.values rid₀).2.Matches
        (Function.update records rid₀ (some data₀)) := h.insertEntry hrid₀ hord₀
    have hords : (tree.insertEntry data₀.values rid₀).2.Orders (rows.map fun r =>
        (tree.insertEntry data₀.values rid₀).2.field r.2.values) := by
      rw [TableIndex.insertEntry_column hlacks]
      exact (hord.insertEntry hlacks).mono fun b hb => List.mem_cons_of_mem _ hb
    obtain ⟨tree', records', hrun, hmatch, hrecords⟩ := ih hnext hords hnodup.2 fun r hr => by
      rw [Function.update_of_ne, hnone r (List.mem_cons_of_mem _ hr)]
      intro heq
      exact hnodup.1 (List.mem_map.mpr ⟨r, hr, heq⟩)
    refine ⟨tree', records', ?_, hmatch, fun rid data => ?_⟩
    · rw [List.map_cons, TableIndexes.insertRows, hok]
      rw [hok] at hrun
      exact hrun
    · rw [hrecords, List.mem_cons]
      by_cases hrid : rid = rid₀
      · subst hrid
        rw [Function.update_self]
        simp [hrid₀, eq_comm, or_comm]
      · rw [Function.update_of_ne hrid]
        simp [hrid]

/-- The scan reads pages of the file only, and returns every row, and the transaction sees them. -/
structure SeesAll (t : Table V A) (trx : Option Trx) : Prop where
  headerBit : t.records.header.bitmap 0 = true
  pages : ∀ p, p < t.records.header.pageCount → t.records.header.bitmap p = true →
    p < t.records.length
  rows : ∀ rid data, t.record rid = some data → t.records.Listed rid ∧
    rid.pageNum.toNat < t.records.header.pageCount ∧ (trx.all fun x => x.isVisible data) = true

instance (t : Table V A) (trx : Option Trx) : Decidable (t.SeesAll trx) :=
  decidable_of_iff (t.records.header.bitmap 0 = true ∧
      (∀ p, p < t.records.header.pageCount → t.records.header.bitmap p = true →
        p < t.records.length) ∧
      ∀ rid data, t.record rid = some data → t.records.Listed rid ∧
        rid.pageNum.toNat < t.records.header.pageCount ∧ (trx.all fun x => x.isVisible data) = true)
    ⟨fun h => ⟨h.1, h.2.1, h.2.2⟩, fun h => ⟨h.headerBit, h.pages, h.rows⟩⟩

/-- The rows that the transaction sees get their entries. -/
theorem IndexesMatch.createIndex (h : t.IndexesMatch) {trx : Option Trx} (hsees : t.SeesAll trx)
    (column : IndexColumn V A)
    (hord : column.OrdersValues ((t.visibleRows trx).map fun r => column.field r.2.values)) :
    (t.createIndex trx column).2.IndexesMatch ∧ (t.createIndex trx column).2.log = t.log := by
  have hempty : column.newIndex.Matches (fun _ : RID => (none : Option (RecordData V))) :=
    column.newIndex_matches fun _ => rfl
  have hords : column.newIndex.Orders ((t.visibleRows trx).map fun r => column.field r.2.values) :=
    ⟨rfl, hord⟩
  have hnodup : ((t.visibleRows trx).map Prod.fst).Nodup :=
    (RecordFile.nodup_scan hsees.headerBit).sublist (List.filter_sublist.map _)
  obtain ⟨tree, records, hrun, hmatch, hrecords⟩ :=
    insertRows_matches (t.visibleRows trx) hempty hords hnodup fun _ _ => rfl
  have hsame : records = t.record := by
    funext rid
    refine Option.ext fun data => ?_
    rw [hrecords, visibleRows, List.mem_filter,
      RecordFile.mem_scan_iff hsees.headerBit hsees.pages]
    constructor
    · rintro (⟨⟨hrid, -⟩, -⟩ | hnone)
      · exact hrid
      · cases hnone
    · intro hrid
      obtain ⟨hlisted, hlt, hvisible⟩ := hsees.rows rid data hrid
      exact Or.inl ⟨⟨hrid, hlisted, hlt⟩, hvisible⟩
  have hcreate : t.createIndex trx column =
      (.success, { t with indexes := t.indexes ++ [tree] }) := by
    unfold Table.createIndex
    dsimp only
    rw [hrun]
    rfl
  rw [hcreate]
  refine ⟨fun index hmem => ?_, rfl⟩
  rcases List.mem_append.mp hmem with hmem | hmem
  · exact h index hmem
  · rw [List.mem_singleton.mp hmem]
    exact hsame ▸ hmatch

end Table

/-! ## What the indexes are made on -/

namespace TableIndex

/-- The column of an index, and the values that its keys are to have. -/
def keys (index : TableIndex V A) : (V → A) × (A → Bool) := (index.field, index.known)

variable {index : TableIndex V A} {values : V} {rid : RID}

theorem keys_insertEntry : (index.insertEntry values rid).2.keys = index.keys := by
  unfold insertEntry
  split <;> rfl

theorem keys_deleteEntry : (index.deleteEntry values rid).2.keys = index.keys := by
  unfold deleteEntry
  split <;> rfl

/-- An index with the same keys and entries matches the same records. -/
theorem Matches.of_keys {index' : TableIndex V A} {records : RID → Option (RecordData V)}
    (h : index.Matches records) (hkeys : index'.keys = index.keys)
    (hordered : index'.ordered = true) (hentries : index'.entries = index.entries) :
    index'.Matches records := by
  obtain ⟨hfield, hknown⟩ := Prod.mk.inj hkeys
  refine ⟨⟨hordered, fun v hv => ?_⟩, ?_⟩
  · rw [hknown]
    exact h.orders.2 v (hentries ▸ hv)
  · rw [hfield, hentries]
    exact h.entries

end TableIndex

theorem keys_insertEntryOfIndexes (indexes : List (TableIndex V A)) (values : V) (rid : RID) :
    (insertEntryOfIndexes indexes values rid).2.map TableIndex.keys =
      indexes.map TableIndex.keys := by
  induction indexes with
  | nil => rfl
  | cons index indexes ih =>
    unfold insertEntryOfIndexes
    dsimp only
    split
    · rw [List.map_cons, List.map_cons, TableIndex.keys_insertEntry]
    · rw [List.map_cons, List.map_cons, TableIndex.keys_insertEntry, ih]

theorem keys_deleteEntryOfIndexes (errorOnNotExists : Bool) (indexes : List (TableIndex V A))
    (values : V) (rid : RID) :
    (deleteEntryOfIndexes errorOnNotExists indexes values rid).2.map TableIndex.keys =
      indexes.map TableIndex.keys := by
  induction indexes with
  | nil => rfl
  | cons index indexes ih =>
    unfold deleteEntryOfIndexes
    dsimp only
    split
    · rw [List.map_cons, List.map_cons, TableIndex.keys_deleteEntry]
    · cases indexes with
      | nil => exact congrArg (fun k => [k]) TableIndex.keys_deleteEntry
      | cons index' indexes =>
        exact List.cons_eq_cons.mpr ⟨TableIndex.keys_deleteEntry, ih⟩

namespace Table

variable {t t' : Table V A} {rid : RID} {data : RecordData V}

/-- What the indexes are made on. -/
def keys (t : Table V A) : List ((V → A) × (A → Bool)) := t.indexes.map TableIndex.keys

theorem keys_logInsert [Inhabited V] (trx : Option Trx) (logRc : RC) :
    (t.logInsert trx rid data logRc).2.1.keys = t.keys := by
  unfold logInsert
  cases trx <;> rfl

theorem keys_insertEntries [Inhabited V] (trx : Option Trx) (logRc : RC) :
    (t.insertEntries trx rid data logRc).2.1.keys = t.keys := by
  have hinsert := keys_insertEntryOfIndexes t.indexes data.values rid
  unfold insertEntries
  split <;> rename_i heq <;> rw [heq] at hinsert
  · exact (keys_logInsert trx logRc).trans hinsert
  · exact (keys_deleteEntryOfIndexes true _ data.values rid).trans hinsert

theorem keys_insertRecord [Inhabited V] {trx trx' : Option Trx} {logRc : RC} {r : Except RC RID}
    (h : t.insertRecord trx data logRc = some (r, t', trx')) : t'.keys = t.keys := by
  unfold insertRecord at h
  obtain ⟨⟨inserted, records⟩, -, h⟩ := Option.bind_eq_some_iff.mp h
  cases inserted with
  | error rc =>
    cases h
    rfl
  | ok rid =>
    cases trx with
    | none =>
      rw [← show _ = t' from congrArg (fun r => r.2.1) (Option.some.inj h)]
      exact keys_insertEntries none logRc
    | some trx =>
      dsimp only at h
      split at h
      · rw [← show _ = t' from congrArg (fun r => r.2.1) (Option.some.inj h)]
        exact keys_insertEntries _ logRc
      · cases h
        rfl

theorem keys_deleteRecord (counter : BitVec 32) (trx : Option Trx) (logRc : RC) :
    (t.deleteRecord counter trx rid data logRc).2.1.keys = t.keys := by
  have hdelete := keys_deleteEntryOfIndexes false t.indexes data.values rid
  unfold deleteRecord
  split <;> rename_i heq <;> rw [heq] at hdelete
  · dsimp only
    split
    · cases trx <;> exact hdelete
    · exact hdelete
  · exact hdelete

/-- Commit and rollback of an operation. -/
theorem keys_operation {step : Table V A → RID × OperationType → Option (RC × Table V A)}
    (hstep : step = commitOperation ∨ step = rollbackOperation) {op : RID × OperationType} {rc : RC}
    (h : step t op = some (rc, t')) : t'.keys = t.keys := by
  obtain ⟨rid, type⟩ := op
  have hdelete := fun values => keys_deleteEntryOfIndexes false t.indexes values rid
  rcases hstep with rfl | rfl
  · cases type with
    | insert =>
      obtain ⟨got, -, h⟩ := Option.bind_eq_some_iff.mp h
      cases got <;> cases h <;> rfl
    | delete =>
      obtain ⟨got, -, h⟩ := Option.bind_eq_some_iff.mp h
      cases got with
      | error rc =>
        cases h
        rfl
      | ok data =>
        cases h
        exact hdelete _
  · cases type with
    | insert =>
      obtain ⟨got, -, h⟩ := Option.bind_eq_some_iff.mp h
      cases got with
      | error rc =>
        cases h
        rfl
      | ok data =>
        dsimp only at h
        split at h <;> rename_i heq <;> cases h <;>
          exact (congrArg (fun r => r.2.map TableIndex.keys) heq).symm.trans (hdelete _)
    | delete =>
      obtain ⟨got, -, h⟩ := Option.bind_eq_some_iff.mp h
      cases got <;> cases h <;> rfl

theorem keys_endOperations {step : Table V A → RID × OperationType → Option (RC × Table V A)}
    (hstep : step = commitOperation ∨ step = rollbackOperation)
    (ops : List (RID × OperationType)) : ∀ {t : Table V A} {rc rc' : RC},
    endOperations step (rc, t) ops = some (rc', t') → t'.keys = t.keys := by
  induction ops with
  | nil =>
    intro t rc rc' h
    cases h
    rfl
  | cons op ops ih =>
    intro t rc rc' h
    obtain ⟨⟨rc₁, t₁⟩, hop, hrest⟩ := Option.bind_eq_some_iff.mp h
    exact (ih hrest).trans (keys_operation hstep hop)

/-- A new index is the last one. -/
theorem keys_createIndex (trx : Option Trx) (column : IndexColumn V A) :
    t.keys <+: (t.createIndex trx column).2.keys := by
  unfold createIndex
  dsimp only
  split
  · exact ⟨_, (List.map_append).symm⟩
  · exact List.prefix_refl _

end Table

/-! ## Redo -/

/-- The records are what the log says, if none of its records fails. -/
theorem redoAll_rows (log : List (LogRecord V)) : ∀ {file : RecordFile (RecordData V)},
    (∀ r ∈ log, ∃ p slot : ℕ, r.redoRid = some (slotRid p slot)) →
    (redoAll file log).1 = .success →
    (redoAll file log).2.record = log.foldl LogRecord.apply file.record := by
  induction log with
  | nil => exact fun _ _ => rfl
  | cons r log ih =>
    intro file hrids hrc
    obtain ⟨p, slot, hrid⟩ := hrids r List.mem_cons_self
    unfold redoAll at hrc ⊢
    by_cases hok : (redo file r).1 = .success
    · rw [if_pos hok] at hrc ⊢
      rw [ih (fun r' hr' => hrids r' (List.mem_cons_of_mem _ hr')) hrc, List.foldl_cons,
        (redid file hrid).record hok]
    · rw [if_neg hok] at hrc
      exact absurd hrc hok

end Miniob.Storage.Common
