import Miniob.Storage.Common.Consistent
import Miniob.Storage.Index.Scan
import Miniob.Storage.Record.ScanOnce

/-!
# A table on its files

A table whose records lie on the pages of its data file and whose indexes lie on the pages of their
files, as the operators of a statement that scans it and changes it at the same time see it.

* `PinnedFile.record`: the records of a data file, with what deleting, reading and scanning do to
  them.
* `IndexFile`: an index; `IndexFile.Mirrors`: its entries are those of some records.
* `OpenTable`: the table; `OpenTable.deleteRecord` is `Table::delete_record` without a transaction.
* `deleteRecord_ok`: deleting a record of a table whose indexes have its records.

The buffer pool does not fail here. A page that is given back while it is pinned counts as given
back at once.
-/

namespace Miniob.Storage.Record.PinnedFile

open Miniob.Storage.DiskBufferPool

variable {R : Type}

/-! ## The records of a data file -/

/-- The record in a slot that is in use. -/
def record (file : PinnedFile R) (rid : RID) : Option R :=
  if 0 < rid.pageNum ∧ rid.pageNum < file.header.pageCount then
    (file.page rid.pageNum).record rid.slotNum
  else none

/-- The pages and their number are the same. -/
def SamePages (s s' : PinnedFile R) : Prop :=
  s'.page = s.page ∧ s'.header.pageCount = s.header.pageCount

variable {s s' : PinnedFile R} {o : Outcomes} {p : Int}

theorem SamePages.record (h : SamePages s s') : s'.record = s.record := by
  funext rid
  unfold PinnedFile.record
  rw [h.1, h.2]

theorem SamePages.trans {s'' : PinnedFile R} (h : SamePages s s') (h' : SamePages s' s'') :
    SamePages s s'' := ⟨h'.1.trans h.1, h'.2.trans h.2⟩

theorem samePages_disposePage {rc : RC} : SamePages s (s.disposePage rc p) := by
  refine ⟨disposePage_page, ?_⟩
  unfold disposePage
  split <;> rfl

/-- Unpinning a page keeps the pages, whether it is given back or not. -/
theorem samePages_cleanup : SamePages s (s.cleanup o p) := by
  refine ⟨cleanup_page, ?_⟩
  unfold cleanup disposePage
  split_ifs <;> rfl

/-- A record is in a slot of a page behind the header. -/
theorem record_eq_some {rid : RID} {data : R} : s.record rid = some data ↔
    ∃ p slot : ℕ, rid = slotRid p slot ∧ 0 < p ∧ p < s.header.pageCount ∧
      (s.page p).used slot ∧ data = (s.page p).slots slot := by
  constructor
  · intro h
    unfold PinnedFile.record RecordPage.record at h
    split_ifs at h with hpage hslot
    obtain ⟨p, hp⟩ := Int.eq_ofNat_of_zero_le hpage.1.le
    obtain ⟨slot, hs⟩ := Int.eq_ofNat_of_zero_le hslot.1
    rw [hp] at hpage hslot h
    rw [hs] at hslot h
    refine ⟨p, slot, ?_, by omega, by omega, hslot.2, (Option.some.inj h).symm⟩
    rw [slotRid, ← hp, ← hs]
  · rintro ⟨p, slot, rfl, hpos, hlt, hused, rfl⟩
    unfold PinnedFile.record RecordPage.record slotRid
    rw [if_pos (by dsimp only; omega), if_pos ⟨Int.natCast_nonneg slot, hused⟩]
    rfl

/-- Reading a record. -/
theorem getRecord_of_some {rid : RID} {data : R} (h : s.record rid = some data) :
    (s.getRecord .allSuccess rid.pageNum rid.slotNum.toNat).rc = .success ∧
      (s.getRecord .allSuccess rid.pageNum rid.slotNum.toNat).record = some data ∧
      SamePages s (s.getRecord .allSuccess rid.pageNum rid.slotNum.toNat).file := by
  obtain ⟨p, slot, rfl, -, -, hused, rfl⟩ := record_eq_some.mp h
  have hinit : s.init .allSuccess p = .ok (s.setPins p (s.pins p + 1)) := if_pos (if_neg (by simp))
  have hget : (s.page p).getRecord slot = .ok ((s.page p).slots slot) := by
    rw [RecordPage.getRecord, if_neg (not_le.mpr hused.1), if_neg (not_not.mpr hused.2)]
  have hrun : s.getRecord .allSuccess p slot =
      ⟨.success, some ((s.page p).slots slot),
        (s.setPins p (s.pins p + 1)).cleanup .allSuccess p⟩ := by
    rw [PinnedFile.getRecord, hinit]
    dsimp only
    rw [setPins_page, hget]
  have hsame : SamePages s (s.setPins p (s.pins p + 1)) := ⟨rfl, rfl⟩
  simp only [slotRid, Int.toNat_natCast, hrun, true_and]
  exact hsame.trans samePages_cleanup

/-- Deleting a record takes it out and leaves the others. -/
theorem deleteRecord_of_some {rid : RID} {data : R} (h : s.record rid = some data) :
    (s.deleteRecord .allSuccess rid.pageNum rid.slotNum.toNat).rc = .success ∧
      (s.deleteRecord .allSuccess rid.pageNum rid.slotNum.toNat).file.record =
        Function.update s.record rid none := by
  obtain ⟨p, slot, rfl, hpos, hlt, hused, rfl⟩ := record_eq_some.mp h
  have hinit : s.init .allSuccess p = .ok (s.setPins p (s.pins p + 1)) := if_pos (if_neg (by simp))
  have hdelete : (s.page p).deleteRecord slot = .ok ((s.page p).clear slot) := by
    rw [RecordPage.deleteRecord, if_neg (not_le.mpr hused.1), if_neg (not_not.mpr hused.2)]
  have hrun : ∃ file, s.deleteRecord .allSuccess p slot = ⟨.success, none, file⟩ ∧
      file.page = Function.update s.page p ((s.page p).clear slot) ∧
      file.header.pageCount = s.header.pageCount := by
    rw [PinnedFile.deleteRecord, hinit]
    dsimp only
    rw [setPins_page, hdelete]
    have hclean : SamePages ((s.setPins p (s.pins p + 1)).setPage p ((s.page p).clear slot))
      (((s.setPins p (s.pins p + 1)).setPage p ((s.page p).clear slot)).cleanup .allSuccess p) :=
      samePages_cleanup
    refine ⟨_, rfl, ?_⟩
    show (ite _ _ _ : PinnedFile R).page = _ ∧ (ite _ _ _ : PinnedFile R).header.pageCount = _
    split
    · exact hclean.trans samePages_disposePage
    · exact hclean
  obtain ⟨file, hrun, hpage, hcount⟩ := hrun
  simp only [slotRid, Int.toNat_natCast, hrun, true_and]
  funext rid
  unfold PinnedFile.record
  rw [hcount, hpage]
  by_cases hp : rid.pageNum = p
  · rw [hp, Function.update_self, RecordPage.record_clear]
    by_cases hslot : rid.slotNum = slot
    · have hrid : rid = ⟨p, slot⟩ := by rw [← hp, ← hslot]
      rw [hslot, Function.update_self, ite_self, hrid, Function.update_self]
    · have hrid : rid ≠ ⟨p, slot⟩ := fun heq => hslot (congrArg RID.slotNum heq)
      rw [Function.update_of_ne hslot, Function.update_of_ne hrid, hp]
  · have hrid : rid ≠ ⟨p, slot⟩ := fun heq => hp (congrArg RID.pageNum heq)
    rw [Function.update_of_ne hp, Function.update_of_ne hrid]

end Miniob.Storage.Record.PinnedFile

namespace Miniob.Storage.Record.RecordFileScanner

open Miniob.Common PinnedFile

variable {R : Type} {σ σ' : RecordFileScanner R} {files files' : DataFiles R} {pool : ℕ}

/-! ## A scanner keeps the records -/

theorem samePages_update {q : ℕ} {file : PinnedFile R} (h : SamePages (files q) file) (pool : ℕ) :
    SamePages (files pool) (Function.update files q file pool) := by
  by_cases hq : pool = q
  · subst hq
    rw [Function.update_self]
    exact h
  · rw [Function.update_of_ne hq]
    exact ⟨rfl, rfl⟩

/-- Leaving a page and fetching another one changes pins and the bits of pages at most. -/
theorem samePages_openPage (q p pool : ℕ) :
    SamePages (files pool) ((σ.openPage files q p).2 pool) := by
  have hleave : SamePages (files pool) (σ.cleanupHandler files pool) := by
    unfold cleanupHandler
    cases σ.recordPageHandler with
    | none => exact ⟨rfl, rfl⟩
    | some held => exact samePages_update samePages_cleanup pool
  refine hleave.trans (samePages_update ?_ pool)
  exact ⟨rfl, rfl⟩

/-- By induction on the pages that the loop visits. -/
theorem samePages_fetchPages (fuel : ℕ) : ∀ {σ : RecordFileScanner R} {files : DataFiles R},
    fetchPages fuel σ files = some (σ', files') → SamePages (files pool) (files' pool) := by
  induction fuel with
  | zero => exact fun h => absurd h (by simp [fetchPages])
  | succ fuel ih =>
    intro σ files h
    unfold fetchPages at h
    split at h
    · obtain ⟨-, rfl⟩ := Prod.mk.inj (Option.some.inj h)
      exact ⟨rfl, rfl⟩
    · obtain ⟨q, -, h⟩ := Option.bind_eq_some_iff.mp h
      obtain ⟨σ₁, -, h⟩ := Option.bind_eq_some_iff.mp h
      split at h
      · obtain ⟨-, rfl⟩ := Prod.mk.inj (Option.some.inj h)
        exact samePages_openPage _ _ _
      · exact (samePages_openPage _ _ _).trans (ih h)

/-- Fetching a record changes no page of a data file. -/
theorem samePages_fetchNextRecord (h : σ.fetchNextRecord files = some (σ', files')) :
    SamePages (files pool) (files' pool) := by
  unfold fetchNextRecord at h
  split at h
  · exact samePages_fetchPages _ h
  · obtain ⟨σ₁, -, h⟩ := Option.bind_eq_some_iff.mp h
    split at h
    · obtain ⟨-, rfl⟩ := Prod.mk.inj (Option.some.inj h)
      exact ⟨rfl, rfl⟩
    · exact samePages_fetchPages _ h

end Miniob.Storage.Record.RecordFileScanner

namespace Miniob.Storage.Common

open Miniob.Storage.Index Miniob.Storage.Record Miniob.Storage.Transaction
open Miniob.Storage.BufferPool (FlatPool flat)

/-! ## Indexes -/

/-- An index on a column, on the pages of its file.
Source: `bplus_tree_index.h`, `class BplusTreeIndex`; `bplus_tree.h`, `class BplusTreeHandler` -/
structure IndexFile (V A : Type) where
  /-- The value of the column in a record. -/
  field : V → A
  /-- `key_comparator_` -/
  comparator : IndexKey A → IndexKey A → Int
  /-- `file_header_` -/
  header : IndexFileHeader
  /-- The pages. -/
  pages : FlatPool (IndexPage (IndexKey A))

/-- The key of a record in the index. -/
def IndexFile.key {V A : Type} (index : IndexFile V A) (row : RID × RecordData V) : IndexKey A :=
  ⟨index.field row.2.values, row.1⟩

/-- Source: `bplus_tree_index.cpp`, `BplusTreeIndex::delete_entry` -/
def IndexFile.deleteEntry {V A : Type} [Inhabited A] (fuel : ℕ) (index : IndexFile V A)
    (row : RID × RecordData V) : Option (RC × IndexFile V A) :=
  (exec flat (Index.deleteEntry index.comparator fuel (index.key row)) index.header
    index.pages).map fun r => (r.1.1, { index with header := r.1.2, pages := r.2 })

/-- `error_on_not_exists` is false, so that the loop ends at the first index that fails.
Source: `table.cpp`, `Table::delete_entry_of_indexes` -/
def deleteEntryOfIndexFiles {V A : Type} [Inhabited A] (fuel : ℕ) :
    List (IndexFile V A) → RID × RecordData V → Option (RC × List (IndexFile V A))
  | [], _ => some (.success, [])
  | index :: indexes, row => do
    let (rc, index) ← index.deleteEntry fuel row
    if rc ≠ .success then return (rc, index :: indexes)
    let (rc, indexes) ← deleteEntryOfIndexFiles fuel indexes row
    return (rc, index :: indexes)

/-! ## The table -/

/-- Source: `table.h`, `class Table` -/
structure OpenTable (V A : Type) where
  /-- The data files of all tables. -/
  files : DataFiles (RecordData V)
  /-- `data_buffer_pool_` -/
  pool : ℕ
  /-- `indexes_` -/
  indexes : List (IndexFile V A)

namespace OpenTable

variable {V A : Type}

/-- The records of the table. -/
def record (t : OpenTable V A) : RID → Option (RecordData V) := (t.files t.pool).record

/-- The records that a scan of the data file returns: those on pages whose bit is set. -/
def visible (t : OpenTable V A) : List (RID × RecordData V) :=
  fileRecords (fun _ => true) (t.files t.pool)

/-- Delete a record without a transaction.
Source: `table.cpp`, `Table::delete_record` -/
def deleteRecord [Inhabited A] (fuel : ℕ) (t : OpenTable V A) (row : RID × RecordData V) :
    Option (RC × OpenTable V A) := do
  let (rc, indexes) ← deleteEntryOfIndexFiles fuel t.indexes row
  let t := { t with indexes := indexes }
  if rc ≠ .success then return (rc, t)
  let r := (t.files t.pool).deleteRecord .allSuccess row.1.pageNum row.1.slotNum.toNat
  return (r.rc, { t with files := Function.update t.files t.pool r.file })

end OpenTable

/-! ## Indexes that have the entries of the records -/

variable {V A : Type} [LinearOrder A]

/-- The index is a tree of a height below `height` with the entries of these records and no others,
and its comparator orders their keys and the keys `keys`. -/
def IndexFile.Mirrors (index : IndexFile V A) (keys : List (IndexKey A)) (height : ℕ)
    (records : RID → Option (RecordData V)) : Prop :=
  ∃ (InTree : IndexKey A → Prop) (C : SortedSet (IndexKey A)),
    OrdersKeys index.comparator InTree ∧ (∀ k ∈ keys, InTree k) ∧
    RepresentsSet InTree index.header index.pages height C ∧
    EntriesOf index.field C records

/-- The indexes have the entries of the records. -/
def OpenTable.Consistent (t : OpenTable V A) (height : ℕ) : Prop :=
  ∀ index ∈ t.indexes, index.Mirrors [] height t.record

section deletion

variable [Inhabited A] {index : IndexFile V A} {records : RID → Option (RecordData V)}
  {row : RID × RecordData V} {height fuel : ℕ}

/-- What deleting the entry of a record does to an index. -/
structure EntryDeleted (fuel : ℕ) (index : IndexFile V A) (row : RID × RecordData V)
    (index' : IndexFile V A) : Prop where
  /-- The deletion succeeds. -/
  run : index.deleteEntry fuel row = some (.success, index')
  /-- The column stays. -/
  field : index'.field = index.field
  /-- The comparator stays. -/
  comparator : index'.comparator = index.comparator

/-- Deleting the entry of a record from the tree. -/
theorem IndexFile.deleteEntry_ok {InTree : IndexKey A → Prop} {C : SortedSet (IndexKey A)}
    (ho : OrdersKeys index.comparator InTree)
    (h : RepresentsSet InTree index.header index.pages height C)
    (hmatch : EntriesOf index.field C records)
    (hrow : records row.1 = some row.2) (hfuel : height ≤ fuel) :
    ∃ index', EntryDeleted fuel index row index' ∧
      RepresentsSet InTree index'.header index'.pages height (C.erase (index.key row)) ∧
      EntriesOf index'.field (C.erase (index.key row)) (Function.update records row.1 none) := by
  have hmem : (index.key row, row.1) ∈ C.entries := (hmatch _).mpr ⟨row.1, row.2, hrow, rfl⟩
  have hkey : InTree (index.key row) := by
    rcases h with ⟨-, hC⟩ | ⟨g, hinv, hC, -⟩
    · exact absurd hmem (Set.eq_empty_iff_forall_notMem.mp hC _)
    · obtain ⟨p, hp, hep⟩ := (hC _).mp hmem
      exact (hinv.tree.entry p hp _ hep).1
  rcases Index.deleteEntry_ok ho.keyOrder fuel h hkey hfuel with ⟨hnot, -⟩ |
    ⟨e, he, hpos, header', pages', hexec, hrep, -, -⟩
  · exact absurd rfl (hnot _ hmem)
  · have hset : {f | f ∈ (C.erase (index.key row)).entries} = {f | f ∈ C.entries} \ {e} := by
      ext f
      simp only [SortedSet.mem_erase, Set.mem_ofPred_eq, Set.mem_sdiff, Set.mem_singleton_iff]
      refine and_congr_right fun hf => not_congr ⟨fun heq => ?_, fun heq => ?_⟩
      · exact SortedSet.eq_of_key_eq hf he (heq.trans (place_inj.mp hpos).symm)
      · rw [heq]
        exact place_inj.mp hpos
    refine ⟨{ index with header := header', pages := pages' }, ⟨?_, rfl, rfl⟩, ?_, ?_⟩
    · rw [IndexFile.deleteEntry, hexec]
      rfl
    · rw [RepresentsSet, hset]
      exact hrep
    · exact hmatch.erase hrow fun e => SortedSet.mem_erase

theorem IndexFile.Mirrors.deleteEntry {keys : List (IndexKey A)}
    (h : index.Mirrors keys height records) (hrow : records row.1 = some row.2)
    (hfuel : height ≤ fuel) :
    ∃ index', EntryDeleted fuel index row index' ∧
      index'.Mirrors keys height (Function.update records row.1 none) := by
  obtain ⟨InTree, C, ho, hkeys, hrep, hmatch⟩ := h
  obtain ⟨index', hdeleted, hrep', hmatch'⟩ :=
    IndexFile.deleteEntry_ok ho hrep hmatch hrow hfuel
  exact ⟨index', hdeleted, InTree, _, hdeleted.comparator ▸ ho, hkeys, hrep', hmatch'⟩

/-- All entries of a record are deleted. By induction on the indexes. -/
theorem deleteEntryOfIndexFiles_ok (hrow : records row.1 = some row.2) (hfuel : height ≤ fuel) :
    ∀ {indexes : List (IndexFile V A)}, (∀ index ∈ indexes, index.Mirrors [] height records) →
      ∃ indexes', deleteEntryOfIndexFiles fuel indexes row = some (.success, indexes') ∧
        List.Forall₂ (fun index index' => EntryDeleted fuel index row index' ∧
          index'.Mirrors [] height (Function.update records row.1 none)) indexes indexes'
  | [], _ => ⟨[], rfl, .nil⟩
  | index :: indexes, h => by
    obtain ⟨index', hdeleted, hmirrors⟩ := (h index List.mem_cons_self).deleteEntry hrow hfuel
    obtain ⟨indexes', hrun, hrest⟩ := deleteEntryOfIndexFiles_ok hrow hfuel
      fun i hi => h i (List.mem_cons_of_mem _ hi)
    refine ⟨index' :: indexes', ?_, .cons ⟨hdeleted, hmirrors⟩ hrest⟩
    rw [deleteEntryOfIndexFiles, hdeleted.run]
    simp [hrun]

/-- What deleting a record does to a table. -/
structure RowDeleted (fuel : ℕ) (t : OpenTable V A) (row : RID × RecordData V) (height : ℕ)
    (t' : OpenTable V A) : Prop where
  /-- The deletion succeeds. -/
  run : t.deleteRecord fuel row = some (.success, t')
  /-- The data file stays. -/
  pool : t'.pool = t.pool
  /-- What happens to the data file. -/
  files : t'.files = DataFiles.delete t.files t.pool row.1
  /-- The record is gone. -/
  record : t'.record = Function.update t.record row.1 none
  /-- The indexes have the entries of the records that are left. -/
  consistent : t'.Consistent height
  /-- The entries of the record are deleted. -/
  indexes : List.Forall₂ (fun index index' => EntryDeleted fuel index row index')
    t.indexes t'.indexes

/-- Deleting a record of a table. -/
theorem OpenTable.deleteRecord_ok {t : OpenTable V A} (hc : t.Consistent height)
    (hrow : t.record row.1 = some row.2) (hfuel : height ≤ fuel) :
    ∃ t', RowDeleted fuel t row height t' := by
  obtain ⟨indexes', hrun, hindexes⟩ := deleteEntryOfIndexFiles_ok hrow hfuel hc
  obtain ⟨hrc, hrecord⟩ := PinnedFile.deleteRecord_of_some hrow
  have hrecord' : (⟨DataFiles.delete t.files t.pool row.1, t.pool, indexes'⟩ :
      OpenTable V A).record = Function.update t.record row.1 none := by
    unfold OpenTable.record DataFiles.delete
    dsimp only
    rw [Function.update_self]
    exact hrecord
  refine ⟨⟨DataFiles.delete t.files t.pool row.1, t.pool, indexes'⟩, ?_, rfl, rfl, hrecord', ?_, ?_⟩
  · rw [OpenTable.deleteRecord, hrun]
    simp [hrc, DataFiles.delete]
  · intro index' hmem
    rw [hrecord']
    obtain ⟨n, hlt, rfl⟩ := List.mem_iff_getElem.mp hmem
    exact (hindexes.get (hindexes.length_eq ▸ hlt) hlt).2
  · exact hindexes.imp fun _ _ h => h.1

end deletion

end Miniob.Storage.Common
