import Miniob.Storage.Record.FileScan
import Miniob.Storage.Record.RecordOps

/-!
# The scanner of a data file

A `RecordFileScanner` holds one record ahead: the record that `next` returns has been fetched by
the call before. Its page stays pinned until the scanner moves on to another page.

* `RecordFileScanner`: the members of the scanner, with `openScan`, `fetchNextRecord` and
  `closeScan`.
* `RecordFileScanner.scanLoop`: a client that calls `next` as long as `has_next` says so, and may
  delete the record that it has just received.

The buffer pool does not fail. Reading through a pointer that is null, and a loop that does not end,
are undefined.
-/

namespace Miniob.Storage.Record

open Miniob.Common Miniob.Storage.DiskBufferPool

variable {R : Type}

/-- The data files, by the number of their buffer pool. -/
abbrev DataFiles (R : Type) := ℕ → PinnedFile R

/-- No call of the buffer pool fails. -/
def Outcomes.allSuccess : Outcomes := ⟨.success, .success, .success⟩

/-- Source: `disk_buffer_pool.h`, `class BufferPoolIterator` -/
structure BufferPoolIterator where
  /-- The pool whose file header has the bitmap. -/
  pool : ℕ
  /-- The size of the bitmap, as it was when the iterator was made. -/
  size : ℕ
  /-- `current_page_num_` -/
  currentPageNum : ℕ

/-- Source: `record_manager.h`, `class RecordPageIterator` -/
structure RecordPageIterator where
  /-- The pool of the page whose bitmap the iterator reads. -/
  pool : ℕ
  /-- `page_num_` -/
  pageNum : ℕ
  /-- The size of the bitmap. -/
  size : ℕ
  /-- `next_slot_num_` -/
  nextSlotNum : Option ℕ

/-- Source: `record_manager.h`, `class RecordFileScanner` -/
structure RecordFileScanner (R : Type) where
  /-- `disk_buffer_pool_` -/
  diskBufferPool : Option ℕ
  /-- `bp_iterator_` -/
  bpIterator : BufferPoolIterator
  /-- `condition_filter_` -/
  conditionFilter : Option (RID × R → Bool)
  /-- The pool and the page that `record_page_handler_` has pinned. -/
  recordPageHandler : Option (ℕ × ℕ)
  /-- `record_page_iterator_`, if it is valid. -/
  recordPageIterator : Option RecordPageIterator
  /-- `next_record_`, if its slot number is not -1. -/
  nextRecord : Option (RID × R)

/-- Source: `record_manager.cpp`, `RecordPageIterator::init` -/
def RecordPageIterator.init (files : DataFiles R) (pool p : ℕ) : RecordPageIterator :=
  let page := (files pool).page p
  ⟨pool, p, page.recordCapacity, nextSettedBit page.bitmap page.recordCapacity 0⟩

/-- The loop over the slots of a page: the first record that is accepted.
Source: `record_manager.cpp`, `RecordFileScanner::fetch_next_record_in_page`,
`RecordPageIterator::next` -/
def RecordPageIterator.fetch (accept : RID × R → Bool) (page : RecordPage R) :
    ℕ → RecordPageIterator → Option (Option (RID × R) × RecordPageIterator)
  | 0, _ => none
  | fuel + 1, it =>
    match it.nextSlotNum with
    | none => some (none, it)
    | some slot =>
      let record := (slotRid it.pageNum slot, page.slots slot)
      let it := { it with nextSlotNum := nextSettedBit page.bitmap it.size (slot + 1) }
      if accept record then some (some record, it) else fetch accept page fuel it

namespace RecordFileScanner

/-- A scanner that has been constructed. -/
def fresh : RecordFileScanner R := ⟨none, ⟨0, 0, 0⟩, none, none, none, none⟩

/-- The filter lets the record through. Without a filter every record passes. -/
def accept (σ : RecordFileScanner R) (record : RID × R) : Bool :=
  match σ.conditionFilter with
  | none => true
  | some filter => filter record

/-- Source: `record_manager.cpp`, `RecordFileScanner::fetch_next_record_in_page` -/
def fetchNextRecordInPage (σ : RecordFileScanner R) (files : DataFiles R) :
    Option (RecordFileScanner R) :=
  σ.recordPageIterator.bind fun it =>
    (it.fetch σ.accept ((files it.pool).page it.pageNum) (it.size + 1)).map fun r =>
      { σ with nextRecord := r.1, recordPageIterator := some r.2 }

/-- Unpin the page. -/
def cleanupHandler (σ : RecordFileScanner R) (files : DataFiles R) : DataFiles R :=
  match σ.recordPageHandler with
  | none => files
  | some (pool, p) => Function.update files pool ((files pool).cleanup .allSuccess p)

/-- Leave the page and fetch another one: the body of the loop over the pages. -/
def openPage (σ : RecordFileScanner R) (files : DataFiles R) (pool p : ℕ) :
    RecordFileScanner R × DataFiles R :=
  let files := σ.cleanupHandler files
  let files := Function.update files pool ((files pool).setPins p ((files pool).pins p + 1))
  ({ σ with
      bpIterator := { σ.bpIterator with currentPageNum := p }
      recordPageHandler := some (pool, p)
      recordPageIterator := some (RecordPageIterator.init files pool p) }, files)

/-- The loop over the pages.
Source: `record_manager.cpp`, `RecordFileScanner::fetch_next_record`; `disk_buffer_pool.cpp`,
`BufferPoolIterator::has_next`, `BufferPoolIterator::next` -/
def fetchPages : ℕ → RecordFileScanner R → DataFiles R →
    Option (RecordFileScanner R × DataFiles R)
  | 0, _, _ => none
  | fuel + 1, σ, files =>
    match nextSettedBit (files σ.bpIterator.pool).header.bitmap σ.bpIterator.size
        (σ.bpIterator.currentPageNum + 1) with
    | none => some ({ σ with nextRecord := none }, files)
    | some p => σ.diskBufferPool.bind fun pool =>
      ((σ.openPage files pool p).1.fetchNextRecordInPage (σ.openPage files pool p).2).bind fun σ' =>
        if σ'.nextRecord.isSome then some (σ', (σ.openPage files pool p).2)
        else fetchPages fuel σ' (σ.openPage files pool p).2

/-- Source: `record_manager.cpp`, `RecordFileScanner::fetch_next_record` -/
def fetchNextRecord (σ : RecordFileScanner R) (files : DataFiles R) :
    Option (RecordFileScanner R × DataFiles R) :=
  match σ.recordPageIterator with
  | none => fetchPages (σ.bpIterator.size + 1) σ files
  | some _ => (σ.fetchNextRecordInPage files).bind fun σ' =>
    if σ'.nextRecord.isSome then some (σ', files)
    else fetchPages (σ'.bpIterator.size + 1) σ' files

/-- The page that is pinned and the iterator over its slots stay.
Source: `record_manager.cpp`, `RecordFileScanner::close_scan` -/
def closeScan (σ : RecordFileScanner R) : RecordFileScanner R :=
  { σ with diskBufferPool := none, conditionFilter := none }

/-- Source: `record_manager.cpp`, `RecordFileScanner::open_scan`; `disk_buffer_pool.cpp`,
`BufferPoolIterator::init` -/
def openScan (σ : RecordFileScanner R) (files : DataFiles R) (pool : ℕ)
    (filter : Option (RID × R → Bool)) : Option (RecordFileScanner R × DataFiles R) :=
  fetchNextRecord { σ.closeScan with
    diskBufferPool := some pool
    bpIterator := ⟨pool, (files pool).header.pageCount, 0⟩
    conditionFilter := filter } files

end RecordFileScanner

/-- The client deletes a record.
Source: `record_manager.cpp`, `RecordFileHandler::delete_record` -/
def DataFiles.delete (files : DataFiles R) (pool : ℕ) (rid : RID) : DataFiles R :=
  Function.update files pool
    ((files pool).deleteRecord .allSuccess rid.pageNum rid.slotNum.toNat).file

/-- A client takes records as long as there are some, and deletes those that it wants to.
Source: `record_manager.cpp`, `RecordFileScanner::has_next`, `RecordFileScanner::next` -/
def RecordFileScanner.scanLoop (pool : ℕ) (deletes : RID × R → Bool) :
    ℕ → RecordFileScanner R → DataFiles R →
    Option (List (RID × R) × RecordFileScanner R × DataFiles R)
  | 0, _, _ => none
  | fuel + 1, σ, files =>
    match σ.nextRecord with
    | none => some ([], σ, files)
    | some record => (σ.fetchNextRecord files).bind fun r =>
      (scanLoop pool deletes fuel r.1
        (if deletes record then DataFiles.delete r.2 pool record.1 else r.2)).map fun rest =>
          (record :: rest.1, rest.2)

end Miniob.Storage.Record
