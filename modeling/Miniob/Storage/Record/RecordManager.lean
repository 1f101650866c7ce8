import Miniob.Common.Bitmap
import Miniob.Storage.BufferPool.DiskBufferPool
import Mathlib.Data.Stream.Init

/-!
# The record manager

A data file holds records of one size. Each page has a bitmap of its slots; the file header has a
bitmap of the pages, and `free_pages_` lists pages that may have an empty slot.

* `RecordPage`: one page, as `RecordPageHandler` changes it.
* `RecordFile`: `insertRecord`, `updateRecord`, `deleteRecord`, `getRecord` and
  `recoverInsertRecord` of `RecordFileHandler`, over the calls of the buffer pool that they make.
* `RecordFile.scan`: what a `RecordFileScanner` returns.

The buffer pool is the array of pages that it refines, and reading a page fails only behind the end
of the file. Bytes of a record are a type of their own; the layout of a page is not part of this
model. Page 0 has the file header and no records, and no caller uses a negative slot number.

`free_pages_` is a hash set, whose order the language leaves open: each insertion may order the
pages anew (`SetOrder`), and the file has a stream of such orders.
-/

namespace Miniob.Storage.Record

open Miniob.Common Miniob.Storage.DiskBufferPool

variable {R : Type}

/-! ## Pages -/

/-- Source: `record_manager.h`, `struct PageHeader`, with the bitmap and the slots behind it. -/
@[ext] structure RecordPage (R : Type) where
  /-- `record_num` -/
  recordNum : Int
  /-- `record_capacity` -/
  recordCapacity : ℕ
  /-- The bitmap of the slots. -/
  bitmap : Bits
  /-- The data of the slots. -/
  slots : ℕ → R

namespace RecordPage

/-- Source: `record_manager.cpp`, `RecordPageHandler::is_full` -/
def isFull (page : RecordPage R) : Prop := page.recordCapacity ≤ page.recordNum

instance (page : RecordPage R) : Decidable page.isFull :=
  inferInstanceAs (Decidable (_ ≤ _))

/-- A page of zero bytes. -/
def zero [Inhabited R] : RecordPage R := ⟨0, 0, fun _ => false, fun _ => default⟩

/-- Source: `record_manager.cpp`, `RecordPageHandler::init_empty_page` -/
def initEmptyPage (page : RecordPage R) (capacity : ℕ) : RecordPage R :=
  { page with recordNum := 0, recordCapacity := capacity, bitmap := fun _ => false }

/-- The slot is in use. -/
def used (page : RecordPage R) (slot : ℕ) : Prop :=
  slot < page.recordCapacity ∧ page.bitmap slot = true

instance (page : RecordPage R) (slot : ℕ) : Decidable (page.used slot) :=
  inferInstanceAs (Decidable (_ ∧ _))

/-- The record in a slot that is in use. -/
def record (page : RecordPage R) (slot : Int) : Option R :=
  if 0 ≤ slot ∧ page.used slot.toNat then some (page.slots slot.toNat) else none

/-- Fill a slot. -/
def fill (page : RecordPage R) (slot : ℕ) (data : R) : RecordPage R :=
  { page with
    recordNum := page.recordNum + 1
    bitmap := Function.update page.bitmap slot true
    slots := Function.update page.slots slot data }

/-- Writing to a slot that no bit of the bitmap stands for is undefined.
Source: `record_manager.cpp`, `RecordPageHandler::insert_record` -/
def insertRecord (page : RecordPage R) (data : R) : Option (Except RC (ℕ × RecordPage R)) :=
  if page.recordNum = page.recordCapacity then some (.error .recordNomem)
  else (nextUnsettedBit page.bitmap page.recordCapacity 0).map fun index =>
    .ok (index, page.fill index data)

/-- Source: `record_manager.cpp`, `RecordPageHandler::recover_insert_record` -/
def recoverInsertRecord (page : RecordPage R) (data : R) (slot : ℕ) :
    Except RC (RecordPage R) :=
  if page.recordNum = page.recordCapacity then .error .recordNomem
  else if page.recordCapacity ≤ slot then .error .recordNomem
  else .ok (page.fill slot data)

/-- Source: `record_manager.cpp`, `RecordPageHandler::update_record` -/
def updateRecord (page : RecordPage R) (slot : ℕ) (data : R) : Except RC (RecordPage R) :=
  if page.recordCapacity ≤ slot then .error .invalidArgument
  else if ¬ page.bitmap slot then .error .recordRecordNotExist
  else .ok { page with slots := Function.update page.slots slot data }

/-- Empty a slot. -/
def clear (page : RecordPage R) (slot : ℕ) : RecordPage R :=
  { page with
    recordNum := page.recordNum - 1
    bitmap := Function.update page.bitmap slot false }

/-- Source: `record_manager.cpp`, `RecordPageHandler::delete_record` -/
def deleteRecord (page : RecordPage R) (slot : ℕ) : Except RC (RecordPage R) :=
  if page.recordCapacity ≤ slot then .error .invalidArgument
  else if ¬ page.bitmap slot then .error .recordRecordNotExist
  else .ok (page.clear slot)

/-- Source: `record_manager.cpp`, `RecordPageHandler::get_record` -/
def getRecord (page : RecordPage R) (slot : ℕ) : Except RC R :=
  if page.recordCapacity ≤ slot then .error .recordInvalidrid
  else if ¬ page.bitmap slot then .error .recordRecordNotExist
  else .ok (page.slots slot)

/-- The slots from a position on that a `RecordPageIterator` visits. -/
def slotsFrom (page : RecordPage R) : ℕ → Option ℕ → List ℕ
  | 0, _ => []
  | _, none => []
  | fuel + 1, some slot =>
    slot :: page.slotsFrom fuel (nextSettedBit page.bitmap page.recordCapacity (slot + 1))

/-- The slots of a page in the order of a scan.
Source: `record_manager.cpp`, `RecordPageIterator::init`, `RecordPageIterator::next` -/
def scanSlots (page : RecordPage R) : List ℕ :=
  page.slotsFrom (page.recordCapacity + 1) (nextSettedBit page.bitmap page.recordCapacity 0)

end RecordPage

/-! ## Files -/

/-- How a hash set lists its elements when a new one has been inserted: the new element may come
at any place, and the table may have been built anew. -/
structure SetOrder where
  /-- The elements in their new order. -/
  place : ℕ → List ℕ → List ℕ
  perm : ∀ p ps, (place p ps).Perm (p :: ps)

namespace SetOrder

/-- The new element comes first. -/
def newestFirst : SetOrder := ⟨List.cons, fun _ _ => .refl _⟩

/-- Insert into a hash set. -/
def insert (order : SetOrder) (p : ℕ) (ps : List ℕ) : List ℕ :=
  if p ∈ ps then ps else order.place p ps

@[simp] theorem mem_insert {order : SetOrder} {p q : ℕ} {ps : List ℕ} :
    q ∈ order.insert p ps ↔ q = p ∨ q ∈ ps := by
  unfold insert
  split
  · rename_i h
    constructor
    · exact Or.inr
    · rintro (rfl | hq)
      · exact h
      · exact hq
  · rw [(order.perm p ps).mem_iff, List.mem_cons]

end SetOrder

/-- The data file with the part of `RecordFileHandler` that is kept in memory. -/
@[ext] structure RecordFile (R : Type) where
  /-- `file_header_` -/
  header : FileHeader
  /-- The number of pages of the file. -/
  length : ℕ
  /-- The pages by their number. -/
  page : ℕ → RecordPage R
  /-- `free_pages_`, from its `begin()` on. -/
  freePages : List ℕ
  /-- How `free_pages_` will list its pages, one order for each insertion to come. -/
  orders : Stream' SetOrder

/-- The identifier of a record. -/
def slotRid (p slot : ℕ) : RID := ⟨p, slot⟩

/-- `recover_page` of the buffer pool.
Source: `disk_buffer_pool.cpp`, `DiskBufferPool::recover_page` -/
def recoverPage (h : FileHeader) (p : ℕ) : FileHeader :=
  if h.bitmap p then h
  else
    { pageCount := h.pageCount + 1
      allocatedPages := h.allocatedPages + 1
      bitmap := Function.update h.bitmap p true }

namespace RecordFile

/-- `get_this_page` for a page with records. -/
def getThisPage (file : RecordFile R) (p : Int) : Option (ℕ × RecordPage R) :=
  if 0 < p ∧ p < file.length then some (p.toNat, file.page p.toNat) else none

/-- `free_pages_.insert` -/
def addFreePage (file : RecordFile R) (p : ℕ) : RecordFile R :=
  { file with
    freePages := file.orders.head.insert p file.freePages
    orders := file.orders.tail }

/-- Change a page. -/
def setPage (file : RecordFile R) (p : ℕ) (page : RecordPage R) : RecordFile R :=
  { file with page := Function.update file.page p page }

/-- The loop over `free_pages_`: the first page that is not full, and the pages that remain in the
set. Source: `record_manager.cpp`, `RecordFileHandler::insert_record` -/
def findFreePage (file : RecordFile R) : List ℕ → Except RC (Option ℕ) × List ℕ
  | [] => (.ok none, [])
  | p :: ps =>
    match file.getThisPage p with
    | none => (.error .ioerrRead, p :: ps)
    | some (_, page) => if page.isFull then file.findFreePage ps else (.ok (some p), p :: ps)

/-- A new page for records: the one that `allocate_page` gives, initialised.
Source: `record_manager.cpp`, `RecordFileHandler::insert_record`; `disk_buffer_pool.cpp`,
`DiskBufferPool::allocate_page` -/
def allocatePage [Inhabited R] (file : RecordFile R) (capacity : ℕ) :
    Except RC ℕ × RecordFile R :=
  match file.header.freePage with
  | some p =>
    let file := { file with header := file.header.reuse p }
    match file.getThisPage p with
    | none => (.error .ioerrRead, file)
    | some (p, page) =>
      (.ok p, (file.setPage p (page.initEmptyPage capacity)).addFreePage p)
  | none =>
    if maxPageNum ≤ file.header.pageCount then (.error .bufferpoolNobuf, file)
    else
      let p := file.header.pageCount
      let file := { file with header := file.header.extend, length := max file.length (p + 1) }
      (.ok p, (file.setPage p (RecordPage.zero.initEmptyPage capacity)).addFreePage p)

/-- Insert into a page. -/
def insertInto (file : RecordFile R) (p : ℕ) (data : R) : Option (Except RC RID × RecordFile R) :=
  ((file.page p).insertRecord data).map fun
    | .error rc => (.error rc, file)
    | .ok (slot, page) => (.ok (slotRid p slot), file.setPage p page)

/-- The page that gets the next record.
Source: `record_manager.cpp`, `RecordFileHandler::insert_record` -/
def choosePage [Inhabited R] (file : RecordFile R) (capacity : ℕ) : Except RC ℕ × RecordFile R :=
  let (found, freePages) := file.findFreePage file.freePages
  let file := { file with freePages := freePages }
  match found with
  | .error rc => (.error rc, file)
  | .ok (some p) => (.ok p, file)
  | .ok none => file.allocatePage capacity

/-- Source: `record_manager.cpp`, `RecordFileHandler::insert_record` -/
def insertRecord [Inhabited R] (file : RecordFile R) (capacity : ℕ) (data : R) :
    Option (Except RC RID × RecordFile R) :=
  match file.choosePage capacity with
  | (.error rc, file) => some (.error rc, file)
  | (.ok p, file) => file.insertInto p data

/-- Source: `record_manager.cpp`, `RecordFileHandler::recover_insert_record` -/
def recoverInsertRecord (file : RecordFile R) (rid : RID) (data : R) : RC × RecordFile R :=
  match file.getThisPage rid.pageNum with
  | none => (.ioerrRead, file)
  | some (p, page) =>
    let file := { file with header := recoverPage file.header p }
    match page.recoverInsertRecord data rid.slotNum.toNat with
    | .error rc => (rc, file)
    | .ok page => (.success, file.setPage p page)

/-- Source: `record_manager.cpp`, `RecordFileHandler::update_record` -/
def updateRecord (file : RecordFile R) (rid : RID) (data : R) : RC × RecordFile R :=
  match file.getThisPage rid.pageNum with
  | none => (.ioerrRead, file)
  | some (p, page) =>
    match page.updateRecord rid.slotNum.toNat data with
    | .error rc => (rc, file)
    | .ok page => (.success, file.setPage p page)

/-- A page without records is given back. -/
def disposeEmpty (file : RecordFile R) (p : ℕ) : RecordFile R :=
  if (file.page p).recordNum = 0 then { file with header := file.header.dispose p } else file

/-- A page that cannot be read is reported as a success.
Source: `record_manager.cpp`, `RecordFileHandler::delete_record` -/
def deleteRecord (file : RecordFile R) (rid : RID) : RC × RecordFile R :=
  match file.getThisPage rid.pageNum with
  | none => (.success, file)
  | some (p, page) =>
    match page.deleteRecord rid.slotNum.toNat with
    | .error rc => (rc, file)
    | .ok page => (.success, ((file.setPage p page).disposeEmpty p).addFreePage p)

/-- A page that cannot be read is reported as a success without a record, which is `none` here.
Source: `record_manager.cpp`, `RecordFileHandler::get_record` -/
def getRecord (file : RecordFile R) (rid : RID) : Option (Except RC R) :=
  (file.getThisPage rid.pageNum).map fun (_, page) => page.getRecord rid.slotNum.toNat

/-- The pages from a page on that a `BufferPoolIterator` visits. -/
def pagesFrom (h : FileHeader) : ℕ → ℕ → List ℕ
  | 0, _ => []
  | fuel + 1, current =>
    match nextSettedBit h.bitmap h.pageCount (current + 1) with
    | none => []
    | some p => p :: pagesFrom h fuel p

/-- The pages of a file in the order of a scan.
Source: `disk_buffer_pool.cpp`, `BufferPoolIterator::init`, `BufferPoolIterator::next` -/
def scanPages (h : FileHeader) : List ℕ := pagesFrom h (h.pageCount + 1) 0

/-- The records of a page in the order of a scan. -/
def scanPage (file : RecordFile R) (p : ℕ) : List (RID × R) :=
  (file.page p).scanSlots.map fun slot => (slotRid p slot, (file.page p).slots slot)

/-- What a `RecordFileScanner` returns on a file that nobody changes meanwhile.
Source: `record_manager.cpp`, `RecordFileScanner::open_scan`, `RecordFileScanner::next` -/
def scan (file : RecordFile R) : List (RID × R) := (scanPages file.header).flatMap file.scanPage

/-- The record in a slot that is in use. -/
def record (file : RecordFile R) (rid : RID) : Option R :=
  if 0 < rid.pageNum ∧ rid.pageNum < file.length then
    (file.page rid.pageNum.toNat).record rid.slotNum
  else none

/-- A data file that has been created: it has its header only.
Source: `disk_buffer_pool.cpp`, `BufferPoolManager::create_file` -/
def empty [Inhabited R] (orders : Stream' SetOrder) : RecordFile R where
  header := ⟨1, 1, fun i => i = 0⟩
  length := 1
  page := fun _ => .zero
  freePages := []
  orders := orders

end RecordFile

end Miniob.Storage.Record
