import Miniob.Storage.BufferPool.PageArray
import Miniob.Storage.Record.RecordScanner

/-!
# Records that are handed out

A `Record` points into the frame of its page. `get_record` unpins the page when it returns, and the
scanner unpins it when it moves on to another page, which it does one record ahead of the one that
`next` has returned.

* `PooledScanner`: a `RecordFileScanner` over the frames of the buffer pool.
* `Readers`: the pools with a scanner and the records that clients still use; `ReaderOp.step`.
* `PageRecord.IsValid`: the frame that a record points into is pinned and holds its page.
* `ReaderOp.KeepsPins`: the page of every record that is still used is pinned by somebody else when
  the scanner or `get_record` leaves it.

Other clients may make any call of the buffer pool but close a file, and they unpin only frames that
they hold. Input and output succeed.
-/

namespace Miniob.Storage.Record

open Miniob.Common Miniob.Storage.BufferPool Miniob.Storage.DiskBufferPool

variable {F R : Type}

instance [Inhabited R] : Inhabited (RecordPage R) := ⟨.zero⟩

/-- Source: `record.h`, `class Record` -/
structure PageRecord where
  /-- `rid_` -/
  rid : RID
  /-- The frame that `data_` points into, and the page that the frame was handed out for. -/
  handle : Handle
  deriving DecidableEq, Repr

/-- The page with records in a frame. The header of a file is none. -/
def recordPage (σ : Session F (RecordPage R)) (h : Handle) : Option (RecordPage R) :=
  (σ.store.frame h.frame).page.data.bytes?

/-! ## The scanner -/

/-- Source: `record_manager.h`, `class RecordFileScanner` -/
structure PooledScanner (R : Type) where
  /-- `disk_buffer_pool_` -/
  diskBufferPool : Option ℕ
  /-- `bp_iterator_` -/
  bpIterator : BufferPoolIterator
  /-- `condition_filter_` -/
  conditionFilter : Option (RID × R → Bool)
  /-- The frame that `record_page_handler_` has pinned. -/
  recordPageHandler : Option Handle
  /-- `record_page_iterator_`, if it is valid, with the frame whose bitmap it reads. -/
  recordPageIterator : Option (Handle × RecordPageIterator)
  /-- `next_record_`, if its slot number is not -1. -/
  nextRecord : Option PageRecord

namespace PooledScanner

/-- A scanner that has been constructed. -/
def fresh : PooledScanner R := ⟨none, ⟨0, 0, 0⟩, none, none, none, none⟩

/-- The filter lets the record through. Without a filter every record passes. -/
def accept (sc : PooledScanner R) (record : RID × R) : Bool :=
  match sc.conditionFilter with
  | none => true
  | some filter => filter record

/-- The pins that are not those of the scanner. -/
def others (sc : PooledScanner R) (held : List Handle) : List Handle :=
  match sc.recordPageHandler with
  | none => held
  | some h => held.erase h

/-- Source: `record_manager.cpp`, `RecordFileScanner::fetch_next_record_in_page` -/
def fetchNextRecordInPage (sc : PooledScanner R) (σ : Session F (RecordPage R)) :
    Option (PooledScanner R) :=
  sc.recordPageIterator.bind fun (h, it) =>
    match it.nextSlotNum with
    | none => some { sc with nextRecord := none }
    | some _ => (recordPage σ h).bind fun page =>
      (it.fetch sc.accept page (it.size + 1)).map fun (record, it) =>
        { sc with
          nextRecord := record.map fun record => ⟨record.1, h⟩
          recordPageIterator := some (h, it) }

/-- The next page of the file. Source: `disk_buffer_pool.cpp`, `BufferPoolIterator::next` -/
def nextPage (sc : PooledScanner R) (hd : FileHeader) : Option ℕ :=
  nextSettedBit hd.bitmap sc.bpIterator.size (sc.bpIterator.currentPageNum + 1)

/-- The page that is pinned and the iterator over its slots stay.
Source: `record_manager.cpp`, `RecordFileScanner::close_scan` -/
def closeScan (sc : PooledScanner R) : PooledScanner R :=
  { sc with diskBufferPool := none, conditionFilter := none }

/-- The scanner that `open_scan` starts with.
Source: `record_manager.cpp`, `RecordFileScanner::open_scan`; `disk_buffer_pool.cpp`,
`BufferPoolIterator::init` -/
def opened (sc : PooledScanner R) (pool pageCount : ℕ) (filter : Option (RID × R → Bool)) :
    PooledScanner R :=
  { sc.closeScan with
    diskBufferPool := some pool
    bpIterator := ⟨pool, pageCount, 0⟩
    conditionFilter := filter }

variable [DecidableEq F] [Inhabited R]

/-- Source: `record_manager.cpp`, `RecordPageHandler::cleanup` -/
def cleanup (sc : PooledScanner R) (σ : Session F (RecordPage R)) :
    Option (Session F (RecordPage R)) :=
  match sc.recordPageHandler with
  | none => some σ
  | some h => ((PoolOp.unpinPage h).step σ).map (·.2)

/-- Leave the page and fetch another one: the body of the loop over the pages.
Source: `record_manager.cpp`, `RecordFileScanner::fetch_next_record`, `RecordPageHandler::init`,
`RecordPageIterator::init` -/
def openPage (sc : PooledScanner R) (σ : Session F (RecordPage R)) (pool p : ℕ) :
    Option (RC × PooledScanner R × Session F (RecordPage R)) := do
  let σ ← sc.cleanup σ
  let sc := { sc with bpIterator := { sc.bpIterator with currentPageNum := p } }
  let (a, σ) ← (PoolOp.getThisPage pool p).step σ
  match a.handle with
  | none => return (a.rc, { sc with recordPageHandler := none }, σ)
  | some h =>
    let page ← recordPage σ h
    let it : RecordPageIterator := ⟨pool, (σ.store.frame h.frame).page.pageNum,
      page.recordCapacity, nextSettedBit page.bitmap page.recordCapacity 0⟩
    return (.success, { sc with
      recordPageHandler := some h
      recordPageIterator := some (h, it) }, σ)

/-- The loop over the pages.
Source: `record_manager.cpp`, `RecordFileScanner::fetch_next_record` -/
def fetchPages : ℕ → PooledScanner R → Session F (RecordPage R) →
    Option (RC × PooledScanner R × Session F (RecordPage R))
  | 0, _, _ => none
  | fuel + 1, sc, σ =>
    (σ.store.fileHeader sc.bpIterator.pool).bind fun hd =>
    match sc.nextPage hd with
    | none => some (.recordEof, { sc with nextRecord := none }, σ)
    | some p => sc.diskBufferPool.bind fun pool =>
      (sc.openPage σ pool p).bind fun (rc, sc, σ) =>
        if rc ≠ .success then some (rc, sc, σ)
        else (sc.fetchNextRecordInPage σ).bind fun sc =>
          if sc.nextRecord.isSome then some (.success, sc, σ) else fetchPages fuel sc σ

/-- Source: `record_manager.cpp`, `RecordFileScanner::fetch_next_record` -/
def fetchNextRecord (sc : PooledScanner R) (σ : Session F (RecordPage R)) :
    Option (RC × PooledScanner R × Session F (RecordPage R)) :=
  match sc.recordPageIterator with
  | none => fetchPages (sc.bpIterator.size + 1) sc σ
  | some _ => (sc.fetchNextRecordInPage σ).bind fun sc =>
    if sc.nextRecord.isSome then some (.success, sc, σ)
    else fetchPages (sc.bpIterator.size + 1) sc σ

end PooledScanner

/-! ## Readers and other clients -/

/-- The pools, a scanner and the records that its clients use. -/
structure Readers (F R : Type) where
  /-- The pools. -/
  session : Session F (RecordPage R)
  /-- The scanner. -/
  scanner : PooledScanner R
  /-- The record that `next` has returned last. -/
  returned : Option PageRecord
  /-- The records of `get_record` that are still used. -/
  fetched : List PageRecord

/-- What clients do. -/
inductive ReaderOp (F R : Type)
  /-- `RecordFileScanner::open_scan` -/
  | openScan (pool : ℕ) (filter : Option (RID × R → Bool))
  /-- `RecordFileScanner::next` -/
  | next
  /-- `RecordFileScanner::close_scan` -/
  | closeScan
  /-- The destructor of the scanner, and a new scanner. -/
  | destroyScan
  /-- `RecordFileHandler::get_record` -/
  | getRecord (pool page slot : ℕ)
  /-- A client is done with a record of `get_record`. -/
  | done (record : PageRecord)
  /-- Another call of the buffer pool. -/
  | request (op : PoolOp F (RecordPage R))

namespace Readers

/-- The records that are used. -/
def used (τ : Readers F R) : List PageRecord := τ.returned.toList ++ τ.fetched

/-- The pins that are not those of the scanner. -/
def othersHeld (τ : Readers F R) : List Handle := τ.scanner.others τ.session.held

variable [DecidableEq F] [Inhabited R]

/-- A page that cannot be read is reported as a success without a record. The page is unpinned at
the end.
Source: `record_manager.cpp`, `RecordFileHandler::get_record`, `RecordPageHandler::get_record`,
`RecordPageHandler::cleanup` -/
def getRecord (τ : Readers F R) (pool page slot : ℕ) : Option (RC × Readers F R) := do
  let (a, σ) ← (PoolOp.getThisPage pool page).step τ.session
  match a.handle with
  | none => return (.success, { τ with session := σ })
  | some h =>
    let data ← recordPage σ h
    let (_, σ) ← (PoolOp.unpinPage h).step σ
    match data.getRecord slot with
    | .error rc => return (rc, { τ with session := σ })
    | .ok _ => return (.success, { τ with
        session := σ
        fetched := ⟨slotRid page slot, h⟩ :: τ.fetched })

/-- Source: `record_manager.cpp`, `RecordFileScanner::open_scan` -/
def openScan (τ : Readers F R) (pool : ℕ) (filter : Option (RID × R → Bool)) :
    Option (RC × Readers F R) := do
  let _ ← τ.session.store.openPool pool
  let hd ← τ.session.store.fileHeader pool
  let (rc, sc, σ) ← (τ.scanner.opened pool hd.pageCount filter).fetchNextRecord τ.session
  return (if rc = .recordEof then .success else rc, { τ with session := σ, scanner := sc })

/-- A call that fails returns no record.
Source: `record_manager.cpp`, `RecordFileScanner::next` -/
def next (τ : Readers F R) : Option (RC × Readers F R) := do
  let (rc, sc, σ) ← τ.scanner.fetchNextRecord τ.session
  let rc := if rc = .recordEof then .success else rc
  return (rc, { τ with
    session := σ
    scanner := sc
    returned := if rc = .success then τ.scanner.nextRecord else none })

/-- Another client makes a call. It does not take the pin of the scanner. -/
def request (τ : Readers F R) (op : PoolOp F (RecordPage R)) : Option (RC × Readers F R) :=
  let called := (op.step τ.session).map fun (a, σ) => (a.rc, { τ with session := σ })
  match op with
  | .poolCloseFile _ | .closeFile _ => none
  | .unpinPage h => if h ∈ τ.othersHeld then called else none
  | _ => called

end Readers

/-- One call. -/
def ReaderOp.step [DecidableEq F] [Inhabited R] (τ : Readers F R) :
    ReaderOp F R → Option (RC × Readers F R)
  | openScan pool filter => τ.openScan pool filter
  | next => τ.next
  | closeScan => some (.success, { τ with scanner := τ.scanner.closeScan })
  | destroyScan => (τ.scanner.cleanup τ.session).map fun σ =>
      (.success, { τ with session := σ, scanner := .fresh, returned := none })
  | getRecord pool page slot => τ.getRecord pool page slot
  | done record => some (.success, { τ with fetched := τ.fetched.erase record })
  | request op => τ.request op

/-- A run of calls. -/
def runReaders [DecidableEq F] [Inhabited R] :
    List (ReaderOp F R) → Readers F R → Option (Readers F R)
  | [], τ => some τ
  | op :: ops, τ => (op.step τ).bind fun p => runReaders ops p.2

/-- No file is open, and a scanner has been constructed. -/
def Readers.init [Inhabited R] (used : List ℕ) (n : ℕ) (disk : F → List (Page (RecordPage R))) :
    Readers F R :=
  ⟨Session.init used n disk, .fresh, none, []⟩

/-! ## Valid records -/

/-- **The record is valid**: the frame that it points into is pinned and holds its page. -/
def PageRecord.IsValid (record : PageRecord) (σ : Session F (RecordPage R)) : Prop :=
  ∃ pool page, IsOpen σ.store.manager.pools record.handle.pool pool ∧
    record.rid.pageNum = (page : ℕ) ∧
    (⟨pool.fileDesc, page⟩, record.handle.frame) ∈ σ.store.entries ∧
    (σ.store.frame record.handle.frame).page.pageNum = page ∧
    0 < (σ.store.frame record.handle.frame).pinCount

/-- The scanner leaves its page: the page has no more records for it, and the file has another
page. -/
def PooledScanner.LeavesPage (sc : PooledScanner R) (σ : Session F (RecordPage R)) : Prop :=
  (∀ sc' ∈ sc.fetchNextRecordInPage σ, sc'.nextRecord = none) ∧
  ∃ hd ∈ σ.store.fileHeader sc.bpIterator.pool, (sc.nextPage hd).isSome

/-- What a page holds, in its frame or in its file. -/
def pageOf (σ : Session F (RecordPage R)) (pool page : ℕ) : Option (RecordPage R) := do
  let p ← σ.store.openPool pool
  match σ.store.frameManager.find ⟨p.fileDesc, page⟩ with
  | some e => (σ.store.frame e.2).page.data.bytes?
  | none => ((σ.store.disk p.fileName)[page]?).bind fun page => page.data.bytes?

/-- The page has no frame, and none can be given to it. -/
def NoFrame (σ : Session F (RecordPage R)) (pool page : ℕ) : Prop :=
  ∀ p ∈ σ.store.openPool pool, (∀ e ∈ σ.store.entries, e.1 ≠ ⟨p.fileDesc, page⟩) ∧
    σ.store.frameManager.frees = [] ∧ ∀ e ∈ σ.store.entries, (σ.store.frame e.2).pinCount ≠ 0

instance (sc : PooledScanner R) (σ : Session F (RecordPage R)) : Decidable (sc.LeavesPage σ) :=
  inferInstanceAs (Decidable ((∀ sc' ∈ sc.fetchNextRecordInPage σ, sc'.nextRecord = none) ∧
    ∃ hd ∈ σ.store.fileHeader sc.bpIterator.pool, (sc.nextPage hd).isSome))

instance (σ : Session F (RecordPage R)) (pool page : ℕ) : Decidable (NoFrame σ pool page) :=
  inferInstanceAs (Decidable (∀ p ∈ σ.store.openPool pool,
    (∀ e ∈ σ.store.entries, e.1 ≠ ⟨p.fileDesc, page⟩) ∧ σ.store.frameManager.frees = [] ∧
      ∀ e ∈ σ.store.entries, (σ.store.frame e.2).pinCount ≠ 0))

/-- **The pins are kept.** When the scanner leaves its page, or `get_record` or another client
unpins a page, every record on it that is still used has another pin. -/
def ReaderOp.KeepsPins (τ : Readers F R) : ReaderOp F R → Prop
  | openScan pool filter => ∀ hd ∈ τ.session.store.fileHeader pool,
      (τ.scanner.opened pool hd.pageCount filter).LeavesPage τ.session →
        ∀ record ∈ τ.used, record.handle ∈ τ.othersHeld
  | next => ∀ record ∈ τ.scanner.nextRecord.toList ++ τ.fetched, record.handle ∈ τ.session.held ∧
      (τ.scanner.LeavesPage τ.session → record.handle ∈ τ.othersHeld)
  | destroyScan => ∀ record ∈ τ.fetched, record.handle ∈ τ.othersHeld
  | getRecord pool page slot => (∃ h ∈ τ.session.held, h.pool = pool ∧ h.page = page) ∨
      (∀ data ∈ pageOf τ.session pool page, ¬ data.used slot) ∨ NoFrame τ.session pool page
  | request (.unpinPage h) => ∀ record ∈ τ.used, record.handle ∈ τ.session.held.erase h
  | closeScan | done _ | request _ => True

instance (τ : Readers F R) : (op : ReaderOp F R) → Decidable (op.KeepsPins τ)
  | .openScan pool filter => inferInstanceAs (Decidable (∀ hd ∈ τ.session.store.fileHeader pool,
      (τ.scanner.opened pool hd.pageCount filter).LeavesPage τ.session →
        ∀ record ∈ τ.used, record.handle ∈ τ.othersHeld))
  | .next => inferInstanceAs (Decidable (∀ record ∈ τ.scanner.nextRecord.toList ++ τ.fetched,
      record.handle ∈ τ.session.held ∧
        (τ.scanner.LeavesPage τ.session → record.handle ∈ τ.othersHeld)))
  | .destroyScan => inferInstanceAs (Decidable (∀ record ∈ τ.fetched, record.handle ∈ τ.othersHeld))
  | .getRecord pool page slot => inferInstanceAs (Decidable
      ((∃ h ∈ τ.session.held, h.pool = pool ∧ h.page = page) ∨
        (∀ data ∈ pageOf τ.session pool page, ¬ data.used slot) ∨ NoFrame τ.session pool page))
  | .request (.unpinPage h) => inferInstanceAs (Decidable
      (∀ record ∈ τ.used, record.handle ∈ τ.session.held.erase h))
  | .request (.openFile _) | .request (.getThisPage _ _) | .request (.write _ _)
  | .request (.markDirty _) | .request (.allocatePage _) | .request (.disposePage _ _)
  | .request (.purgePage _ _) | .request (.flushAllPages _) | .request (.poolCloseFile _)
  | .request (.closeFile _) | .closeScan | .done _ => inferInstanceAs (Decidable True)

/-- The pins are kept along a run. -/
def KeepsPinsInRun [DecidableEq F] [Inhabited R] : List (ReaderOp F R) → Readers F R → Prop
  | [], _ => True
  | op :: ops, τ => op.KeepsPins τ ∧ ∀ p ∈ op.step τ, KeepsPinsInRun ops p.2

instance [DecidableEq F] [Inhabited R] : (ops : List (ReaderOp F R)) → (τ : Readers F R) →
    Decidable (KeepsPinsInRun ops τ)
  | [], _ => inferInstanceAs (Decidable True)
  | op :: ops, τ =>
    have : ∀ τ, Decidable (KeepsPinsInRun ops τ) := fun τ => instDecidableKeepsPinsInRun ops τ
    inferInstanceAs (Decidable (op.KeepsPins τ ∧ ∀ p ∈ op.step τ, KeepsPinsInRun ops p.2))

end Miniob.Storage.Record
