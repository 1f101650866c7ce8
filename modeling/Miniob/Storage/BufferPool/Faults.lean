import Miniob.Storage.BufferPool.DiskBufferPool

/-!
# The buffer pool when input and output fail

The calls of `DiskBufferPool` with reads and writes that may fail. A write that fails writes
nothing. `allocate_frame` writes the pages that it throws out, so the outcomes of the writes are a
list that the calls use up; a call reads at most one page and adds at most one.

* `FaultyStore`: the store with the outcomes of the coming writes, and the calls on it.
  `allocateTurn` is one turn of the loop of `allocate_frame`.
* `PoolState`: the pools, what the clients hold and the pages they have got from `allocate_page`;
  `stepIo` and `runIo` are calls and runs in which anything may fail. A file may be closed while its
  pages are pinned.

Descriptors can always be opened and closed. A call is undefined when it uses a pool that has been
closed, which has been deleted.
-/

namespace Miniob.Storage.DiskBufferPool

open Miniob.Storage.BufferPool

/-- Which inputs and outputs of a call fail. -/
structure Faults where
  /-- Whether `flush_page` fails, write for write. What is not listed succeeds. -/
  writes : List Bool
  /-- Whether `load_page` fails. -/
  read : Bool
  /-- Whether writing the page fails that `allocate_page` adds to the file. -/
  added : Bool
  deriving DecidableEq, Repr

/-- Nothing fails. -/
def noFaults : Faults := ⟨[], false, false⟩

/-- The pools, and whether the coming writes fail. -/
structure FaultyStore (F D : Type) where
  /-- The pools. -/
  store : Store F D
  /-- Whether the coming writes fail. -/
  writes : List Bool

variable {F D : Type} [DecidableEq F] [Inhabited D]

namespace FaultyStore

/-- Change the frame manager. -/
def withFrames (w : FaultyStore F D) (fm : FrameManager D) : FaultyStore F D :=
  { w with store := { w.store with frameManager := fm } }

/-- Change the pools. -/
def withStore (w : FaultyStore F D) (s : Store F D) : FaultyStore F D := { w with store := s }

/-- Source: `disk_buffer_pool.cpp`, `DiskBufferPool::flush_page` -/
def flushPage (w : FaultyStore F D) (id f : ℕ) : Option (RC × FaultyStore F D) := do
  let s ← w.store.flushPage id f
  if w.writes.headD false then
    return (.ioerrWrite, ⟨w.store, w.writes.tail⟩)
  return (.success, ⟨s, w.writes.tail⟩)

/-- Source: `disk_buffer_pool.cpp`, `BufferPoolManager::flush_page` -/
def managerFlushPage (w : FaultyStore F D) (f : ℕ) : Option (RC × FaultyStore F D) :=
  match w.store.manager.fdBufferPools (w.store.frame f).fileDesc with
  | none => some (.internal, w)
  | some id => w.flushPage id f

/-- Write a dirty frame to its file. -/
def cleanFrame (w : FaultyStore F D) (f : ℕ) : Option (RC × FaultyStore F D) :=
  if (w.store.frame f).dirty then w.managerFlushPage f else some (.success, w)

/-- Write the victim if it is dirty and free it under the key that it carries. What `free` answers
is not looked at. -/
def freeFrame (w : FaultyStore F D) (f : ℕ) : Option (RC × FaultyStore F D) := do
  let (rc, w) ← w.cleanFrame f
  if rc ≠ .success then
    return (rc, w)
  let frame := w.store.frame f
  let (_, fm) := w.store.frameManager.free ⟨frame.fileDesc, frame.page.pageNum⟩ f
  return (.success, w.withFrames fm)

/-- One turn of the loop: the answer and the pools when it returns, and the pools when it goes on.
Source: `disk_buffer_pool.cpp`, `DiskBufferPool::allocate_frame` -/
def allocateTurn (w : FaultyStore F D) (key : FrameId) :
    Option ((Except RC ℕ × FaultyStore F D) ⊕ FaultyStore F D) :=
  match w.store.frameManager.alloc key with
  | (some f, fm) => some (.inl (.ok f, w.withFrames fm))
  | (none, fm) =>
    let w := w.withFrames fm
    match w.store.frameManager.beginPurge with
    | none => some (.inl (.error .nomem, w))
    | some f => (w.freeFrame f).map fun (rc, w) =>
        if rc ≠ .success then .inl (.error rc, w) else .inr w

/-- The loop, for a number of turns.
Source: `disk_buffer_pool.cpp`, `DiskBufferPool::allocate_frame` -/
def allocateFrame : ℕ → FaultyStore F D → FrameId → Option (Except RC ℕ × FaultyStore F D)
  | 0, _, _ => none
  | fuel + 1, w, key => (w.allocateTurn key).bind (Sum.elim some (allocateFrame fuel · key))

/-- Write a frame to the file of the pool if it is dirty. -/
def flushDirty (w : FaultyStore F D) (id f : ℕ) : Option (RC × FaultyStore F D) :=
  if (w.store.frame f).dirty then w.flushPage id f else some (.success, w)

/-- Source: `disk_buffer_pool.cpp`, `DiskBufferPool::purge_frame` -/
def purgeFrame (w : FaultyStore F D) (id page f : ℕ) : Option (RC × FaultyStore F D) := do
  let pool ← w.store.openPool id
  if 0 < (w.store.frame f).pinCount then
    return (.lockedUnlock, w)
  let (rc, w) ← w.flushDirty id f
  if rc ≠ .success then
    return (rc, w)
  let (_, fm) := w.store.frameManager.free ⟨pool.fileDesc, page⟩ f
  return (.success, w.withFrames fm)

/-- Source: `disk_buffer_pool.cpp`, `DiskBufferPool::purge_page` -/
def purgePage (w : FaultyStore F D) (id page : ℕ) : Option (RC × FaultyStore F D) := do
  let pool ← w.store.openPool id
  match w.store.frameManager.get ⟨pool.fileDesc, page⟩ with
  | (some f, fm) => purgeFrame (w.withFrames fm) id page f
  | (none, _) => return (.success, w)

/-- Read a page into a new frame. If that fails, the frame is given back.
Source: `disk_buffer_pool.cpp`, `DiskBufferPool::get_this_page`, `DiskBufferPool::load_page` -/
def loadPage (w : FaultyStore F D) (fails : Bool) (name : F) (key : FrameId) (f : ℕ) :
    RC × FaultyStore F D :=
  if fails then (.ioerrRead, w.withFrames (w.store.frameManager.free key f).2)
  else ((w.store.loadPage name key f).1, w.withStore (w.store.loadPage name key f).2)

/-- Source: `disk_buffer_pool.cpp`, `DiskBufferPool::get_this_page` -/
def getThisPage (w : FaultyStore F D) (id page : ℕ) (fails : Bool) :
    Option (Except RC ℕ × FaultyStore F D) := do
  let pool ← w.store.openPool id
  let key : FrameId := ⟨pool.fileDesc, page⟩
  match w.store.frameManager.get key with
  | (some f, fm) =>
    let s := { w.store with frameManager := fm }
    return (.ok f, w.withStore
      (s.setFrame f { s.frame f with pinCount := (s.frame f).pinCount + 1 }))
  | (none, _) =>
    let (allocated, w) ← w.allocateFrame w.store.allocateFuel key
    match allocated with
    | .error rc => return (.error rc, w)
    | .ok f =>
      let (rc, w) := w.loadPage fails pool.fileName key f
      return (if rc = .success then .ok f else .error rc, w)

/-- Write a page that has been added to the file. That it cannot be written is passed over. -/
def extendFile (s : Store F D) (fails : Bool) (id f : ℕ) : Option (Store F D) :=
  if fails then some s else s.flushPage id f

/-- The page is taken again or added.
Source: `disk_buffer_pool.cpp`, `DiskBufferPool::allocate_page` -/
def allocatePage (w : FaultyStore F D) (id : ℕ) (io : Faults) :
    Option (Except RC (ℕ × ℕ) × FaultyStore F D) := do
  let pool ← w.store.openPool id
  let h ← w.store.fileHeader id
  match h.freePage with
  | some page =>
    let w := w.withStore (w.store.setFileHeader id (h.reuse page))
    let (got, w) ← w.getThisPage id page io.read
    return (got.map fun f => (page, f), w)
  | none =>
    if maxPageNum ≤ h.pageCount then
      return (.error .bufferpoolNobuf, w)
    let page := h.pageCount
    let (allocated, w) ← w.allocateFrame w.store.allocateFuel ⟨pool.fileDesc, page⟩
    match allocated with
    | .error rc => return (.error rc, w)
    | .ok f =>
      let s := w.store.setFileHeader id h.extend
      let s := s.setFrame f ⟨false, 1, pool.fileDesc, ⟨page, .bytes default⟩⟩
      let s ← extendFile s io.added id f
      return (.ok (page, f), w.withStore s)

/-- Source: `disk_buffer_pool.cpp`, `DiskBufferPool::dispose_page` -/
def disposePage (w : FaultyStore F D) (id page : ℕ) : Option (RC × FaultyStore F D) := do
  let (rc, w) ← w.purgePage id page
  if rc ≠ .success then
    return (rc, w.withStore { w.store with
      disposedPages := Function.update w.store.disposedPages id
        ((w.store.disposedPages id).insert page) })
  let h ← w.store.fileHeader id
  return (.success, w.withStore (w.store.setFileHeader id (h.dispose page)))

/-- Source: `disk_buffer_pool.cpp`, `DiskBufferPool::unpin_page` -/
def unpinPage (w : FaultyStore F D) (id f : ℕ) : Option (RC × FaultyStore F D) := do
  let _ ← w.store.openPool id
  if (w.store.frame f).pinCount = 0 then
    none
  let w := w.withStore
    (w.store.setFrame f { w.store.frame f with pinCount := (w.store.frame f).pinCount - 1 })
  if (w.store.frame f).pinCount ≠ 0 then
    return (.success, w)
  let page := (w.store.frame f).page.pageNum
  if page ∉ w.store.disposedPages id then
    return (.success, w)
  let (_, w) ← w.disposePage id page
  return (.success, w.withStore { w.store with
    disposedPages := Function.update w.store.disposedPages id
      ((w.store.disposedPages id).erase page) })

/-- Write frames of a pool until one cannot be written. -/
def flushFrames (id : ℕ) : List ℕ → FaultyStore F D → Option (RC × FaultyStore F D)
  | [], w => some (.success, w)
  | f :: fs, w => do
    let (rc, w) ← w.flushPage id f
    if rc ≠ .success then
      return (rc, w)
    flushFrames id fs w

/-- Source: `disk_buffer_pool.cpp`, `DiskBufferPool::flush_all_pages` -/
def flushAllPages (w : FaultyStore F D) (id : ℕ) : Option (RC × FaultyStore F D) := do
  let pool ← w.store.openPool id
  flushFrames id (w.store.frameManager.findList pool.fileDesc) w

/-- Source: `disk_buffer_pool.cpp`, `BufferPoolManager::open_file`, `DiskBufferPool::open_file` -/
def openFile (w : FaultyStore F D) (name : F) (fails : Bool) :
    Option (RC × FaultyStore F D) := do
  if (w.store.manager.bufferPools name).isSome then
    return (.bufferpoolOpen, w)
  if w.store.disk name = [] then
    return (.ioerrAccess, w)
  let key : FrameId := ⟨lowestFree w.store.manager.used, 0⟩
  let (allocated, w) ← w.allocateFrame w.store.allocateFuel key
  match allocated with
  | .error rc => return (rc, w)
  | .ok f =>
    let (rc, w) := w.loadPage fails name key f
    let id := w.store.manager.pools.length
    let (rc, manager) := w.store.manager.openFile name rc
    return (rc, w.withStore { w.store with
      manager := manager
      hdrFrame := Function.update w.store.hdrFrame id f
      disposedPages := Function.update w.store.disposedPages id [] })

/-- What `DiskBufferPool::close_file` does before it closes the descriptor.
Source: `disk_buffer_pool.cpp`, `DiskBufferPool::close_file` -/
def purgeHeader (w : FaultyStore F D) (id : ℕ) : Option (RC × FaultyStore F D) := do
  let f := w.store.hdrFrame id
  let w := w.withStore
    (w.store.setFrame f { w.store.frame f with pinCount := (w.store.frame f).pinCount - 1 })
  let (rc, w) ← w.purgePage id 0
  if rc ≠ .success then
    return (rc, w.withStore
      (w.store.setFrame f { w.store.frame f with pinCount := (w.store.frame f).pinCount + 1 }))
  return (.success, w.withStore { w.store with
    disposedPages := Function.update w.store.disposedPages id [] })

/-- Source: `disk_buffer_pool.cpp`, `DiskBufferPool::close_file` -/
def poolCloseFile (w : FaultyStore F D) (id : ℕ) : Option (RC × FaultyStore F D) := do
  let _ ← w.store.openPool id
  let (rc, w) ← w.purgeHeader id
  if rc ≠ .success then
    return (rc, w)
  let (rc, manager) ← w.store.manager.poolCloseFile 4 id
  return (rc, w.withStore { w.store with manager := manager })

/-- The registry after an open pool has been deleted whose destructor could not close the file: the
descriptor stays in use. -/
def leak (m : Manager F) (id : ℕ) (pool : PoolObject F) : Manager F where
  pools := m.pools.set id { pool with fileDesc := -1, deleted := pool.deleted + 1 }
  bufferPools := Function.update m.bufferPools pool.fileName none
  fdBufferPools := Function.update m.fdBufferPools pool.fileDesc none
  used := m.used

/-- The destructor of the pool closes the file. That it may fail to do so is not looked at.
Source: `disk_buffer_pool.cpp`, `BufferPoolManager::close_file` -/
def closeFile (w : FaultyStore F D) (name : F) : Option (RC × FaultyStore F D) := do
  match w.store.manager.bufferPools name with
  | none => return (.internal, w)
  | some id =>
    let pool ← w.store.openPool id
    let (rc, w) ← w.purgeHeader id
    if rc ≠ .success then
      return (.success, w.withStore { w.store with
        manager := leak w.store.manager id pool })
    let (rc, manager) ← w.store.manager.closeFile 4 name
    return (rc, w.withStore { w.store with manager := manager })

end FaultyStore

/-! ## Clients -/

/-- The pools and what their clients have. -/
structure PoolState (F D : Type) where
  /-- The pools. -/
  store : Store F D
  /-- The frames that have been handed out and not unpinned yet. -/
  held : List Handle
  /-- The pages that `allocate_page` has returned. -/
  returned : List (F × ℕ)

namespace PoolState

/-- A call that hands out no frame. -/
def answer (σ : PoolState F D) (r : RC × FaultyStore F D) : PoolAnswer × PoolState F D :=
  (⟨r.1, none⟩, { σ with store := r.2.store })

/-- A call that hands out a frame. -/
def handOut (σ : PoolState F D) (got : Except RC Handle) (w : FaultyStore F D) :
    PoolAnswer × PoolState F D :=
  match got with
  | .ok h => (⟨.success, some h⟩, { σ with store := w.store, held := h :: σ.held })
  | .error rc => (⟨rc, none⟩, { σ with store := w.store })

/-- The page that `allocate_page` has returned, if it has. -/
def note (σ : PoolState F D) (name : F) : Except RC Handle → PoolState F D
  | .ok h => { σ with returned := (name, h.page) :: σ.returned }
  | .error _ => σ

/-- No file is open and all of the `n` frames are free. -/
def init (used : List ℕ) (n : ℕ) (disk : F → List (Page D)) : PoolState F D where
  store := (Session.init used n disk).store
  held := []
  returned := []

end PoolState

/-- One call, of which the inputs and outputs in `io` fail. Clients touch only frames that they
hold. -/
def PoolOp.stepIo (σ : PoolState F D) (io : Faults) :
    PoolOp F D → Option (PoolAnswer × PoolState F D)
  | openFile name => (FaultyStore.openFile ⟨σ.store, io.writes⟩ name io.read).map σ.answer
  | getThisPage id page =>
      (FaultyStore.getThisPage ⟨σ.store, io.writes⟩ id page io.read).map fun (got, w) =>
        σ.handOut (got.map fun f => ⟨id, page, f⟩) w
  | write h d =>
      if h ∈ σ.held then
        let frame := σ.store.frame h.frame
        let frame := { frame with page := ⟨frame.page.pageNum, .bytes d⟩ }
        some (⟨.success, none⟩, { σ with store := σ.store.setFrame h.frame frame })
      else none
  | markDirty h =>
      if h ∈ σ.held then
        let frame := { σ.store.frame h.frame with dirty := true }
        some (⟨.success, none⟩, { σ with store := σ.store.setFrame h.frame frame })
      else none
  | unpinPage h =>
      if h ∈ σ.held then
        (FaultyStore.unpinPage ⟨σ.store, io.writes⟩ h.pool h.frame).map fun r =>
          { σ with held := σ.held.erase h }.answer r
      else none
  | allocatePage id => do
      let pool ← σ.store.openPool id
      let (got, w) ← FaultyStore.allocatePage ⟨σ.store, io.writes⟩ id io
      let got : Except RC Handle := got.map fun (page, f) => ⟨id, page, f⟩
      return (σ.note pool.fileName got).handOut got w
  | disposePage id page =>
      (FaultyStore.disposePage ⟨σ.store, io.writes⟩ id page).map σ.answer
  | purgePage id page => (FaultyStore.purgePage ⟨σ.store, io.writes⟩ id page).map σ.answer
  | flushAllPages id => (FaultyStore.flushAllPages ⟨σ.store, io.writes⟩ id).map σ.answer
  | poolCloseFile id => (FaultyStore.poolCloseFile ⟨σ.store, io.writes⟩ id).map σ.answer
  | closeFile name => (FaultyStore.closeFile ⟨σ.store, io.writes⟩ name).map σ.answer

/-- A run of calls with what fails in each. -/
def runIo : List (PoolOp F D × Faults) → PoolState F D → Option (List PoolAnswer × PoolState F D)
  | [], σ => some ([], σ)
  | (op, io) :: ops, σ => do
    let (a, σ) ← op.stepIo σ io
    let (as, σ) ← runIo ops σ
    return (a :: as, σ)

end Miniob.Storage.DiskBufferPool
