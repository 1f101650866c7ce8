import Miniob.Storage.BufferPool.Registry

/-!
# The disk buffer pool

The files of the engine share one set of frames. `BPFrameManager` finds a frame by descriptor and
page number and keeps the frames in the order of their last use; `DiskBufferPool` loads pages into
frames and frees the frame of the page used longest ago when there is no free frame;
`BufferPoolManager` leads a dirty frame of any file to the pool of that file.

* `FrameManager`: `get`, `alloc`, `free` and `beginPurge`.
* `Store`: the pools, the frames and the files, with the calls of `DiskBufferPool`.
* `Session`: the pools together with the frames their clients hold, and `PoolOp.step`.

Input and output succeed. A step is undefined when it uses a pool that has been closed.
-/

namespace Miniob.Storage.DiskBufferPool

open Miniob.Storage.BufferPool

/-- Source: `disk_buffer_pool.h`, `struct BPFileHeader` -/
structure FileHeader where
  /-- `page_count` -/
  pageCount : ℕ
  /-- `allocated_pages` -/
  allocatedPages : Int
  /-- `bitmap` -/
  bitmap : ℕ → Bool

/-- `BPFileHeader::MAX_PAGE_NUM`: one bit a page in the data of page 0. -/
def maxPageNum : ℕ := (16384 - 4 - 4 - 4) * 8

/-- The data of a page: page 0 of a file holds the file header, the others belong to the clients. -/
inductive PageData (D : Type)
  | header (h : FileHeader)
  | bytes (d : D)

/-- Source: `disk_buffer_pool.h`, `struct Page` -/
structure Page (D : Type) where
  /-- `page_num` -/
  pageNum : ℕ
  /-- `data` -/
  data : PageData D

/-- Source: `disk_buffer_pool.h`, `class Frame` -/
structure Frame (D : Type) where
  /-- `dirty_` -/
  dirty : Bool
  /-- `pin_count_` -/
  pinCount : ℕ
  /-- `file_desc_` -/
  fileDesc : Int
  /-- `page_` -/
  page : Page D

/-- Source: `disk_buffer_pool.h`, `class BPFrameId` -/
structure FrameId where
  /-- `file_desc_` -/
  fileDesc : Int
  /-- `page_num_` -/
  pageNum : ℕ
  deriving DecidableEq, Repr

/-! ## The frame manager -/

/-- Source: `disk_buffer_pool.h`, `class BPFrameManager` -/
@[ext] structure FrameManager (D : Type) where
  /-- The frames by their address. -/
  frame : ℕ → Frame D
  /-- `frames_`, the frame used last in front. -/
  frames : List (FrameId × ℕ)
  /-- The frames that `allocator_` has free. -/
  frees : List ℕ

namespace FrameManager

variable {D : Type}

/-- Change the frame at an address. -/
def setFrame (fm : FrameManager D) (f : ℕ) (frame : Frame D) : FrameManager D :=
  { fm with frame := Function.update fm.frame f frame }

/-- The entry of a page. -/
def find (fm : FrameManager D) (key : FrameId) : Option (FrameId × ℕ) :=
  fm.frames.find? fun e => e.1 = key

/-- `LruCache::get` moves the entry to the front. -/
def touch (fm : FrameManager D) (e : FrameId × ℕ) : FrameManager D :=
  { fm with frames := e :: fm.frames.erase e }

/-- Source: `disk_buffer_pool.cpp`, `BPFrameManager::get` -/
def get (fm : FrameManager D) (key : FrameId) : Option ℕ × FrameManager D :=
  match fm.find key with
  | some e => (some e.2, fm.touch e)
  | none => (none, fm)

/-- Source: `disk_buffer_pool.cpp`, `BPFrameManager::alloc` -/
def alloc (fm : FrameManager D) (key : FrameId) : Option ℕ × FrameManager D :=
  match fm.find key with
  | some e => (none, fm.touch e)
  | none =>
    match fm.frees with
    | [] => (none, fm)
    | f :: frees => (some f, { fm with frames := (key, f) :: fm.frames, frees := frees })

/-- Source: `disk_buffer_pool.cpp`, `BPFrameManager::free` -/
def free (fm : FrameManager D) (key : FrameId) (f : ℕ) : RC × FrameManager D :=
  match fm.find key with
  | none => (.genericError, fm)
  | some e =>
    if f ≠ e.2 then (.genericError, fm.touch e)
    else (.success, { fm with frames := fm.frames.erase e, frees := fm.frees ++ [f] })

/-- The unpinned frame used longest ago.
Source: `disk_buffer_pool.cpp`, `BPFrameManager::begin_purge` -/
def beginPurge (fm : FrameManager D) : Option ℕ :=
  (fm.frames.reverse.find? fun e => (fm.frame e.2).pinCount = 0).map (·.2)

/-- Source: `disk_buffer_pool.cpp`, `BPFrameManager::find_list` -/
def findList (fm : FrameManager D) (fileDesc : Int) : List ℕ :=
  (fm.frames.filter fun e => e.1.fileDesc = fileDesc).map (·.2)

end FrameManager

/-! ## The pools -/

/-- The pools, the frames they share and the files on disk. -/
@[ext] structure Store (F D : Type) where
  /-- The open files. -/
  manager : Manager F
  /-- `hdr_frame_` of each pool. -/
  hdrFrame : ℕ → ℕ
  /-- `disposed_pages` of each pool. -/
  disposedPages : ℕ → List ℕ
  /-- `frame_manager_` -/
  frameManager : FrameManager D
  /-- The pages of each file. A file that does not exist has none. -/
  disk : F → List (Page D)

variable {F D : Type} [DecidableEq F] [Inhabited D]

/-- Write a page at its place in the file. What lies between the end of the file and the page
becomes zero. -/
def writePage (pages : List (Page D)) (page : Page D) : List (Page D) :=
  if page.pageNum < pages.length then pages.set page.pageNum page
  else pages ++ List.replicate (page.pageNum - pages.length) ⟨0, .bytes default⟩ ++ [page]

namespace Store

/-- The frame at an address. -/
def frame (s : Store F D) (f : ℕ) : Frame D := s.frameManager.frame f

/-- Change the frame at an address. -/
def setFrame (s : Store F D) (f : ℕ) (frame : Frame D) : Store F D :=
  { s with frameManager := s.frameManager.setFrame f frame }

/-- The pool, if it is open. -/
def openPool (s : Store F D) (id : ℕ) : Option (PoolObject F) :=
  s.manager.pools[id]?.filter fun pool => 0 ≤ pool.fileDesc

/-- Source: `disk_buffer_pool.cpp`, `DiskBufferPool::flush_page` -/
def flushPage (s : Store F D) (id f : ℕ) : Option (Store F D) := do
  let pool ← s.openPool id
  let s := { s with
    disk := Function.update s.disk pool.fileName (writePage (s.disk pool.fileName) (s.frame f).page) }
  return s.setFrame f { s.frame f with dirty := false }

/-- Source: `disk_buffer_pool.cpp`, `BufferPoolManager::flush_page` -/
def managerFlushPage (s : Store F D) (f : ℕ) : Option (RC × Store F D) :=
  match s.manager.fdBufferPools (s.frame f).fileDesc with
  | none => some (.internal, s)
  | some id => (s.flushPage id f).map (RC.success, ·)

/-- Write a dirty frame to its file. -/
def cleanFrame (s : Store F D) (f : ℕ) : Option (RC × Store F D) :=
  if (s.frame f).dirty then s.managerFlushPage f else some (.success, s)

/-- Write the frame to its file if it is dirty and give it back to the allocator: the body of the
loop of `allocate_frame`. -/
def freeFrame (s : Store F D) (f : ℕ) : Option (RC × Store F D) := do
  let (rc, s) ← s.cleanFrame f
  if rc ≠ .success then
    return (rc, s)
  let (_, fm) := s.frameManager.free ⟨(s.frame f).fileDesc, (s.frame f).page.pageNum⟩ f
  return (.success, { s with frameManager := fm })

/-- The loop frees one frame after the other until `alloc` gets one, at most as many as are in use.
Source: `disk_buffer_pool.cpp`, `DiskBufferPool::allocate_frame` -/
def allocateFrame : ℕ → Store F D → FrameId → Option (Except RC ℕ × Store F D)
  | 0, _, _ => none
  | fuel + 1, s, key =>
    match s.frameManager.alloc key with
    | (some f, fm) => some (.ok f, { s with frameManager := fm })
    | (none, fm) =>
      let s := { s with frameManager := fm }
      match s.frameManager.beginPurge with
      | none => some (.error .nomem, s)
      | some f => (s.freeFrame f).bind fun (rc, s) =>
        if rc ≠ .success then some (.error rc, s) else allocateFrame fuel s key

/-- Enough fuel for the loop of `allocateFrame`. -/
def allocateFuel (s : Store F D) : ℕ := s.frameManager.frames.length + 1

/-- Source: `disk_buffer_pool.cpp`, `DiskBufferPool::purge_frame` -/
def purgeFrame (s : Store F D) (id : ℕ) (page f : ℕ) : Option (RC × Store F D) := do
  let pool ← s.openPool id
  if 0 < (s.frame f).pinCount then
    return (.lockedUnlock, s)
  let s ← bif (s.frame f).dirty then s.flushPage id f else some s
  let (_, fm) := s.frameManager.free ⟨pool.fileDesc, page⟩ f
  return (.success, { s with frameManager := fm })

/-- Source: `disk_buffer_pool.cpp`, `DiskBufferPool::purge_page` -/
def purgePage (s : Store F D) (id page : ℕ) : Option (RC × Store F D) := do
  let pool ← s.openPool id
  match s.frameManager.get ⟨pool.fileDesc, page⟩ with
  | (some f, fm) => purgeFrame { s with frameManager := fm } id page f
  | (none, _) => return (.success, s)

/-- Prepare a frame that has been allocated for a page and read the page into it.
Source: `disk_buffer_pool.cpp`, `DiskBufferPool::get_this_page`, `DiskBufferPool::load_page` -/
def loadPage (s : Store F D) (name : F) (key : FrameId) (f : ℕ) : RC × Store F D :=
  match (s.disk name)[key.pageNum]? with
  | some page => (.success, s.setFrame f ⟨false, 1, key.fileDesc, page⟩)
  | none => (.ioerrRead, { s with frameManager := (s.frameManager.free key f).2 })

/-- Source: `disk_buffer_pool.cpp`, `DiskBufferPool::get_this_page` -/
def getThisPage (s : Store F D) (id page : ℕ) : Option (Except RC ℕ × Store F D) := do
  let pool ← s.openPool id
  let key : FrameId := ⟨pool.fileDesc, page⟩
  match s.frameManager.get key with
  | (some f, fm) =>
    let s := { s with frameManager := fm }
    return (.ok f, s.setFrame f { s.frame f with pinCount := (s.frame f).pinCount + 1 })
  | (none, _) =>
    let (allocated, s) ← s.allocateFrame s.allocateFuel key
    match allocated with
    | .error rc => return (.error rc, s)
    | .ok f =>
      let (rc, s) := s.loadPage pool.fileName key f
      return (if rc = .success then .ok f else .error rc, s)

/-- `file_header_` of a pool. -/
def fileHeader (s : Store F D) (id : ℕ) : Option FileHeader :=
  match (s.frame (s.hdrFrame id)).page.data with
  | .header h => some h
  | .bytes _ => none

/-- Change the file header in its frame and mark the frame dirty. -/
def setFileHeader (s : Store F D) (id : ℕ) (h : FileHeader) : Store F D :=
  let frame := s.frame (s.hdrFrame id)
  s.setFrame (s.hdrFrame id) { frame with dirty := true, page := ⟨frame.page.pageNum, .header h⟩ }

end Store

/-- The page that is taken again: the lowest one below `page_count` whose bit is clear, if
`allocated_pages` says that there is one. -/
def FileHeader.freePage (h : FileHeader) : Option ℕ :=
  if h.allocatedPages < h.pageCount then (List.range h.pageCount).find? fun i => !h.bitmap i
  else none

/-- A page that is taken again. -/
def FileHeader.reuse (h : FileHeader) (page : ℕ) : FileHeader :=
  { h with allocatedPages := h.allocatedPages + 1, bitmap := Function.update h.bitmap page true }

/-- A page that is added at the end. -/
def FileHeader.extend (h : FileHeader) : FileHeader where
  pageCount := h.pageCount + 1
  allocatedPages := h.allocatedPages + 1
  bitmap := Function.update h.bitmap h.pageCount true

/-- A page that is given back. -/
def FileHeader.dispose (h : FileHeader) (page : ℕ) : FileHeader :=
  { h with allocatedPages := h.allocatedPages - 1, bitmap := Function.update h.bitmap page false }

namespace Store

/-- The answer names the page and its frame.
Source: `disk_buffer_pool.cpp`, `DiskBufferPool::allocate_page` -/
def allocatePage (s : Store F D) (id : ℕ) : Option (Except RC (ℕ × ℕ) × Store F D) := do
  let pool ← s.openPool id
  let h ← s.fileHeader id
  match h.freePage with
  | some page =>
    let s := s.setFileHeader id (h.reuse page)
    let (got, s) ← s.getThisPage id page
    return (got.map fun f => (page, f), s)
  | none =>
    if maxPageNum ≤ h.pageCount then
      return (.error .bufferpoolNobuf, s)
    let page := h.pageCount
    let (allocated, s) ← s.allocateFrame s.allocateFuel ⟨pool.fileDesc, page⟩
    match allocated with
    | .error rc => return (.error rc, s)
    | .ok f =>
      let s := s.setFileHeader id h.extend
      let s := s.setFrame f ⟨false, 1, pool.fileDesc, ⟨page, .bytes default⟩⟩
      let s ← s.flushPage id f
      return (.ok (page, f), s)

/-- Source: `disk_buffer_pool.cpp`, `DiskBufferPool::dispose_page` -/
def disposePage (s : Store F D) (id page : ℕ) : Option (RC × Store F D) := do
  let (rc, s) ← s.purgePage id page
  if rc ≠ .success then
    return (rc, { s with
      disposedPages := Function.update s.disposedPages id ((s.disposedPages id).insert page) })
  let h ← s.fileHeader id
  return (.success, s.setFileHeader id (h.dispose page))

/-- An assertion stops the program when the frame is not pinned.
Source: `disk_buffer_pool.cpp`, `DiskBufferPool::unpin_page` -/
def unpinPage (s : Store F D) (id f : ℕ) : Option (RC × Store F D) := do
  let _ ← s.openPool id
  if (s.frame f).pinCount = 0 then
    none
  let s := s.setFrame f { s.frame f with pinCount := (s.frame f).pinCount - 1 }
  if (s.frame f).pinCount ≠ 0 then
    return (.success, s)
  let page := (s.frame f).page.pageNum
  if page ∉ s.disposedPages id then
    return (.success, s)
  let (_, s) ← s.disposePage id page
  return (.success, { s with
    disposedPages := Function.update s.disposedPages id ((s.disposedPages id).erase page) })

/-- Source: `disk_buffer_pool.cpp`, `DiskBufferPool::flush_all_pages` -/
def flushAllPages (s : Store F D) (id : ℕ) : Option (RC × Store F D) := do
  let pool ← s.openPool id
  let s ← (s.frameManager.findList pool.fileDesc).foldlM (fun s f => s.flushPage id f) s
  return (.success, s)

/-- Source: `disk_buffer_pool.cpp`, `BufferPoolManager::open_file`, `DiskBufferPool::open_file` -/
def openFile (s : Store F D) (name : F) : Option (RC × Store F D) := do
  if (s.manager.bufferPools name).isSome then
    return (.bufferpoolOpen, s)
  if s.disk name = [] then
    return (.ioerrAccess, s)
  let key : FrameId := ⟨lowestFree s.manager.used, 0⟩
  let (allocated, s) ← s.allocateFrame s.allocateFuel key
  match allocated with
  | .error rc => return (rc, s)
  | .ok f =>
    let (rc, s) := s.loadPage name key f
    let id := s.manager.pools.length
    let (rc, manager) := s.manager.openFile name rc
    return (rc, { s with
      manager := manager
      hdrFrame := Function.update s.hdrFrame id f
      disposedPages := Function.update s.disposedPages id [] })

/-- What `DiskBufferPool::close_file` does before it closes the descriptor.
Source: `disk_buffer_pool.cpp`, `DiskBufferPool::close_file` -/
def purgeHeader (s : Store F D) (id : ℕ) : Option (RC × Store F D) := do
  let f := s.hdrFrame id
  let s := s.setFrame f { s.frame f with pinCount := (s.frame f).pinCount - 1 }
  let (rc, s) ← s.purgePage id 0
  if rc ≠ .success then
    return (rc, s.setFrame f { s.frame f with pinCount := (s.frame f).pinCount + 1 })
  return (.success, { s with disposedPages := Function.update s.disposedPages id [] })

/-- Source: `disk_buffer_pool.cpp`, `DiskBufferPool::close_file` -/
def poolCloseFile (s : Store F D) (id : ℕ) : Option (RC × Store F D) := do
  let _ ← s.openPool id
  let (rc, s) ← s.purgeHeader id
  if rc ≠ .success then
    return (rc, s)
  let (rc, manager) ← s.manager.poolCloseFile 4 id
  return (rc, { s with manager := manager })

/-- The pool takes its frame of the header out before it is deleted. A pool that cannot is deleted
with its file open, which is not defined here.
Source: `disk_buffer_pool.cpp`, `BufferPoolManager::close_file` -/
def closeFile (s : Store F D) (name : F) : Option (RC × Store F D) := do
  match s.manager.bufferPools name with
  | none => return (.internal, s)
  | some id =>
    let (rc, s) ← s.purgeHeader id
    if rc ≠ .success then
      none
    let (rc, manager) ← s.manager.closeFile 4 name
    return (rc, { s with manager := manager })

end Store

/-! ## Clients -/

/-- A frame that a client has pinned. -/
structure Handle where
  /-- The pool it came from. -/
  pool : ℕ
  /-- The page it was asked for. -/
  page : ℕ
  /-- The frame. -/
  frame : ℕ
  deriving DecidableEq, Repr

/-- The pools and what their clients hold. -/
structure Session (F D : Type) where
  /-- The pools. -/
  store : Store F D
  /-- The frames that have been handed out and not unpinned yet. -/
  held : List Handle
  /-- The frames that have been modified and not marked dirty yet. -/
  unmarked : List ℕ

/-- What clients do. -/
inductive PoolOp (F D : Type)
  /-- `BufferPoolManager::open_file` -/
  | openFile (name : F)
  /-- `get_this_page` -/
  | getThisPage (pool page : ℕ)
  /-- Modify the data of a frame. -/
  | write (h : Handle) (d : D)
  /-- `mark_dirty` -/
  | markDirty (h : Handle)
  /-- `unpin_page` -/
  | unpinPage (h : Handle)
  /-- `allocate_page` -/
  | allocatePage (pool : ℕ)
  /-- `dispose_page` -/
  | disposePage (pool page : ℕ)
  /-- `purge_page` -/
  | purgePage (pool page : ℕ)
  /-- `flush_all_pages` -/
  | flushAllPages (pool : ℕ)
  /-- `DiskBufferPool::close_file` -/
  | poolCloseFile (pool : ℕ)
  /-- `BufferPoolManager::close_file` -/
  | closeFile (name : F)

/-- A return code, and the frame that is handed out. -/
structure PoolAnswer where
  /-- The return code. -/
  rc : RC
  /-- The frame. -/
  handle : Option Handle
  deriving DecidableEq, Repr

namespace Session

/-- A call that hands out no frame. -/
def answer (σ : Session F D) (r : RC × Store F D) : PoolAnswer × Session F D :=
  (⟨r.1, none⟩, { σ with store := r.2 })

/-- A call that hands out a frame. -/
def handOut (σ : Session F D) (got : Except RC Handle) (s : Store F D) :
    PoolAnswer × Session F D :=
  match got with
  | .ok h => (⟨.success, some h⟩, { σ with store := s, held := h :: σ.held })
  | .error rc => (⟨rc, none⟩, { σ with store := s })

end Session

/-- What the callers keep to: a client touches only frames that it holds, leaves the file header
alone, marks a modified frame before the last pin on it goes, uses open files only and closes a
file when none of its pages is pinned. -/
def PoolOp.Allowed (σ : Session F D) : PoolOp F D → Prop
  | openFile _ => True
  | getThisPage pool _ | allocatePage pool | disposePage pool _ | purgePage pool _
  | flushAllPages pool => (σ.store.openPool pool).isSome
  | write h _ => h ∈ σ.held ∧ h.page ≠ 0
  | markDirty h => h ∈ σ.held
  | unpinPage h => h ∈ σ.held ∧ (h.frame ∈ σ.unmarked → ∃ h' ∈ σ.held.erase h, h'.frame = h.frame)
  | poolCloseFile pool => (σ.store.openPool pool).isSome ∧ ∀ h ∈ σ.held, h.pool ≠ pool
  | closeFile name => ∀ h ∈ σ.held, σ.store.manager.bufferPools name ≠ some h.pool

instance (σ : Session F D) : (op : PoolOp F D) → Decidable (op.Allowed σ)
  | .openFile _ => inferInstanceAs (Decidable True)
  | .getThisPage pool _ => inferInstanceAs (Decidable (σ.store.openPool pool).isSome)
  | .allocatePage pool => inferInstanceAs (Decidable (σ.store.openPool pool).isSome)
  | .disposePage pool _ => inferInstanceAs (Decidable (σ.store.openPool pool).isSome)
  | .purgePage pool _ => inferInstanceAs (Decidable (σ.store.openPool pool).isSome)
  | .flushAllPages pool => inferInstanceAs (Decidable (σ.store.openPool pool).isSome)
  | .write h _ => inferInstanceAs (Decidable (h ∈ σ.held ∧ h.page ≠ 0))
  | .markDirty h => inferInstanceAs (Decidable (h ∈ σ.held))
  | .unpinPage h => inferInstanceAs (Decidable (h ∈ σ.held ∧
      (h.frame ∈ σ.unmarked → ∃ h' ∈ σ.held.erase h, h'.frame = h.frame)))
  | .poolCloseFile pool => inferInstanceAs (Decidable
      ((σ.store.openPool pool).isSome ∧ ∀ h ∈ σ.held, h.pool ≠ pool))
  | .closeFile name => inferInstanceAs (Decidable
      (∀ h ∈ σ.held, σ.store.manager.bufferPools name ≠ some h.pool))

/-- One call. -/
def PoolOp.step (σ : Session F D) (op : PoolOp F D) : Option (PoolAnswer × Session F D) :=
  if op.Allowed σ then
    match op with
    | openFile name => (σ.store.openFile name).map σ.answer
    | getThisPage pool page => (σ.store.getThisPage pool page).map fun (got, s) =>
        σ.handOut (got.map fun f => ⟨pool, page, f⟩) s
    | write h d =>
        let frame := σ.store.frame h.frame
        let frame := { frame with page := ⟨frame.page.pageNum, .bytes d⟩ }
        some (⟨.success, none⟩, { σ with
          store := σ.store.setFrame h.frame frame, unmarked := h.frame :: σ.unmarked })
    | markDirty h =>
        some (⟨.success, none⟩, { σ with
          store := σ.store.setFrame h.frame { σ.store.frame h.frame with dirty := true }
          unmarked := σ.unmarked.filter (· ≠ h.frame) })
    | unpinPage h => (σ.store.unpinPage h.pool h.frame).map fun r =>
        ({ σ with held := σ.held.erase h }).answer r
    | allocatePage pool => (σ.store.allocatePage pool).map fun (got, s) =>
        σ.handOut (got.map fun (page, f) => ⟨pool, page, f⟩) s
    | disposePage pool page => (σ.store.disposePage pool page).map σ.answer
    | purgePage pool page => (σ.store.purgePage pool page).map σ.answer
    | flushAllPages pool => (σ.store.flushAllPages pool).map σ.answer
    | poolCloseFile pool => (σ.store.poolCloseFile pool).map σ.answer
    | closeFile name => (σ.store.closeFile name).map σ.answer
  else none

/-- A run of calls, with the answers. -/
def runPool : List (PoolOp F D) → Session F D → Option (List PoolAnswer × Session F D)
  | [], σ => some ([], σ)
  | op :: ops, σ => do
    let (a, σ) ← op.step σ
    let (as, σ) ← runPool ops σ
    return (a :: as, σ)

/-- No file is open and all of the `n` frames are free. -/
def Session.init (used : List ℕ) (n : ℕ) (disk : F → List (Page D)) : Session F D where
  store := {
    manager := Manager.init used
    hdrFrame := fun _ => 0
    disposedPages := fun _ => []
    frameManager := ⟨fun _ => ⟨false, 0, -1, ⟨0, .bytes default⟩⟩, [], List.range n⟩
    disk := disk }
  held := []
  unmarked := []

end Miniob.Storage.DiskBufferPool
