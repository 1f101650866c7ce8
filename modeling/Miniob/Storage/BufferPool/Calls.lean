import Miniob.Basic
import Miniob.Lib.Prog

/-!
# The buffer pool as its clients see it

`PoolCall N` is the interface of `DiskBufferPool` and `Frame` that the index and the record file
use, for pages whose data has type `N`: fetch a page, read and write the data of the fetched
frame, mark it dirty, unpin it, allocate and dispose pages, flush. A frame is named by the page
it holds, which is what the pool promises while the frame is pinned.

`FlatPool N` is the pool when no call fails: a flat array of pages with the allocation bitmap of
the file header. `flat` is its handler. `freePage` is the search loop of `allocate_page`: the
lowest page below `page_count` whose bit is clear, else the page `page_count` itself.
-/

namespace Miniob.Storage.BufferPool

open Miniob.Lib

/-- The calls a client makes on a `DiskBufferPool` and on the frames it hands out.
Source: `disk_buffer_pool.h`, `class DiskBufferPool`, `class Frame` -/
inductive PoolCall (N : Type) : Type → Type
  /-- `get_this_page(page_num, &frame)`: pins the page. -/
  | getThisPage (p : Int) : PoolCall N RC
  /-- Read the data of the pinned frame of page `p`. -/
  | data (p : Int) : PoolCall N N
  /-- Overwrite the data of the pinned frame of page `p`. -/
  | setData (p : Int) (n : N) : PoolCall N Unit
  /-- `frame->mark_dirty()`. -/
  | markDirty (p : Int) : PoolCall N Unit
  /-- `unpin_page(frame)`. -/
  | unpinPage (p : Int) : PoolCall N RC
  /-- `allocate_page(&frame)`: pins the new page. -/
  | allocatePage : PoolCall N (RC × Int)
  /-- `dispose_page(page_num)`. -/
  | disposePage (p : Int) : PoolCall N RC
  /-- `flush_all_pages()`. -/
  | flushAllPages : PoolCall N RC

/-- The size of a page. Source: `disk_buffer_pool.h`, `BP_PAGE_SIZE` -/
def bpPageSize : Int := 16384

/-- The size of the data of a page, what is left after the page number.
Source: `disk_buffer_pool.h`, `BP_PAGE_DATA_SIZE` -/
def bpPageDataSize : Int := bpPageSize - 4

/-- Programs that use the pool. -/
abbrev PoolProg (N : Type) := Prog (PoolCall N)

variable {N : Type}

/-- `get_this_page` as a program. -/
def getThisPage (p : Int) : PoolProg N RC := Prog.lift (.getThisPage p)

/-- Reading a frame's data as a program. -/
def data (p : Int) : PoolProg N N := Prog.lift (.data p)

/-- Writing a frame's data as a program. -/
def setData (p : Int) (n : N) : PoolProg N Unit := Prog.lift (.setData p n)

/-- `mark_dirty` as a program. -/
def markDirty (p : Int) : PoolProg N Unit := Prog.lift (.markDirty p)

/-- `unpin_page` as a program. -/
def unpinPage (p : Int) : PoolProg N RC := Prog.lift (.unpinPage p)

/-- `allocate_page` as a program. -/
def allocatePage : PoolProg N (RC × Int) := Prog.lift .allocatePage

/-- `dispose_page` as a program. -/
def disposePage (p : Int) : PoolProg N RC := Prog.lift (.disposePage p)

/-- `flush_all_pages` as a program. -/
def flushAllPages : PoolProg N RC := Prog.lift .flushAllPages

/-! ## The flat pool -/

/-- A file of pages when no call fails: the contents of the pages and the allocation part of the
file header.
Source: `disk_buffer_pool.h`, `struct BPFileHeader` -/
structure FlatPool (N : Type) where
  /-- The data of each page. -/
  page : Int → N
  /-- The number of pages of the file. -/
  pageCount : ℕ
  /-- The allocation bitmap. -/
  bitmap : ℕ → Bool

/-- A new file: one page, which holds the file header.
Source: `disk_buffer_pool.cpp`, `BufferPoolManager::create_file` -/
def FlatPool.created [Inhabited N] : FlatPool N := ⟨fun _ => default, 1, fun i => i = 0⟩

/-- The page `allocate_page` takes: the lowest one below `page_count` whose bit is clear, else the
page after the last.
Source: `disk_buffer_pool.cpp`, `DiskBufferPool::allocate_page` -/
def FlatPool.freePage (s : FlatPool N) : ℕ :=
  ((List.range s.pageCount).find? fun i => !s.bitmap i).getD s.pageCount

/-- The pool after `allocate_page`; a page past the end of the file starts as a cleared page, a
reused one keeps its old data. -/
def FlatPool.allocate [Inhabited N] (s : FlatPool N) : FlatPool N where
  page := if s.freePage < s.pageCount then s.page else Function.update s.page s.freePage default
  pageCount := max s.pageCount (s.freePage + 1)
  bitmap := Function.update s.bitmap s.freePage true

/-- The pool after `dispose_page(p)`. -/
def FlatPool.dispose (s : FlatPool N) (p : Int) : FlatPool N :=
  { s with bitmap := Function.update s.bitmap p.toNat false }

/-- The pool after the data of page `p` has been overwritten. -/
def FlatPool.set (s : FlatPool N) (p : Int) (n : N) : FlatPool N :=
  { s with page := Function.update s.page p n }

/-- The pool whose calls never fail. -/
def flat [Inhabited N] : Handler (PoolCall N) (FlatPool N) := fun _ c s =>
  match c with
  | .getThisPage _ => (.success, s)
  | .data p => (s.page p, s)
  | .setData p n => ((), s.set p n)
  | .markDirty _ => ((), s)
  | .unpinPage _ => (.success, s)
  | .allocatePage => ((.success, (s.freePage : Int)), s.allocate)
  | .disposePage p => (.success, s.dispose p)
  | .flushAllPages => (.success, s)

/-- A page is allocated when its bit is set. -/
def FlatPool.Allocated (s : FlatPool N) (p : Int) : Prop := 0 ≤ p ∧ s.bitmap p.toNat = true

section lemmas

variable (s : FlatPool N)

@[simp] theorem FlatPool.set_page (p q : Int) (n : N) :
    (s.set p n).page q = if q = p then n else s.page q := by
  simp [FlatPool.set, Function.update_apply]

@[simp] theorem FlatPool.set_bitmap (p : Int) (n : N) : (s.set p n).bitmap = s.bitmap := rfl

@[simp] theorem FlatPool.set_pageCount (p : Int) (n : N) :
    (s.set p n).pageCount = s.pageCount := rfl

@[simp] theorem FlatPool.set_set (p : Int) (m n : N) : (s.set p m).set p n = s.set p n := by
  simp [FlatPool.set]

@[simp] theorem FlatPool.dispose_page (p : Int) : (s.dispose p).page = s.page := rfl

@[simp] theorem FlatPool.dispose_pageCount (p : Int) :
    (s.dispose p).pageCount = s.pageCount := rfl

@[simp] theorem FlatPool.allocated_set (p q : Int) (n : N) :
    (s.set p n).Allocated q ↔ s.Allocated q := Iff.rfl

/-- Disposing page `p` takes exactly `p` out of the allocated pages. -/
@[simp] theorem FlatPool.allocated_dispose {p : Int} (hp : 0 ≤ p) (q : Int) :
    (s.dispose p).Allocated q ↔ s.Allocated q ∧ q ≠ p := by
  unfold Allocated dispose
  simp only [Function.update_apply]
  constructor
  · rintro ⟨hq, hb⟩
    split at hb
    · cases hb
    · exact ⟨⟨hq, hb⟩, fun h => by subst h; contradiction⟩
  · rintro ⟨⟨hq, hb⟩, hne⟩
    refine ⟨hq, ?_⟩
    rw [if_neg (by omega)]
    exact hb

variable {s}

/-- The page `allocate_page` takes is not allocated. -/
theorem FlatPool.freePage_not_allocated (hb : ∀ i, s.pageCount ≤ i → s.bitmap i = false) :
    ¬ s.Allocated s.freePage := by
  rintro ⟨-, h⟩
  simp only [Int.toNat_natCast] at h
  unfold freePage at h
  rcases hf : (List.range s.pageCount).find? (fun i => !s.bitmap i) with _ | i
  · rw [hf] at h
    simp [hb] at h
  · have hfree := List.find?_some hf
    rw [hf, Option.getD_some] at h
    simp [h] at hfree

variable [Inhabited N]

/-- Allocation adds the taken page to the allocated pages. -/
@[simp] theorem FlatPool.allocated_allocate (q : Int) :
    s.allocate.Allocated q ↔ s.Allocated q ∨ q = s.freePage := by
  unfold Allocated allocate
  simp only [Function.update_apply]
  constructor
  · rintro ⟨hq, hb⟩
    split at hb
    · exact Or.inr (by omega)
    · exact Or.inl ⟨hq, hb⟩
  · rintro (⟨hq, hb⟩ | rfl)
    · exact ⟨hq, by split <;> simp [hb]⟩
    · simp

/-- Allocation keeps the data of every other page. -/
theorem FlatPool.allocate_page_of_ne {q : Int} (hq : q ≠ s.freePage) :
    s.allocate.page q = s.page q := by
  unfold allocate
  simp only
  split
  · rfl
  · rw [Function.update_of_ne hq]

end lemmas

end Miniob.Storage.BufferPool
