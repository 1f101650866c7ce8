import Miniob.Common.LruOrder
import Miniob.Common.MemPool
import Miniob.Storage.BufferPool.DiskBufferPool

/-!
# The frame manager in memory

`BPFrameManager` has its frames in a least recently used cache and gets them from a memory pool.

* `BPFrameManager`: the cache and the pool, with the calls. The keys are `BPFrameId`s, any type with
  a decidable equality.
* `beginPurge_eq`: the loop of `begin_purge` is a search from the end of the list.
* `beginPurge_run`: after any operations on the cache it finds the unpinned frame that was used
  longest ago.
-/

namespace Miniob.Storage.DiskBufferPool

open Miniob.Lib Miniob.Common Miniob.Storage.BufferPool

/-- Source: `disk_buffer_pool.h`, `class BPFrameManager` -/
structure BPFrameManager (Key : Type) where
  /-- `frames_` -/
  frames : LruCache Key ℕ
  /-- `allocator_` -/
  allocator : MemPoolSimple

namespace BPFrameManager

variable {Key : Type}

/-- `DEFAULT_ITEM_NUM_PER_POOL` -/
def itemNumPerPool : ℤ := 128

/-- A new frame manager. The constructor leaves two members of the pool as they are. -/
def new (dynamic : Bool) (items : ℤ) : BPFrameManager Key := ⟨.empty, .new dynamic items⟩

/-- Source: `disk_buffer_pool.cpp`, `BPFrameManager::init` -/
def init (m : BPFrameManager Key) (poolNum : ℤ) : RC × BPFrameManager Key :=
  let (ret, allocator) := m.allocator.init false poolNum itemNumPerPool
  (if ret = 0 then .success else .genericError, { m with allocator := allocator })

/-- `purge_finder`: keep the frame if its pin count allows it, and stop.
Source: `disk_buffer_pool.h`, `Frame::can_purge` -/
def purgeFinder (pinCount : ℕ → ℕ) (found : Option ℕ) (_ : Key) (frame : ℕ) : Option ℕ × Bool :=
  if pinCount frame ≤ 0 then (some frame, false) else (found, true)

/-- Source: `disk_buffer_pool.cpp`, `BPFrameManager::begin_purge` -/
def beginPurge (m : BPFrameManager Key) (pinCount : ℕ → ℕ) : Option (Option ℕ) :=
  m.frames.foreachReverse (purgeFinder pinCount) none

section calls

variable [DecidableEq Key] (m : BPFrameManager Key)

/-- Source: `disk_buffer_pool.cpp`, `BPFrameManager::get` -/
def get (key : Key) : Option (Option ℕ × BPFrameManager Key) := do
  let (frame, frames) ← m.frames.get key
  return (frame, { m with frames := frames })

/-- A new node of the cache is made at the given address.
Source: `disk_buffer_pool.cpp`, `BPFrameManager::alloc` -/
def alloc (address : ℕ) (key : Key) : Option (Option ℕ × BPFrameManager Key) := do
  let (found, frames) ← m.frames.get key
  if found.isSome then return (none, { m with frames := frames })
  else
    match ← m.allocator.alloc with
    | (none, allocator) => return (none, ⟨frames, allocator⟩)
    | (some frame, allocator) =>
      let frames ← frames.put address key frame
      return (some frame, ⟨frames, allocator⟩)

/-- Source: `disk_buffer_pool.cpp`, `BPFrameManager::free` -/
def free (key : Key) (frame : Option ℕ) : Option (RC × BPFrameManager Key) := do
  match ← m.frames.get key with
  | (none, frames) => return (.genericError, { m with frames := frames })
  | (some frameSource, frames) =>
    if frame ≠ some frameSource then return (.genericError, { m with frames := frames })
    else
      let frames ← frames.remove key
      return (.success, ⟨frames, m.allocator.free frameSource⟩)

end calls

/-- Source: `disk_buffer_pool.cpp`, `BPFrameManager::find_list` -/
def findList (m : BPFrameManager FrameId) (fileDesc : Int) : Option (List ℕ) :=
  m.frames.foreach (fun frames key frame =>
    (if fileDesc = key.fileDesc then frames ++ [frame] else frames, true)) []

/-! ## `begin_purge` -/

section purge

variable {m : BPFrameManager Key} {cells : List (ℕ × Entry Key ℕ)} {pinCount : ℕ → ℕ}

/-- The finder keeps the first unpinned frame. By induction on the entries. -/
theorem visit_purgeFinder (found : Option ℕ) (es : List (Entry Key ℕ)) :
    LruCache.visit (purgeFinder pinCount) found es =
      ((es.find? fun e => decide (pinCount e.value = 0)).map Entry.value).or found := by
  induction es with
  | nil => rfl
  | cons e es ih =>
    rw [LruCache.visit, purgeFinder, List.find?_cons]
    by_cases hpin : pinCount e.value = 0
    · rw [if_pos (Nat.le_of_eq hpin), decide_eq_true hpin]
      rfl
    · rw [if_neg fun hle => hpin (Nat.le_zero.mp hle), decide_eq_false hpin]
      exact ih

/-- **What `begin_purge` returns**: the unpinned frame nearest to the end of the list. -/
theorem beginPurge_eq (h : m.frames.Holds cells) :
    m.beginPurge pinCount = some
      (((cells.map Prod.snd).reverse.find? fun e => decide (pinCount e.value = 0)).map
        Entry.value) := by
  rw [beginPurge, h.foreachReverse_eq, visit_purgeFinder, Option.or_none]

variable [DecidableEq Key] {ops : List (CacheOp Key ℕ)}

/-- The unpinned frame that was used longest ago, if there is one. -/
def LeastRecentlyUsed (ops : List (CacheOp Key ℕ)) (pinCount : ℕ → ℕ) (r : Option ℕ) : Prop :=
  (r = none ↔ ∀ key frame, latest ops key = some frame → 0 < pinCount frame) ∧
    ∀ frame, r = some frame → pinCount frame = 0 ∧ ∃ key, latest ops key = some frame ∧
      ∀ key' frame', latest ops key' = some frame' → pinCount frame' = 0 →
        key' = key ∨ UsedAfter ops key' key

/-- `begin_purge` finds it if the entries have the order of the last uses. -/
theorem beginPurge_leastRecentlyUsed (h : m.frames.Holds cells)
    (hrecalls : Recalls ops (cells.map Prod.snd)) :
    ∃ r, m.beginPurge pinCount = some r ∧ LeastRecentlyUsed ops pinCount r := by
  refine ⟨_, beginPurge_eq h, ?_, fun frame hframe => ?_⟩
  · rw [Option.map_eq_none_iff, hrecalls.find?_reverse_none fun f => decide (pinCount f = 0)]
    simp only [decide_eq_false_iff_not, Nat.pos_iff_ne_zero, ne_eq]
  · obtain ⟨e, hfind, rfl⟩ := Option.map_eq_some_iff.mp hframe
    obtain ⟨hpin, hlatest, hother⟩ :=
      hrecalls.find?_reverse_some (p := fun f => decide (pinCount f = 0)) hfind
    refine ⟨of_decide_eq_true hpin, e.key, hlatest, fun key' frame' hlatest' hpin' => ?_⟩
    exact hother key' frame' hlatest' (decide_eq_true hpin')

/-- **After any operations on a cache** its nodes are in the order of their last uses, from
`lru_front_` to `lru_tail_` and back, and `begin_purge` finds the unpinned frame that was used
longest ago. -/
theorem beginPurge_run (alloc : NodeAllocator) :
    (∀ {K V : Type} [DecidableEq K] (ops : List (CacheOp K V)),
      ∃ c l, LruCache.run alloc 0 .empty ops = some c ∧ LruCache.Ordered ops c l) ∧
      ∀ (ops : List (CacheOp Key ℕ)) (allocator : MemPoolSimple) (pinCount : ℕ → ℕ),
        ∃ frames r, LruCache.run alloc 0 .empty ops = some frames ∧
          beginPurge ⟨frames, allocator⟩ pinCount = some r ∧ LeastRecentlyUsed ops pinCount r := by
  refine ⟨fun ops => LruCache.ordered_run alloc ops, fun ops allocator pinCount => ?_⟩
  obtain ⟨frames, cells, hrun, hholds, hcells⟩ :=
    LruCache.holds_run LruCache.holds_empty alloc 0 ops
  have hrecalls : Recalls ops (cells.map Prod.snd) := by
    rw [hcells]
    exact recalls_run ops
  have hframes : (BPFrameManager.mk frames allocator).frames.Holds cells := hholds
  obtain ⟨r, hpurge, hr⟩ := beginPurge_leastRecentlyUsed hframes hrecalls
  exact ⟨frames, r, hrun, hpurge, hr⟩

end purge

end BPFrameManager

end Miniob.Storage.DiskBufferPool
