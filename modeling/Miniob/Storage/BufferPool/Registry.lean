import Mathlib.Data.List.Basic
import Mathlib.Data.List.Infix
import Mathlib.Data.List.Nodup
import Mathlib.Data.List.Perm.Subperm
import Mathlib.Logic.Function.Basic
import Mathlib.Tactic.Common
import Miniob.Basic

/-!
# The registry of open files

`BufferPoolManager` keeps the open buffer pools twice, by file name and by descriptor, and a file
can be closed from two sides. `BufferPoolManager::close_file(name)` takes the pool out of both maps
and deletes it, and the destructor closes the descriptor. `DiskBufferPool::close_file()` closes the
descriptor, forgets it, and then asks the manager to close the file, which looks for the forgotten
descriptor in the map.

* `Manager.Exact`: both maps hold exactly the open pools, and every other pool has been closed and
  deleted once.
* `registry_exact_iff`: the registry stays exact along a run exactly if no open pool is closed
  through `DiskBufferPool::close_file()`.

The header page of a pool is pinned by the pool alone, so that closing can purge it.
-/

namespace Miniob.Storage.BufferPool

/-- What the registry sees of a buffer pool. A pool is named by the order of its creation.
Source: `disk_buffer_pool.h`, `class DiskBufferPool` -/
structure PoolObject (F : Type) where
  /-- `file_name_` -/
  fileName : F
  /-- `file_desc_`, `-1` for a closed pool. -/
  fileDesc : Int
  /-- How often its descriptor has been closed. -/
  closed : ℕ
  /-- How often it has been deleted. -/
  deleted : ℕ
  deriving DecidableEq, Repr

/-- Source: `disk_buffer_pool.h`, `class BufferPoolManager` -/
structure Manager (F : Type) where
  /-- All pools that have been made, in the order of their creation. -/
  pools : List (PoolObject F)
  /-- `buffer_pools_` -/
  bufferPools : F → Option ℕ
  /-- `fd_buffer_pools_` -/
  fdBufferPools : Int → Option ℕ
  /-- The descriptors the process has open. -/
  used : List ℕ

variable {F : Type} [DecidableEq F]

/-- The lowest free descriptor. -/
def lowestFree (used : List ℕ) : ℕ :=
  ((List.range (used.length + 1)).find? fun fd => fd ∉ used).getD 0

namespace Manager

/-- No file is open. -/
def init (used : List ℕ) : Manager F := ⟨[], fun _ => none, fun _ => none, used⟩

/-- Change a pool. -/
def modifyPool (m : Manager F) (id : ℕ) (f : PoolObject F → PoolObject F) : Manager F :=
  { m with pools := m.pools.modify id f }

/-- `unordered_map::insert` by file name and by descriptor: a key that is there stays. -/
def register (m : Manager F) (name : F) (fd : Int) (id : ℕ) : Manager F :=
  { m with
    bufferPools := Function.update m.bufferPools name (m.bufferPools name <|> some id)
    fdBufferPools := Function.update m.fdBufferPools fd (m.fdBufferPools fd <|> some id) }

/-- `rc` is the answer of `DiskBufferPool::open_file`, which closes the descriptor again unless it
is `SUCCESS`.
Source: `disk_buffer_pool.cpp`, `BufferPoolManager::open_file`, `DiskBufferPool::open_file` -/
def openFile (m : Manager F) (name : F) (rc : RC) : RC × Manager F :=
  if (m.bufferPools name).isSome then (.bufferpoolOpen, m)
  else if rc = .success then
    let fd := lowestFree m.used
    let id := m.pools.length
    (.success, register { m with pools := m.pools ++ [⟨name, fd, 0, 0⟩], used := fd :: m.used }
      name fd id)
  else (rc, m)

mutual

/-- Source: `disk_buffer_pool.cpp`, `DiskBufferPool::close_file` -/
def poolCloseFile : ℕ → Manager F → ℕ → Option (RC × Manager F)
  | 0, _, _ => none
  | fuel + 1, m, id => do
    let pool ← m.pools[id]?
    if pool.fileDesc < 0 then
      return (.success, m)
    let m := { m with used := m.used.erase pool.fileDesc.toNat }
    let m := m.modifyPool id fun pool => { pool with fileDesc := -1, closed := pool.closed + 1 }
    let (_, m) ← closeFile fuel m pool.fileName
    return (.success, m)

/-- Source: `disk_buffer_pool.cpp`, `BufferPoolManager::close_file` -/
def closeFile : ℕ → Manager F → F → Option (RC × Manager F)
  | 0, _, _ => none
  | fuel + 1, m, name =>
    match m.bufferPools name with
    | none => some (.internal, m)
    | some id => do
      let pool ← m.pools[id]?
      let m := { m with
        fdBufferPools := Function.update m.fdBufferPools pool.fileDesc none
        bufferPools := Function.update m.bufferPools name none }
      -- `delete bp`: the destructor closes the file
      let (_, m) ← poolCloseFile fuel m id
      return (.success, m.modifyPool id fun pool => { pool with deleted := pool.deleted + 1 })

end

/-- The pool that `flush_page` hands a frame of descriptor `fd` to.
Source: `disk_buffer_pool.cpp`, `BufferPoolManager::flush_page` -/
def flushTarget (m : Manager F) (fd : Int) : Option ℕ := m.fdBufferPools fd

end Manager

/-- The operations on files. -/
inductive FileOp (F : Type)
  /-- `BufferPoolManager::open_file`, where opening the file itself answers `rc`. -/
  | openFile (name : F) (rc : RC)
  /-- `BufferPoolManager::close_file` -/
  | closeFile (name : F)
  /-- `DiskBufferPool::close_file`, as `BplusTreeHandler::close` and `Table` call it. -/
  | poolCloseFile (id : ℕ)
  deriving DecidableEq, Repr

/-- One operation. Closing a pool that has been deleted is undefined. The calls nest four deep. -/
def FileOp.step (m : Manager F) : FileOp F → Option (RC × Manager F)
  | openFile name rc => some (m.openFile name rc)
  | closeFile name => m.closeFile 4 name
  | poolCloseFile id =>
    match m.pools[id]? with
    | some pool => if pool.deleted = 0 then m.poolCloseFile 4 id else none
    | none => none

/-- A sequence of operations. -/
def runFileOps : List (FileOp F) → Manager F → Option (Manager F)
  | [], m => some m
  | op :: ops, m => (op.step m).bind fun r => runFileOps ops r.2

/-- The pool is open. -/
def IsOpen (pools : List (PoolObject F)) (id : ℕ) (pool : PoolObject F) : Prop :=
  pools[id]? = some pool ∧ 0 ≤ pool.fileDesc

/-- The map holds exactly the open pools, each under its key. -/
def Indexes {K : Type} (pools : List (PoolObject F)) (key : PoolObject F → K)
    (map : K → Option ℕ) : Prop :=
  ∀ k id, map k = some id ↔ ∃ pool, IsOpen pools id pool ∧ key pool = k

/-- **The registry is exact.** -/
structure Manager.Exact (m : Manager F) : Prop where
  /-- `buffer_pools_` holds the open pools under their names. -/
  names : Indexes m.pools (·.fileName) m.bufferPools
  /-- `fd_buffer_pools_` holds the open pools under their descriptors. -/
  descs : Indexes m.pools (·.fileDesc) m.fdBufferPools
  /-- A pool that is not open has been closed and deleted once. -/
  once : ∀ (id : ℕ) (pool : PoolObject F), m.pools[id]? = some pool →
    pool.closed = (if 0 ≤ pool.fileDesc then 0 else 1) ∧ pool.deleted = pool.closed

/-- The invariant of runs: the registry is exact and open descriptors are in use. -/
structure Manager.Inv (m : Manager F) : Prop extends m.Exact where
  /-- Descriptors of open pools are in use. -/
  inUse : ∀ id pool, IsOpen m.pools id pool → pool.fileDesc.toNat ∈ m.used

section Indexes

variable {K : Type} {pools : List (PoolObject F)} {key : PoolObject F → K} {map : K → Option ℕ}
  {id : ℕ} {pool : PoolObject F}

omit [DecidableEq F]

/-- A new pool comes last. -/
theorem getElem?_concat_iff (new : PoolObject F) :
    (pools ++ [new])[id]? = some pool ↔
      pools[id]? = some pool ∨ id = pools.length ∧ pool = new := by
  rcases lt_trichotomy id pools.length with hlt | rfl | hgt
  · rw [List.getElem?_append_left hlt]
    simp [hlt.ne]
  · simp [eq_comm]
  · rw [List.getElem?_append_right hgt.le, List.getElem?_eq_none (by simp; omega),
      List.getElem?_eq_none hgt.le]
    simp [hgt.ne']

/-- An open pool that is added under a key of its own. -/
theorem Indexes.concat [DecidableEq K] (h : Indexes pools key map) {new : PoolObject F}
    (hnew : 0 ≤ new.fileDesc) (hfree : map (key new) = none) :
    Indexes (pools ++ [new]) key
      (Function.update map (key new) (map (key new) <|> some pools.length)) := by
  intro k id
  simp only [IsOpen, getElem?_concat_iff]
  by_cases hk : k = key new
  · subst hk
    have hnone : ¬ ∃ pool, IsOpen pools id pool ∧ key pool = key new := by
      rw [← h, hfree]
      simp
    rw [Function.update_self, hfree]
    constructor
    · intro heq
      have heq : pools.length = id := Option.some.inj heq
      exact ⟨new, ⟨Or.inr ⟨heq.symm, rfl⟩, hnew⟩, rfl⟩
    · rintro ⟨pool, ⟨hpool | ⟨rfl, rfl⟩, hge⟩, hkey⟩
      · exact absurd ⟨pool, ⟨hpool, hge⟩, hkey⟩ hnone
      · rfl
  · rw [Function.update_of_ne hk, h]
    constructor
    · rintro ⟨pool, ⟨hpool, hge⟩, rfl⟩
      exact ⟨pool, ⟨Or.inl hpool, hge⟩, rfl⟩
    · rintro ⟨pool, ⟨hpool | ⟨rfl, rfl⟩, hge⟩, hkey⟩
      · exact ⟨pool, ⟨hpool, hge⟩, hkey⟩
      · exact absurd hkey.symm hk

/-- The pools other than the changed one stay as they are. -/
theorem getElem?_set_iff {new : PoolObject F} {id' : ℕ} {pool' : PoolObject F}
    (hpool : pools[id]? = some pool) :
    (pools.set id new)[id']? = some pool' ↔
      id' ≠ id ∧ pools[id']? = some pool' ∨ id' = id ∧ pool' = new := by
  have hlt := (List.getElem?_eq_some_iff.mp hpool).1
  rw [List.getElem?_set]
  by_cases hi : id = id'
  · subst hi
    simp [hlt, eq_comm]
  · simp [hi, Ne.symm hi]

/-- Two open pools have different keys. -/
theorem Indexes.inj (h : Indexes pools key map) {id' : ℕ} {pool' : PoolObject F}
    (hopen : IsOpen pools id pool) (hopen' : IsOpen pools id' pool')
    (hkey : key pool' = key pool) : id' = id := by
  have hmap := (h (key pool) id).mpr ⟨pool, hopen, rfl⟩
  have hmap' := (h (key pool) id').mpr ⟨pool', hopen', hkey⟩
  rw [hmap] at hmap'
  exact (Option.some.inj hmap').symm

/-- A pool that is closed and whose key is erased. -/
theorem Indexes.erase [DecidableEq K] (h : Indexes pools key map) {new : PoolObject F}
    (hnew : new.fileDesc < 0) (hopen : IsOpen pools id pool) :
    Indexes (pools.set id new) key (Function.update map (key pool) none) := by
  intro k id'
  simp only [IsOpen, getElem?_set_iff hopen.1]
  by_cases hk : k = key pool
  · subst hk
    rw [Function.update_self]
    constructor
    · intro heq
      cases heq
    · rintro ⟨pool', ⟨⟨hne, hpool'⟩ | ⟨rfl, rfl⟩, hge⟩, hkey⟩
      · exact absurd (h.inj hopen ⟨hpool', hge⟩ hkey) hne
      · omega
  · rw [Function.update_of_ne hk, h]
    constructor
    · rintro ⟨pool', ⟨hpool', hge⟩, rfl⟩
      refine ⟨pool', ⟨Or.inl ⟨?_, hpool'⟩, hge⟩, rfl⟩
      rintro rfl
      rw [hopen.1] at hpool'
      exact hk (congrArg key (Option.some.inj hpool')).symm
    · rintro ⟨pool', ⟨⟨hne, hpool'⟩ | ⟨rfl, rfl⟩, hge⟩, hkey⟩
      · exact ⟨pool', ⟨hpool', hge⟩, hkey⟩
      · omega

/-- Two changes of one pool. -/
theorem modify_modify_pool {f g : PoolObject F → PoolObject F} (hpool : pools[id]? = some pool) :
    (pools.modify id f).modify id g = pools.set id (g (f pool)) := by
  apply List.ext_getElem?
  intro i
  rw [List.getElem?_modify, List.getElem?_modify, List.getElem?_set]
  by_cases hi : id = i
  · subst hi
    obtain ⟨hlt, rfl⟩ := List.getElem?_eq_some_iff.mp hpool
    simp [hlt]
  · simp [hi]

end Indexes

/-- The lowest free descriptor is free. -/
theorem lowestFree_notMem (used : List ℕ) : lowestFree used ∉ used := by
  unfold lowestFree
  cases hf : (List.range (used.length + 1)).find? fun fd => fd ∉ used with
  | some fd =>
      have := List.find?_some hf
      simpa using this
  | none =>
      -- more numbers than descriptors in use
      have hall : ∀ fd ∈ List.range (used.length + 1), fd ∈ used := by
        intro fd hfd
        have := List.find?_eq_none.mp hf fd hfd
        simpa using this
      have hle := (List.subperm_of_subset List.nodup_range hall).length_le
      simp at hle

namespace Manager

variable {m : Manager F} {id : ℕ} {pool : PoolObject F} {name : F}

omit [DecidableEq F] in
/-- In an exact registry a frame reaches the pool that owns it. -/
theorem Exact.flushTarget (h : m.Exact) (hopen : IsOpen m.pools id pool) :
    m.flushTarget pool.fileDesc = some id :=
  (h.descs pool.fileDesc id).mpr ⟨pool, hopen, rfl⟩

omit [DecidableEq F] in
theorem inv_init (used : List ℕ) : (init used : Manager F).Inv := by
  refine ⟨⟨fun name id => ?_, fun fd id => ?_, fun id pool h => ?_⟩, fun id pool h => ?_⟩
  · simp [init, IsOpen]
  · simp [init, IsOpen]
  · simp [init] at h
  · simp [init, IsOpen] at h

/-- A new pool is registered under a new name and a free descriptor. -/
theorem Inv.openFile (h : m.Inv) (name : F) (rc : RC) : (m.openFile name rc).2.Inv := by
  unfold Manager.openFile
  split
  case isTrue => exact h
  case isFalse hname =>
    split
    case isFalse => exact h
    case isTrue =>
      have hname : m.bufferPools name = none := by simpa using hname
      have hfd : m.fdBufferPools (lowestFree m.used : Int) = none := by
        cases hf : m.fdBufferPools (lowestFree m.used : Int) with
        | none => rfl
        | some id =>
            obtain ⟨pool, hopen, heq⟩ := (h.descs _ id).mp hf
            have heq : pool.fileDesc = (lowestFree m.used : Int) := heq
            have := h.inUse id pool hopen
            rw [heq, Int.toNat_natCast] at this
            exact absurd this (lowestFree_notMem m.used)
      let new : PoolObject F := ⟨name, lowestFree m.used, 0, 0⟩
      have hnew : 0 ≤ new.fileDesc := Int.natCast_nonneg _
      refine ⟨⟨h.names.concat hnew hname, h.descs.concat hnew hfd, fun id pool hpool => ?_⟩,
        fun id pool hpool => ?_⟩
      · rcases (getElem?_concat_iff _).mp hpool with hold | ⟨rfl, rfl⟩
        · exact h.once id pool hold
        · simp
      · rcases (getElem?_concat_iff _).mp hpool.1 with hold | ⟨rfl, rfl⟩
        · exact List.mem_cons_of_mem _ (h.inUse id pool ⟨hold, hpool.2⟩)
        · simp [register]

/-! ## Closing -/

/-- A pool that is closed and deleted. -/
def dropped (pool : PoolObject F) : PoolObject F :=
  { pool with fileDesc := -1, closed := pool.closed + 1, deleted := pool.deleted + 1 }

/-- The registry after an open pool is closed, with the descriptor `fd` erased from its map. -/
def drop (m : Manager F) (id : ℕ) (pool : PoolObject F) (fd : Int) : Manager F where
  pools := m.pools.set id (dropped pool)
  bufferPools := Function.update m.bufferPools pool.fileName none
  fdBufferPools := Function.update m.fdBufferPools fd none
  used := m.used.erase pool.fileDesc.toNat

/-- Closing by name takes the pool out of both maps, closes it and deletes it. -/
theorem closeFile_eq (hname : m.bufferPools pool.fileName = some id)
    (hopen : IsOpen m.pools id pool) :
    m.closeFile 4 pool.fileName = some (.success, m.drop id pool pool.fileDesc) := by
  obtain ⟨hpool, hge⟩ := hopen
  simp [closeFile, poolCloseFile, hname, hpool, not_lt.mpr hge, modifyPool, drop]
  exact modify_modify_pool hpool

/-- Closing the pool itself forgets its descriptor first, and erases `-1` instead. -/
theorem poolCloseFile_eq (hname : m.bufferPools pool.fileName = some id)
    (hopen : IsOpen m.pools id pool) :
    m.poolCloseFile 4 id = some (.success, m.drop id pool (-1)) := by
  obtain ⟨hpool, hge⟩ := hopen
  simp [closeFile, poolCloseFile, hname, hpool, not_lt.mpr hge, modifyPool, drop]
  exact modify_modify_pool hpool

/-- Closing an open file by its name. -/
theorem Inv.drop (h : m.Inv) (hopen : IsOpen m.pools id pool) :
    (m.drop id pool pool.fileDesc).Inv := by
  have hneg : (dropped pool).fileDesc < 0 := by simp [dropped]
  refine ⟨⟨h.names.erase hneg hopen, h.descs.erase hneg hopen, fun id' pool' hpool' => ?_⟩,
    fun id' pool' hopen' => ?_⟩
  · rcases (getElem?_set_iff hopen.1).mp hpool' with ⟨-, hold⟩ | ⟨-, rfl⟩
    · exact h.once id' pool' hold
    · obtain ⟨hclosed, hdeleted⟩ := h.once id pool hopen.1
      rw [if_pos hopen.2] at hclosed
      simp [dropped, hdeleted, hclosed]
  · rcases (getElem?_set_iff hopen.1).mp hopen'.1 with ⟨hne, hold⟩ | ⟨-, rfl⟩
    · have hne' : pool'.fileDesc ≠ pool.fileDesc :=
        fun heq => hne (h.descs.inj hopen ⟨hold, hopen'.2⟩ heq)
      refine (List.mem_erase_of_ne ?_).mpr (h.inUse id' pool' ⟨hold, hopen'.2⟩)
      have := hopen.2
      have := hopen'.2
      omega
    · have := hopen'.2
      omega

/-- The descriptor of a pool that closes itself stays in the map. -/
theorem Exact.not_exact_drop (h : m.Exact) (hopen : IsOpen m.pools id pool) :
    ¬ (m.drop id pool (-1)).Exact := by
  intro hexact
  have hne : pool.fileDesc ≠ -1 := by
    have := hopen.2
    omega
  have hdesc : (m.drop id pool (-1)).fdBufferPools pool.fileDesc = some id := by
    show Function.update m.fdBufferPools (-1) none pool.fileDesc = some id
    rw [Function.update_of_ne hne]
    exact (h.descs _ id).mpr ⟨pool, hopen, rfl⟩
  obtain ⟨pool', hopen', -⟩ := (hexact.descs _ id).mp hdesc
  rcases (getElem?_set_iff hopen.1).mp hopen'.1 with ⟨hne, -⟩ | ⟨-, rfl⟩
  · exact hne rfl
  · have := hopen'.2
    simp [dropped] at this

end Manager

/-! ## Runs -/

variable {m m' : Manager F} {ops pre : List (FileOp F)} {op : FileOp F}

/-- The operation closes an open pool from the side of the pool. -/
def FileOp.ClosesPool (m : Manager F) (op : FileOp F) : Prop :=
  ∃ id pool, op = .poolCloseFile id ∧ IsOpen m.pools id pool

/-- One step that closes no open pool from its side. -/
theorem Manager.Inv.step (h : m.Inv) (hclose : ¬ op.ClosesPool m) {rc : RC}
    (hstep : op.step m = some (rc, m')) : m'.Inv := by
  cases op with
  | openFile name rc' =>
      have hstep : m.openFile name rc' = (rc, m') := Option.some.inj hstep
      have := h.openFile name rc'
      rwa [hstep] at this
  | closeFile name =>
      have hstep : m.closeFile 4 name = some (rc, m') := hstep
      cases hname : m.bufferPools name with
      | none =>
          simp [Manager.closeFile, hname] at hstep
          exact hstep.2 ▸ h
      | some id =>
          obtain ⟨pool, hopen, rfl⟩ := (h.names name id).mp hname
          rw [Manager.closeFile_eq hname hopen] at hstep
          cases hstep
          exact h.drop hopen
  | poolCloseFile id =>
      cases hpool : m.pools[id]? with
      | none => simp [FileOp.step, hpool] at hstep
      | some pool =>
          -- the pool has been closed before
          have hneg : pool.fileDesc < 0 := by
            by_contra hge
            exact hclose ⟨id, pool, rfl, hpool, not_lt.mp hge⟩
          have hdeleted : pool.deleted ≠ 0 := by
            obtain ⟨hclosed, hdeleted⟩ := h.once id pool hpool
            rw [if_neg (not_le.mpr hneg)] at hclosed
            omega
          simp [FileOp.step, hpool, hdeleted] at hstep

/-- A step that closes an open pool from its side breaks the registry. -/
theorem Manager.Exact.step_breaks (h : m.Exact) (hclose : op.ClosesPool m) :
    ∃ rc m', op.step m = some (rc, m') ∧ ¬ m'.Exact := by
  obtain ⟨id, pool, rfl, hopen⟩ := hclose
  refine ⟨.success, m.drop id pool (-1), ?_, h.not_exact_drop hopen⟩
  have hdeleted : pool.deleted = 0 := by
    obtain ⟨hclosed, hdeleted⟩ := h.once id pool hopen.1
    rw [if_pos hopen.2] at hclosed
    omega
  have hname := (h.names _ id).mpr ⟨pool, hopen, rfl⟩
  simp only [FileOp.step, hopen.1, hdeleted, if_true]
  exact Manager.poolCloseFile_eq hname hopen

/-- A run of a run and one more operation. -/
theorem runFileOps_concat (hrun : runFileOps pre m = some m') :
    runFileOps (pre ++ [op]) m = (op.step m').map (·.2) := by
  induction pre generalizing m with
  | nil =>
      cases hrun
      cases hstep : op.step m' with
      | none => simp [runFileOps, hstep]
      | some r => simp [runFileOps, hstep]
  | cons op' pre ih =>
      simp only [runFileOps, List.cons_append] at hrun ⊢
      cases hstep : op'.step m with
      | none => simp [hstep] at hrun
      | some r =>
          rw [hstep] at hrun
          exact ih hrun

/-- Some step of the run closes an open pool from its side. -/
def ClosesPoolInRun (m : Manager F) (ops : List (FileOp F)) : Prop :=
  ∃ pre op m', pre ++ [op] <+: ops ∧ runFileOps pre m = some m' ∧ op.ClosesPool m'

/-- The invariant holds along a run that closes no open pool from its side. -/
theorem Manager.Inv.run (h : m.Inv) (hclose : ¬ ClosesPoolInRun m ops)
    (hrun : runFileOps ops m = some m') : m'.Inv := by
  induction ops generalizing m with
  | nil =>
      cases hrun
      exact h
  | cons op ops ih =>
      cases hstep : op.step m with
      | none => simp [runFileOps, hstep] at hrun
      | some r =>
          simp only [runFileOps, hstep, Option.bind_some] at hrun
          have hfirst : ¬ op.ClosesPool m :=
            fun hop => hclose ⟨[], op, m, ⟨ops, rfl⟩, rfl, hop⟩
          refine ih (h.step hfirst hstep) ?_ hrun
          rintro ⟨pre, op', m', ⟨rest, hpre⟩, hrun', hop'⟩
          refine hclose ⟨op :: pre, op', m', ⟨rest, by simpa using hpre⟩, ?_, hop'⟩
          simpa only [runFileOps, hstep, Option.bind_some] using hrun'

/-- **The registry stays exact along a run exactly if no open pool is closed from its own side**,
through `DiskBufferPool::close_file()`. -/
theorem registry_exact_iff (used : List ℕ) (ops : List (FileOp F)) :
    (∀ pre m, pre <+: ops → runFileOps pre (Manager.init used) = some m → m.Exact) ↔
      ¬ ClosesPoolInRun (Manager.init used) ops := by
  constructor
  · rintro hexact ⟨pre, op, m, hpre, hrun, hop⟩
    have hm : m.Exact := hexact pre m ((List.prefix_append _ _).trans hpre) hrun
    obtain ⟨rc, m', hstep, hbroken⟩ := hm.step_breaks hop
    refine hbroken (hexact (pre ++ [op]) m' hpre ?_)
    rw [runFileOps_concat hrun, hstep]
    rfl
  · intro hclose pre m hpre hrun
    refine (Manager.inv_init used).run ?_ hrun |>.toExact
    rintro ⟨pre', op, m', hpre', hrun', hop⟩
    exact hclose ⟨pre', op, m', hpre'.trans hpre, hrun', hop⟩

/-- File 0 is closed through its pool, and its descriptor 3 goes to file 1: the registry leads the
frames of file 1 to the deleted pool of file 0. -/
theorem registry_stale :
    ∃ m, runFileOps [.openFile 0 .success, .poolCloseFile 0, .openFile 1 .success]
        (Manager.init [0, 1, 2] : Manager ℕ) = some m ∧
      IsOpen m.pools 1 ⟨1, 3, 0, 0⟩ ∧ m.flushTarget 3 = some 0 ∧
      m.pools[0]? = some ⟨0, -1, 1, 1⟩ ∧ ¬ m.Exact := by
  refine ⟨_, rfl, ⟨rfl, by decide⟩, rfl, rfl, fun hexact => ?_⟩
  have htarget := (hexact.descs 3 1).mpr ⟨⟨1, 3, 0, 0⟩, ⟨rfl, by decide⟩, rfl⟩
  exact absurd htarget (by decide)

end Miniob.Storage.BufferPool
