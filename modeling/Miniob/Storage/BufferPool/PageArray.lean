import Miniob.Storage.BufferPool.PoolCalls

/-!
# The buffer pool as an array of pages

`PageArray` says what the pool is for: every file is an array of pages, a page holds what was last
written to it, and a frame is a pin on a page. It knows neither frames nor descriptors nor the disk.

* `Simulates.step`: every call that its caller is allowed to make does on the pages what the array
  says, as long as a file is closed only when none of its pages but the header has a frame.
* `pool_refines_pages`: while no file is closed, every call returns, and a frame that is handed out
  holds the bytes last written to its page.
* `closed_file_leaves_nothing`: the same with files that are closed so; what is on disk in a file
  has been a page of that file. `closed_file_returned` shows a page of a closed file under the name
  of another when it has kept its frame.
-/

namespace Miniob.Storage.DiskBufferPool

open Miniob.Storage.BufferPool

variable {F D : Type}

/-- The pages of the files and the pins on them. -/
structure PageArray (F D : Type) where
  /-- The names of the files that have been opened, in the order of opening. -/
  files : List F
  /-- The pages. -/
  content : Content F D
  /-- The pins of the clients. -/
  held : List Handle
  /-- The pages of each pool that are given back with their last pin. -/
  deferred : ℕ → List ℕ

namespace PageArray

/-- The page is pinned; the header page is while the file is open. -/
def Pinned (r : PageArray F D) (pool page : ℕ) : Prop :=
  page = 0 ∨ ∃ h ∈ r.held, h.pool = pool ∧ h.page = page

instance (r : PageArray F D) (pool page : ℕ) : Decidable (r.Pinned pool page) :=
  inferInstanceAs (Decidable (page = 0 ∨ ∃ h ∈ r.held, h.pool = pool ∧ h.page = page))

/-- The name and the header of the file of a pool. -/
def header (r : PageArray F D) (pool : ℕ) : Option (F × FileHeader) :=
  match r.files[pool]? with
  | none => none
  | some name =>
    match r.content name 0 with
    | some (.header hd) => some (name, hd)
    | _ => none

/-- A frame is handed out. -/
def hold (r : PageArray F D) (a : PoolAnswer) : PageArray F D :=
  match a.handle with
  | some h => { r with held := h :: r.held }
  | none => r

variable [DecidableEq F] [Inhabited D]

/-- A page is given back. -/
def dispose (r : PageArray F D) (pool page : ℕ) : PageArray F D :=
  match r.header pool with
  | some (name, hd) => { r with content := r.content.set name 0 (.header (hd.dispose page)) }
  | none => r

/-- A page is taken again, or added if a frame is handed out for it. -/
def allocate (r : PageArray F D) (pool : ℕ) (a : PoolAnswer) : PageArray F D :=
  match r.header pool with
  | none => r
  | some (name, hd) =>
    match hd.freePage, a.handle with
    | some page, _ =>
      hold { r with content := r.content.set name 0 (.header (hd.reuse page)) } a
    | none, some _ => hold { r with content := r.content.extend name hd } a
    | none, none => r

/-- What a call does on the pages, given its answer. -/
def step (r : PageArray F D) (op : PoolOp F D) (a : PoolAnswer) : PageArray F D :=
  match op with
  | .openFile name =>
    if a.rc = .success then
      { r with
        files := r.files ++ [name], deferred := Function.update r.deferred r.files.length [] }
    else r
  | .getThisPage _ _ => r.hold a
  | .write h d =>
    match r.files[h.pool]? with
    | some name => { r with content := r.content.set name h.page (.bytes d) }
    | none => r
  | .unpinPage h =>
    let r' := { r with held := r.held.erase h }
    if h.page ∈ r.deferred h.pool ∧ ¬ r'.Pinned h.pool h.page then
      { r'.dispose h.pool h.page with
        deferred := Function.update r.deferred h.pool ((r.deferred h.pool).erase h.page) }
    else r'
  | .allocatePage pool => r.allocate pool a
  | .disposePage pool page =>
    if r.Pinned pool page then
      { r with deferred := Function.update r.deferred pool ((r.deferred pool).insert page) }
    else r.dispose pool page
  | .markDirty _ | .purgePage _ _ | .flushAllPages _ | .poolCloseFile _ | .closeFile _ => r

end PageArray

/-- The pins that the clients have on a frame. -/
def pinsOf (held : List Handle) (f : ℕ) : ℕ := held.countP fun h => h.frame = f

theorem pinsOf_cons (held : List Handle) (h : Handle) :
    pinsOf (h :: held) = Function.update (pinsOf held) h.frame (pinsOf held h.frame + 1) := by
  funext f
  unfold pinsOf
  rw [List.countP_cons]
  by_cases hf : f = h.frame
  · subst hf
    simp
  · rw [Function.update_of_ne hf]
    simp [Ne.symm hf]

theorem pinsOf_erase {held : List Handle} {h : Handle} (hmem : h ∈ held) :
    pinsOf (held.erase h) =
      Function.update (pinsOf held) h.frame (pinsOf held h.frame - 1) := by
  have hcons := pinsOf_cons (held.erase h) h
  have hperm : pinsOf (h :: held.erase h) = pinsOf held := by
    funext f
    exact (List.perm_cons_erase hmem).symm.countP_eq _
  rw [hperm] at hcons
  rw [hcons]
  simp

theorem pinsOf_pos {held : List Handle} {f : ℕ} : 0 < pinsOf held f ↔ ∃ h ∈ held, h.frame = f := by
  unfold pinsOf
  rw [List.countP_pos_iff]
  simp

/-- **The pools simulate the array of pages.** -/
structure Simulates (seen : F → ℕ → PageData D → Prop) (σ : Session F D) (r : PageArray F D) :
    Prop where
  coherent : Coherent seen σ.store r.content (pinsOf σ.held) (· ∈ σ.unmarked)
  held : r.held = σ.held
  files : r.files = σ.store.manager.pools.map (·.fileName)
  handles : ∀ h ∈ σ.held, ∃ pool, IsOpen σ.store.manager.pools h.pool pool ∧
    (⟨pool.fileDesc, h.page⟩, h.frame) ∈ σ.store.entries
  deferred : ∀ {id pool}, IsOpen σ.store.manager.pools id pool →
    r.deferred id = σ.store.disposedPages id

namespace Simulates

variable {seen : F → ℕ → PageData D → Prop} {σ : Session F D} {r : PageArray F D} {id page : ℕ}
  {pool : PoolObject F} {e : FrameId × ℕ} {h h' : Handle}

theorem files_eq (hs : Simulates seen σ r) (hopen : IsOpen σ.store.manager.pools id pool) :
    r.files[id]? = some pool.fileName := by
  rw [hs.files, List.getElem?_map, hopen.1]
  rfl

theorem header_eq (hs : Simulates seen σ r) (hopen : IsOpen σ.store.manager.pools id pool) :
    ∃ hd, r.header id = some (pool.fileName, hd) ∧
      r.content pool.fileName 0 = some (.header hd) := by
  obtain ⟨hd, -, hcont, -⟩ := hs.coherent.fileHeader_eq hopen
  refine ⟨hd, ?_, hcont⟩
  unfold PageArray.header
  rw [hs.files_eq hopen]
  simp only [hcont]

/-- A handle on the frame of an entry is a handle on its page. -/
theorem handle_iff (hs : Simulates seen σ r) (he : e ∈ σ.store.entries)
    (hopen : IsOpen σ.store.manager.pools id pool) (hdesc : pool.fileDesc = e.1.fileDesc)
    (hmem : h ∈ σ.held) : h.frame = e.2 ↔ h.pool = id ∧ h.page = e.1.pageNum := by
  obtain ⟨pool', hopen', he'⟩ := hs.handles h hmem
  constructor
  · intro hf
    have heq := hs.coherent.table.eq_of_frame he' he hf
    rw [← heq] at hdesc ⊢
    exact ⟨hs.coherent.registry.descs hopen' hopen hdesc.symm, rfl⟩
  · rintro ⟨rfl, hp⟩
    obtain rfl : pool' = pool := Option.some.inj (hopen'.1.symm.trans hopen.1)
    refine congrArg Prod.snd (hs.coherent.table.eq_of_key he' he ?_)
    rw [hp, hdesc]

/-- A page can be purged when the array says that it is not pinned. -/
theorem unpinned_iff (hs : Simulates seen σ r) (hopen : IsOpen σ.store.manager.pools id pool) :
    σ.store.Unpinned ⟨pool.fileDesc, page⟩ ↔ ¬ r.Pinned id page := by
  unfold PageArray.Pinned
  rw [hs.held]
  constructor
  · rintro hun (rfl | ⟨h, hmem, rfl, rfl⟩)
    · have hpin := hs.coherent.pinned _ (hs.coherent.hdr hopen)
      rw [hun _ (hs.coherent.hdr hopen) rfl] at hpin
      simp at hpin
    · obtain ⟨pool', hopen', he⟩ := hs.handles h hmem
      obtain rfl : pool' = pool := Option.some.inj (hopen'.1.symm.trans hopen.1)
      have hpin := hs.coherent.pinned _ he
      rw [hun _ he rfl] at hpin
      have : 0 < pinsOf σ.held h.frame := pinsOf_pos.mpr ⟨h, hmem, rfl⟩
      simp only at hpin
      omega
  · rintro hno e he hkey
    rw [hs.coherent.pinned e he, hkey]
    have hzero : page ≠ 0 := fun hz => hno (Or.inl hz)
    have hnone : ¬ 0 < pinsOf σ.held e.2 := by
      rw [pinsOf_pos]
      rintro ⟨h, hmem, hf⟩
      obtain ⟨hpool, hpage⟩ := (hs.handle_iff he hopen (by rw [hkey]) hmem).mp hf
      refine hno (Or.inr ⟨h, hmem, hpool, ?_⟩)
      rw [hpage, hkey]
    simp only [hzero, if_false]
    omega

/-- The entry of a handle is pinned. -/
theorem pinCount_pos (hs : Simulates seen σ r) (hmem : h ∈ σ.held)
    (he : e ∈ σ.store.entries) (hf : h.frame = e.2) : 0 < (σ.store.frame e.2).pinCount := by
  rw [hs.coherent.pinned e he]
  have : 0 < pinsOf σ.held e.2 := pinsOf_pos.mpr ⟨h, hmem, hf⟩
  omega

/-- The handles stay good. -/
theorem handles_of_kept (hs : Simulates seen σ r) {s' : Store F D} (hkept : Kept σ.store s') :
    ∀ h ∈ σ.held, ∃ pool, IsOpen s'.manager.pools h.pool pool ∧
      (⟨pool.fileDesc, h.page⟩, h.frame) ∈ s'.entries := by
  intro h hmem
  obtain ⟨pool, hopen, he⟩ := hs.handles h hmem
  refine ⟨pool, ?_, (hkept.pinned _ he (hs.pinCount_pos hmem he rfl)).1⟩
  rw [hkept.manager]
  exact hopen

end Simulates

/-- The operation closes a file. -/
def PoolOp.Closes : PoolOp F D → Prop
  | .poolCloseFile _ | .closeFile _ => True
  | _ => False

/-- A file that is closed has no page in a frame but its header. -/
def PoolOp.LeavesNothing [DecidableEq F] (σ : Session F D) : PoolOp F D → Prop
  | .poolCloseFile id => ∀ pool ∈ σ.store.openPool id, σ.store.HeaderOnly pool.fileDesc
  | .closeFile name => ∀ pool ∈ σ.store.manager.pools, 0 ≤ pool.fileDesc → pool.fileName = name →
      σ.store.HeaderOnly pool.fileDesc
  | _ => True

instance (s : Store F D) (fileDesc : Int) : Decidable (s.HeaderOnly fileDesc) :=
  inferInstanceAs (Decidable (∀ e ∈ s.entries, e.1.fileDesc = fileDesc → e.1.pageNum = 0))

instance [DecidableEq F] (σ : Session F D) : (op : PoolOp F D) → Decidable (op.LeavesNothing σ)
  | .poolCloseFile id => inferInstanceAs (Decidable
      (∀ pool ∈ σ.store.openPool id, σ.store.HeaderOnly pool.fileDesc))
  | .closeFile name => inferInstanceAs (Decidable
      (∀ pool ∈ σ.store.manager.pools, 0 ≤ pool.fileDesc → pool.fileName = name →
        σ.store.HeaderOnly pool.fileDesc))
  | .openFile _ | .getThisPage _ _ | .write _ _ | .markDirty _ | .unpinPage _ | .allocatePage _
  | .disposePage _ _ | .purgePage _ _ | .flushAllPages _ => inferInstanceAs (Decidable True)

/-- The page a frame is handed out for. -/
def PageArray.Hands (r : PageArray F D) (op : PoolOp F D) (h : Handle) : Prop :=
  match op with
  | .getThisPage pool page => h.pool = pool ∧ h.page = page
  | .allocatePage pool => h.pool = pool ∧
      ∃ name hd, r.header pool = some (name, hd) ∧ h.page = hd.freePage.getD hd.pageCount
  | _ => False

variable [DecidableEq F] [Inhabited D]

/-- What one call does. -/
structure StepOk (seen : F → ℕ → PageData D → Prop) (σ : Session F D) (r : PageArray F D)
    (op : PoolOp F D) (p : PoolAnswer × Session F D) : Prop where
  /-- The pools go on simulating the array. -/
  simulates : Simulates (addSeen seen (r.step op p.1).content) p.2 (r.step op p.1)
  /-- A frame that is handed out is held from then on. -/
  returned : ∀ h, p.1.handle = some h → h ∈ p.2.held ∧ r.Hands op h
  /-- A pinned frame stays where it is until its last pin goes or its file is closed. -/
  pinned : ∀ e ∈ σ.store.entries, 0 < (σ.store.frame e.2).pinCount →
    e ∈ p.2.store.entries ∨ op.Closes ∨
      ∃ h, op = .unpinPage h ∧ h.frame = e.2 ∧ (σ.store.frame e.2).pinCount = 1
  /-- The registry stays exact while no file is closed. -/
  registered : ¬ op.Closes → Registered σ.store.manager → Registered p.2.store.manager

namespace Simulates

variable {seen : F → ℕ → PageData D → Prop} {σ : Session F D} {r : PageArray F D} {id page : ℕ}
  {pool : PoolObject F} {e : FrameId × ℕ} {h h' : Handle} {op : PoolOp F D}

omit [DecidableEq F] [Inhabited D] in
/-- The pages do not change and the pools keep what is pinned. -/
theorem of_kept (hs : Simulates seen σ r) {s' : Store F D} (hkept : Kept σ.store s')
    (hcoh : Coherent seen s' r.content (pinsOf σ.held) (· ∈ σ.unmarked)) :
    Simulates seen { σ with store := s' } r where
  coherent := hcoh
  held := hs.held
  files := by rw [hs.files, ← hkept.manager]
  handles := hs.handles_of_kept hkept
  deferred {id pool} hopen := by
    have hopen : IsOpen s'.manager.pools id pool := hopen
    rw [hkept.manager] at hopen
    rw [hs.deferred hopen, ← hkept.disposedPages]

omit [DecidableEq F] [Inhabited D] in
/-- More may have been seen. -/
theorem mono {seen' : F → ℕ → PageData D → Prop} (hs : Simulates seen σ r)
    (hseen : ∀ name n d, seen name n d → seen' name n d) : Simulates seen' σ r :=
  { hs with coherent := hs.coherent.mono hseen }

/-- A call that changes no page and hands out nothing. -/
theorem stepOk_of_kept (hs : Simulates seen σ r) {s' : Store F D} (hkept : Kept σ.store s')
    (hcoh : Coherent seen s' r.content (pinsOf σ.held) (· ∈ σ.unmarked)) {rc : RC}
    (hstep : r.step op ⟨rc, none⟩ = r) : StepOk seen σ r op (σ.answer (rc, s')) where
  simulates := by
    show Simulates (addSeen seen (r.step op ⟨rc, none⟩).content) _ (r.step op ⟨rc, none⟩)
    rw [hstep]
    exact (hs.of_kept hkept hcoh).mono fun _ _ _ => Or.inl
  returned := nofun
  pinned e he hpin := Or.inl (hkept.pinned e he hpin).1
  registered _ hreg := by
    rw [← hkept.manager] at hreg
    exact hreg

/-- `open_file` -/
theorem openFile (hs : Simulates seen σ r) (name : F) :
    Defined (Registered σ.store.manager) ((σ.store.openFile name).map σ.answer)
      (StepOk seen σ r (.openFile name)) := by
  refine (hs.coherent.openFile name).map ?_
  rintro ⟨rc, s'⟩ (⟨hrc, hopens⟩ | ⟨hrc, hcoh, hkept⟩)
  · obtain rfl : rc = .success := hrc
    have hpools : s'.manager.pools = σ.store.manager.pools ++
        [⟨name, lowestFree σ.store.manager.used, 0, 0⟩] := by
      rw [hopens.manager]
      rfl
    have hlen : r.files.length = σ.store.manager.pools.length := by
      rw [hs.files, List.length_map]
    have hold : ∀ {id pool}, IsOpen s'.manager.pools id pool ↔
        IsOpen σ.store.manager.pools id pool ∨ id = σ.store.manager.pools.length ∧
          pool = ⟨name, lowestFree σ.store.manager.used, 0, 0⟩ := by
      intro id pool
      rw [hopens.manager]
      exact isOpen_opened
    have hstep : r.step (.openFile name) ⟨.success, none⟩ = { r with
        files := r.files ++ [name], deferred := Function.update r.deferred r.files.length [] } := by
      simp [PageArray.step]
    have hreg : Registered σ.store.manager → Registered s'.manager := by
      intro hreg
      rw [hopens.manager]
      exact hreg.opened hs.coherent.registry
    refine ⟨?_, nofun, fun e he hpin => Or.inl (hopens.pinned e he hpin), fun _ => hreg⟩
    show Simulates (addSeen seen (r.step _ ⟨.success, none⟩).content) { σ with store := s' }
      (r.step _ ⟨.success, none⟩)
    rw [hstep]
    refine ⟨hopens.coherent.mono fun _ _ _ => Or.inl, hs.held, ?_, fun h hmem => ?_,
      fun {id pool} hopen => ?_⟩
    · show r.files ++ [name] = s'.manager.pools.map (·.fileName)
      rw [hpools, List.map_append, hs.files]
      rfl
    · obtain ⟨pool, hopen, he⟩ := hs.handles h hmem
      exact ⟨pool, hold.mpr (Or.inl hopen),
        hopens.pinned _ he (hs.pinCount_pos hmem he rfl)⟩
    · show Function.update r.deferred r.files.length [] id = s'.disposedPages id
      rw [hopens.disposedPages, hlen]
      rcases hold.mp hopen with hopen | ⟨rfl, -⟩
      · have hlt := (List.getElem?_eq_some_iff.mp hopen.1).1
        rw [Function.update_of_ne hlt.ne, Function.update_of_ne hlt.ne, hs.deferred hopen]
      · rw [Function.update_self, Function.update_self]
  · exact hs.stepOk_of_kept hkept hcoh (if_neg hrc)

omit [DecidableEq F] [Inhabited D] in
/-- A frame that is handed out. -/
theorem handOut {s' : Store F D} {r' : PageArray F D} {f : ℕ}
    (hs : Simulates seen σ r) (hkept : Kept σ.store s')
    (hopen : IsOpen σ.store.manager.pools id pool)
    (hcoh : Coherent seen s' r'.content
      (Function.update (pinsOf σ.held) f (pinsOf σ.held f + 1)) (· ∈ σ.unmarked))
    (he : (⟨pool.fileDesc, page⟩, f) ∈ s'.entries) (hheld : r'.held = r.held)
    (hfiles : r'.files = r.files) (hdeferred : r'.deferred = r.deferred) :
    Simulates seen { σ with store := s', held := ⟨id, page, f⟩ :: σ.held }
      (r'.hold ⟨.success, some ⟨id, page, f⟩⟩) where
  coherent := by
    rw [← pinsOf_cons σ.held ⟨id, page, f⟩] at hcoh
    exact hcoh
  held := by
    show ⟨id, page, f⟩ :: r'.held = _
    rw [hheld, hs.held]
  files := by
    show r'.files = s'.manager.pools.map (·.fileName)
    rw [hfiles, hs.files, hkept.manager]
  handles h hmem := by
    rcases List.mem_cons.mp hmem with rfl | hmem
    · refine ⟨pool, ?_, he⟩
      rw [hkept.manager]
      exact hopen
    · exact hs.handles_of_kept hkept h hmem
  deferred {id pool} hopen := by
    have hopen : IsOpen s'.manager.pools id pool := hopen
    rw [hkept.manager] at hopen
    show r'.deferred id = s'.disposedPages id
    rw [hdeferred, hs.deferred hopen, hkept.disposedPages]

/-- `get_this_page` -/
theorem getThisPage (hs : Simulates seen σ r) (hopen : IsOpen σ.store.manager.pools id pool)
    (page : ℕ) :
    Defined (Registered σ.store.manager) ((σ.store.getThisPage id page).map fun (got, s) =>
        σ.handOut (got.map fun f => ⟨id, page, f⟩) s)
      (StepOk seen σ r (.getThisPage id page)) := by
  refine (hs.coherent.getThisPage hopen).map ?_
  rintro ⟨rc | f, s'⟩ ⟨hkept, hgot⟩
  · exact hs.stepOk_of_kept hkept hgot rfl
  · refine ⟨?_, fun h heq => ?_, fun e he hpin => Or.inl (hkept.pinned e he hpin).1,
      fun _ => hkept.registered⟩
    · exact (hs.handOut hkept hopen hgot.1 hgot.2 rfl rfl rfl).mono fun _ _ _ => Or.inl
    · obtain rfl := Option.some.inj heq
      exact ⟨List.mem_cons_self, rfl, rfl⟩

/-- A client changes the frame that it holds. -/
theorem changeHeld (hs : Simulates seen σ r) {frame : Frame D}
    {unmarked : List ℕ} (hpin : frame.pinCount = (σ.store.frame h.frame).pinCount)
    {content : Content F D}
    (hcoh : Coherent (addSeen seen content) (σ.store.setFrame h.frame frame) content
      (pinsOf σ.held) (· ∈ unmarked))
    (hstep : r.step op ⟨.success, none⟩ = { r with content := content }) :
    StepOk seen σ r op (⟨.success, none⟩, { σ with
      store := σ.store.setFrame h.frame frame, unmarked := unmarked }) := by
  have hkept : Kept σ.store (σ.store.setFrame h.frame frame) :=
    Kept.setFrame fun hpos => by rwa [hpin]
  refine ⟨?_, nofun, fun e he hpin => Or.inl (hkept.pinned e he hpin).1,
      fun _ => hkept.registered⟩
  show Simulates (addSeen seen (r.step op ⟨.success, none⟩).content) _ (r.step op ⟨.success, none⟩)
  rw [hstep]
  exact ⟨hcoh, hs.held, hs.files, hs.handles_of_kept hkept, hs.deferred⟩

/-- A client writes to the frame that it holds. -/
theorem write (hs : Simulates seen σ r) (hmem : h ∈ σ.held) (hzero : h.page ≠ 0) (d : D) :
    StepOk seen σ r (.write h d) (⟨.success, none⟩, { σ with
      store := σ.store.setFrame h.frame { σ.store.frame h.frame with
        page := ⟨(σ.store.frame h.frame).page.pageNum, .bytes d⟩ }
      unmarked := h.frame :: σ.unmarked }) := by
  obtain ⟨pool, hopen, he⟩ := hs.handles h hmem
  have hc := hs.coherent
  have hpos : 0 < pinsOf σ.held h.frame := pinsOf_pos.mpr ⟨h, hmem, rfl⟩
  have hmore : Coherent (addSeen seen (r.content.set pool.fileName h.page (.bytes d))) σ.store
      r.content (pinsOf σ.held) (· ∈ σ.unmarked) := hc.mono fun _ _ _ => Or.inl
  have hloose : ∀ f, f ≠ h.frame → (f ∈ h.frame :: σ.unmarked ↔ f ∈ σ.unmarked) :=
    fun f hf => ⟨fun hl => (List.mem_cons.mp hl).resolve_left hf, List.mem_cons_of_mem _⟩
  refine hs.changeHeld rfl (hmore.changeFrame he hopen rfl (hc.labels _ he)
      (fun _ hl => absurd List.mem_cons_self hl) (fun hz => absurd hz hzero) (hc.pinned _ he)
      (fun _ _ => rfl) (fun _ => hpos) hloose (Or.inr (Content.set_self ..))) ?_
  simp only [PageArray.step, hs.files_eq hopen]

/-- A client marks the frame that it holds. -/
theorem markDirty (hs : Simulates seen σ r) (hmem : h ∈ σ.held) :
    StepOk seen σ r (.markDirty h) (⟨.success, none⟩, { σ with
      store := σ.store.setFrame h.frame { σ.store.frame h.frame with dirty := true }
      unmarked := σ.unmarked.filter (· ≠ h.frame) }) := by
  obtain ⟨pool, hopen, he⟩ := hs.handles h hmem
  have hc := hs.coherent
  have hcont := (hc.cached_of_open he hopen rfl).1
  have hmore : Coherent (addSeen seen r.content) σ.store
      r.content (pinsOf σ.held) (· ∈ σ.unmarked) := hc.mono fun _ _ _ => Or.inl
  let frame : Frame D := { σ.store.frame h.frame with dirty := true }
  have hlabel : frame.fileDesc = pool.fileDesc ∧ frame.page.pageNum = h.page := hc.labels _ he
  have hloose : h.frame ∈ σ.unmarked.filter (· ≠ h.frame) → 0 < pinsOf σ.held h.frame :=
    fun hl => by simp at hl
  have hloose' : ∀ f, f ≠ h.frame →
      (f ∈ σ.unmarked.filter (· ≠ h.frame) ↔ f ∈ σ.unmarked) :=
    fun f hf => by simpa using fun _ => hf
  have hcoh := hmore.changeFrame he hopen rfl hlabel nofun (hc.header_of_entry he hopen rfl)
    (hc.pinned _ he) (fun _ _ => rfl) hloose hloose' (Or.inr hcont)
  rw [Content.set_eq_self _ _ _ _ hcont] at hcoh
  exact hs.changeHeld rfl hcoh rfl

/-- `purge_page` -/
theorem purgePage (hs : Simulates seen σ r) (hopen : IsOpen σ.store.manager.pools id pool)
    (page : ℕ) :
    Defined (Registered σ.store.manager) ((σ.store.purgePage id page).map σ.answer)
      (StepOk seen σ r (.purgePage id page)) := by
  obtain ⟨⟨rc, s'⟩, hpurge, hcoh, hkept, -⟩ := hs.coherent.purgePage hopen
  rw [hpurge]
  exact Defined.some (hs.stepOk_of_kept hkept hcoh rfl)

/-- `flush_all_pages` -/
theorem flushAllPages (hs : Simulates seen σ r) (hopen : IsOpen σ.store.manager.pools id pool) :
    Defined (Registered σ.store.manager) ((σ.store.flushAllPages id).map σ.answer)
      (StepOk seen σ r (.flushAllPages id)) := by
  obtain ⟨s', hflush, hcoh, hkept⟩ := hs.coherent.flushAllPages hopen
  rw [hflush]
  exact Defined.some (hs.stepOk_of_kept hkept hcoh rfl)

/-- `dispose_page` -/
theorem disposePage (hs : Simulates seen σ r) (hopen : IsOpen σ.store.manager.pools id pool)
    (page : ℕ) :
    Defined (Registered σ.store.manager) ((σ.store.disposePage id page).map σ.answer)
      (StepOk seen σ r (.disposePage id page)) := by
  obtain ⟨hd, hheader, hcont⟩ := hs.header_eq hopen
  by_cases hpinned : r.Pinned id page
  · -- the page waits for its last pin
    have hun : ¬ σ.store.Unpinned ⟨pool.fileDesc, page⟩ :=
      fun hun => (hs.unpinned_iff hopen).mp hun hpinned
    obtain ⟨⟨rc, s'⟩, s₁, hdispose, hkept, hrc, -, hfail⟩ :=
      hs.coherent.disposePage hopen hcont fun hyes => absurd hyes hun
    obtain ⟨hcoh, rfl⟩ := hfail fun hsuccess => hun (hrc.mp hsuccess)
    rw [hdispose]
    refine Defined.some ⟨?_, nofun, fun e he hpin => Or.inl (hkept.pinned e he hpin).1,
      fun _ => hkept.registered⟩
    have hstep : ∀ a, r.step (.disposePage id page) a = { r with
        deferred := Function.update r.deferred id ((r.deferred id).insert page) } :=
      fun a => if_pos hpinned
    rw [hstep]
    have hsim := hs.of_kept hkept hcoh
    refine ⟨(hcoh.setDisposed _).mono fun _ _ _ => Or.inl, hsim.held, hsim.files, hsim.handles,
      fun {id' pool'} hopen' => ?_⟩
    have hopen' : IsOpen s₁.manager.pools id' pool' := hopen'
    rw [hkept.manager] at hopen'
    show Function.update r.deferred id _ id' = Function.update σ.store.disposedPages id _ id'
    by_cases hid : id' = id
    · subst hid
      rw [Function.update_self, Function.update_self, hs.deferred hopen]
    · rw [Function.update_of_ne hid, Function.update_of_ne hid, hs.deferred hopen']
  · have hun : σ.store.Unpinned ⟨pool.fileDesc, page⟩ := (hs.unpinned_iff hopen).mpr hpinned
    have hmore : Coherent (addSeen seen (r.content.set pool.fileName 0
        (.header (hd.dispose page)))) σ.store r.content (pinsOf σ.held) (· ∈ σ.unmarked) :=
      hs.coherent.mono fun _ _ _ => Or.inl
    obtain ⟨⟨rc, s'⟩, s₁, hdispose, hkept, hrc, hsuccess, -⟩ :=
      hmore.disposePage hopen hcont fun _ => Or.inr (Content.set_self ..)
    obtain ⟨rfl, hcoh⟩ := hsuccess (hrc.mpr hun)
    rw [hdispose]
    refine Defined.some ⟨?_, nofun, fun e he hpin => Or.inl (hkept.pinned e he hpin).1,
      fun _ => hkept.registered⟩
    have hstep : ∀ a, r.step (.disposePage id page) a = { r with
        content := r.content.set pool.fileName 0 (.header (hd.dispose page)) } := by
      intro a
      simp only [PageArray.step, hpinned, if_false, PageArray.dispose, hheader]
    rw [hstep]
    refine ⟨hcoh, hs.held, ?_, hs.handles_of_kept hkept, fun {id' pool'} hopen' => ?_⟩
    · show r.files = _
      rw [hs.files, ← hkept.manager]
      rfl
    · have hopen' : IsOpen s'.manager.pools id' pool' := hopen'
      rw [hkept.manager] at hopen'
      show r.deferred id' = s'.disposedPages id'
      rw [hs.deferred hopen', hkept.disposedPages]

omit [DecidableEq F] [Inhabited D] in
/-- The other pins on the frame of a handle. -/
theorem pinsOf_erase_pos (hs : Simulates seen σ r) (hmem : h ∈ σ.held)
    (hopen : IsOpen σ.store.manager.pools h.pool pool)
    (he : (⟨pool.fileDesc, h.page⟩, h.frame) ∈ σ.store.entries) :
    1 < pinsOf σ.held h.frame ↔ ∃ h' ∈ σ.held.erase h, h'.pool = h.pool ∧ h'.page = h.page := by
  have hpos : 0 < pinsOf σ.held h.frame := pinsOf_pos.mpr ⟨h, hmem, rfl⟩
  have herase : pinsOf (σ.held.erase h) h.frame = pinsOf σ.held h.frame - 1 := by
    rw [pinsOf_erase hmem, Function.update_self]
  have hiff : 1 < pinsOf σ.held h.frame ↔ 0 < pinsOf (σ.held.erase h) h.frame := by omega
  rw [hiff, pinsOf_pos]
  refine exists_congr fun h' => and_congr_right fun hmem' => ?_
  exact hs.handle_iff he hopen rfl (List.mem_of_mem_erase hmem')

omit [DecidableEq F] [Inhabited D] in
/-- The page is given back with this pin when the array says so. -/
theorem givesBack_iff (hs : Simulates seen σ r) (hmem : h ∈ σ.held)
    (hopen : IsOpen σ.store.manager.pools h.pool pool)
    (he : (⟨pool.fileDesc, h.page⟩, h.frame) ∈ σ.store.entries) :
    σ.store.GivesBack h.pool (⟨pool.fileDesc, h.page⟩, h.frame) ↔
      h.page ∈ r.deferred h.pool ∧
        ¬ PageArray.Pinned { r with held := r.held.erase h } h.pool h.page := by
  have hpos : 0 < pinsOf σ.held h.frame := pinsOf_pos.mpr ⟨h, hmem, rfl⟩
  have hpin := hs.coherent.pinned _ he
  have hothers := hs.pinsOf_erase_pos hmem hopen he
  simp only at hpin
  unfold Store.GivesBack PageArray.Pinned
  rw [hs.deferred hopen, hs.held, and_comm]
  refine and_congr_right fun _ => ?_
  rw [not_or, ← hothers, hpin]
  by_cases hzero : h.page = 0
  · rw [if_pos hzero]
    constructor
    · intro hone
      omega
    · exact fun hno => absurd hzero hno.1
  · rw [if_neg hzero]
    constructor
    · intro hone
      exact ⟨hzero, by omega⟩
    · rintro ⟨-, hone⟩
      omega

/-- `unpin_page` -/
theorem unpinPage (hs : Simulates seen σ r) (hmem : h ∈ σ.held)
    (hmarked : h.frame ∈ σ.unmarked → ∃ h' ∈ σ.held.erase h, h'.frame = h.frame) :
    Defined (Registered σ.store.manager) ((σ.store.unpinPage h.pool h.frame).map fun p =>
        ({ σ with held := σ.held.erase h }).answer p)
      (StepOk seen σ r (.unpinPage h)) := by
  obtain ⟨pool, hopen, he⟩ := hs.handles h hmem
  obtain ⟨hd, hheader, hcont⟩ := hs.header_eq hopen
  have hpos : 0 < pinsOf σ.held h.frame := pinsOf_pos.mpr ⟨h, hmem, rfl⟩
  have hloose : h.frame ∈ σ.unmarked → 1 < pinsOf σ.held h.frame := by
    intro hl
    have hrest := pinsOf_pos.mpr (hmarked hl)
    rw [pinsOf_erase hmem, Function.update_self] at hrest
    omega
  have hgives := hs.givesBack_iff hmem hopen he
  -- the array after the call
  obtain ⟨r', hr'⟩ : ∃ r', r' = r.step (.unpinPage h) ⟨.success, none⟩ := ⟨_, rfl⟩
  have hyes : σ.store.GivesBack h.pool (⟨pool.fileDesc, h.page⟩, h.frame) → r' = { r with
      held := r.held.erase h
      content := r.content.set pool.fileName 0 (.header (hd.dispose h.page))
      deferred := Function.update r.deferred h.pool ((r.deferred h.pool).erase h.page) } := by
    intro hg
    have hheader' : PageArray.header { r with held := r.held.erase h } h.pool =
        some (pool.fileName, hd) := hheader
    rw [hr']
    simp only [PageArray.step, if_pos (hgives.mp hg), PageArray.dispose, hheader']
  have hno : ¬ σ.store.GivesBack h.pool (⟨pool.fileDesc, h.page⟩, h.frame) →
      r' = { r with held := r.held.erase h } := by
    intro hg
    rw [hr']
    simp only [PageArray.step, if_neg (hgives.not.mp hg)]
  have hseen : σ.store.GivesBack h.pool (⟨pool.fileDesc, h.page⟩, h.frame) →
      addSeen seen r'.content pool.fileName 0 (.header (hd.dispose h.page)) := by
    intro hg
    rw [hyes hg]
    exact Or.inr (Content.set_self ..)
  have hmore : Coherent (addSeen seen r'.content) σ.store r.content (pinsOf σ.held)
      (· ∈ σ.unmarked) := hs.coherent.mono fun _ _ _ => Or.inl
  obtain ⟨s', hunpin, hmanager, -, hstays, hback, hnot⟩ :=
    hmore.unpinPage he hopen rfl hpos hloose hcont hseen
  rw [hunpin]
  refine Defined.some ⟨?_, fun _ heq => absurd heq (Option.some_ne_none _).symm,
    fun e' he' hpin => ?_, fun _ hreg => ?_⟩
  · show Simulates (addSeen seen (r.step _ ⟨.success, none⟩).content) _
      (r.step _ ⟨.success, none⟩)
    rw [← hr']
    have hhandles : ∀ h' ∈ σ.held.erase h, ∃ pool, IsOpen s'.manager.pools h'.pool pool ∧
        (⟨pool.fileDesc, h'.page⟩, h'.frame) ∈ s'.entries := by
      intro h' hmem'
      have hin := List.mem_of_mem_erase hmem'
      obtain ⟨pool', hopen', he'⟩ := hs.handles h' hin
      refine ⟨pool', by rw [hmanager]; exact hopen', hstays _ he' (hs.pinCount_pos hin he' rfl) ?_⟩
      intro heq
      have hmany : 1 < pinsOf σ.held h.frame := by
        rw [hs.pinsOf_erase_pos hmem hopen he]
        exact ⟨h', hmem', (hs.handle_iff he hopen rfl hin).mp (congrArg Prod.snd heq)⟩
      have hpin := hs.coherent.pinned _ he
      simp only at hpin ⊢
      omega
    by_cases hg : σ.store.GivesBack h.pool (⟨pool.fileDesc, h.page⟩, h.frame)
    · obtain ⟨hcoh, hdisposed⟩ := hback hg
      rw [← pinsOf_erase hmem] at hcoh
      rw [hyes hg] at hcoh ⊢
      refine ⟨hcoh, ?_, ?_, hhandles, fun {id' pool'} hopen' => ?_⟩
      · show r.held.erase h = σ.held.erase h
        rw [hs.held]
      · show r.files = s'.manager.pools.map (·.fileName)
        rw [hs.files, hmanager]
      · have hopen' : IsOpen s'.manager.pools id' pool' := hopen'
        rw [hmanager] at hopen'
        show Function.update r.deferred h.pool _ id' = s'.disposedPages id'
        rw [hdisposed]
        by_cases hid : id' = h.pool
        · subst hid
          rw [Function.update_self, Function.update_self, hs.deferred hopen]
        · rw [Function.update_of_ne hid, Function.update_of_ne hid, hs.deferred hopen']
    · obtain ⟨hcoh, hdisposed⟩ := hnot hg
      rw [← pinsOf_erase hmem] at hcoh
      rw [hno hg] at hcoh ⊢
      refine ⟨hcoh, ?_, ?_, hhandles, fun {id' pool'} hopen' => ?_⟩
      · show r.held.erase h = σ.held.erase h
        rw [hs.held]
      · show r.files = s'.manager.pools.map (·.fileName)
        rw [hs.files, hmanager]
      · have hopen' : IsOpen s'.manager.pools id' pool' := hopen'
        rw [hmanager] at hopen'
        show r.deferred id' = s'.disposedPages id'
        rw [hdisposed, hs.deferred hopen']
  · by_cases hone : e' = (⟨pool.fileDesc, h.page⟩, h.frame) ∧
        ¬ 1 < (σ.store.frame h.frame).pinCount
    · obtain ⟨rfl, hone⟩ := hone
      simp only at hpin ⊢
      exact Or.inr (Or.inr ⟨h, rfl, rfl, by omega⟩)
    · refine Or.inl (hstays e' he' hpin fun heq => ?_)
      by_contra hno
      exact hone ⟨heq, hno⟩
  · show Registered s'.manager
    rw [hmanager]
    exact hreg

/-- `allocate_page` -/
theorem allocatePage (hs : Simulates seen σ r) (hopen : IsOpen σ.store.manager.pools id pool) :
    Defined (Registered σ.store.manager) ((σ.store.allocatePage id).map fun (got, s) =>
        σ.handOut (got.map fun (page, f) => ⟨id, page, f⟩) s)
      (StepOk seen σ r (.allocatePage id)) := by
  obtain ⟨hd, hheader, hcont⟩ := hs.header_eq hopen
  refine (hs.coherent.allocatePage hopen hcont).map ?_
  rintro ⟨rc | ⟨page, f⟩, s'⟩ ⟨hkept, hgot⟩
  · -- no frame is handed out
    cases hfree : hd.freePage with
    | none =>
        rw [hfree] at hgot
        refine hs.stepOk_of_kept hkept hgot ?_
        simp only [PageArray.step, PageArray.allocate, hheader, hfree]
    | some page =>
        rw [hfree] at hgot
        have hstep : r.step (.allocatePage id) ⟨rc, none⟩ = { r with
            content := r.content.set pool.fileName 0 (.header (hd.reuse page)) } := by
          simp only [PageArray.step, PageArray.allocate, hheader, hfree, PageArray.hold]
        refine ⟨?_, fun _ heq => absurd heq (Option.some_ne_none _).symm,
          fun e he hpin => Or.inl (hkept.pinned e he hpin).1, fun _ => hkept.registered⟩
        show Simulates (addSeen seen (r.step _ ⟨rc, none⟩).content) _ (r.step _ ⟨rc, none⟩)
        rw [hstep]
        refine ⟨hgot, hs.held, ?_, hs.handles_of_kept hkept, fun {id' pool'} hopen' => ?_⟩
        · show r.files = s'.manager.pools.map (·.fileName)
          rw [hs.files, hkept.manager]
        · have hopen' : IsOpen s'.manager.pools id' pool' := hopen'
          rw [hkept.manager] at hopen'
          show r.deferred id' = s'.disposedPages id'
          rw [hs.deferred hopen', hkept.disposedPages]
  · -- the pages after the call, and the page they are for
    obtain ⟨r', hstep, hheld, hfiles, hdeferred, hpage, hcoh, he⟩ : ∃ r' : PageArray F D,
        r.step (.allocatePage id) ⟨.success, some ⟨id, page, f⟩⟩ =
          r'.hold ⟨.success, some ⟨id, page, f⟩⟩ ∧
        r'.held = r.held ∧ r'.files = r.files ∧ r'.deferred = r.deferred ∧
        page = hd.freePage.getD hd.pageCount ∧
        Coherent (addSeen seen r'.content) s' r'.content
          (Function.update (pinsOf σ.held) f (pinsOf σ.held f + 1)) (· ∈ σ.unmarked) ∧
        (⟨pool.fileDesc, page⟩, f) ∈ s'.entries := by
      cases hfree : hd.freePage with
      | none =>
          rw [hfree] at hgot
          refine ⟨{ r with content := r.content.extend pool.fileName hd }, ?_, rfl, rfl, rfl, hgot⟩
          simp only [PageArray.step, PageArray.allocate, hheader, hfree]
      | some page' =>
          rw [hfree] at hgot
          refine ⟨{ r with content := r.content.set pool.fileName 0 (.header (hd.reuse page')) },
            ?_, rfl, rfl, rfl, hgot⟩
          simp only [PageArray.step, PageArray.allocate, hheader, hfree]
    have hmore : Simulates (addSeen seen r'.content) σ r := hs.mono fun _ _ _ => Or.inl
    refine ⟨?_, fun h heq => ?_, fun e he hpin => Or.inl (hkept.pinned e he hpin).1,
      fun _ => hkept.registered⟩
    · show Simulates (addSeen seen (r.step _ ⟨.success, some ⟨id, page, f⟩⟩).content) _
        (r.step _ ⟨.success, some ⟨id, page, f⟩⟩)
      rw [hstep]
      exact hmore.handOut hkept hopen hcoh he hheld hfiles hdeferred
    · obtain rfl := Option.some.inj heq
      exact ⟨List.mem_cons_self, rfl, pool.fileName, hd, hheader, hpage⟩

omit [Inhabited D] in
/-- The pools after a file has been closed. -/
theorem of_closes (hs : Simulates seen σ r) (hopen : IsOpen σ.store.manager.pools id pool)
    (hheld : ∀ h ∈ σ.held, h.pool ≠ id) {s' : Store F D}
    (hclose : ClosesFile seen σ.store r.content (pinsOf σ.held) (· ∈ σ.unmarked) id pool s') :
    Simulates seen { σ with store := s' } r := by
  obtain ⟨fd, hmanager⟩ := hclose.manager
  have hopen_iff : ∀ {id' pool'}, IsOpen s'.manager.pools id' pool' ↔
      id' ≠ id ∧ IsOpen σ.store.manager.pools id' pool' := by
    intro id' pool'
    rw [hmanager]
    exact isOpen_drop hopen fd
  refine ⟨hclose.coherent, hs.held, ?_, fun h hmem => ?_, fun {id' pool'} hopen' => ?_⟩
  · show r.files = s'.manager.pools.map (·.fileName)
    rw [hs.files, hmanager]
    show _ = (σ.store.manager.pools.set id (Manager.dropped pool)).map (·.fileName)
    apply List.ext_getElem?
    intro i
    rw [List.getElem?_map, List.getElem?_map]
    by_cases hi : i = id
    · subst hi
      rw [(getElem?_set_iff hopen.1).mpr (Or.inr ⟨rfl, rfl⟩), hopen.1]
      rfl
    · rw [List.getElem?_set_ne (Ne.symm hi)]
  · obtain ⟨pool', hopen', he⟩ := hs.handles h hmem
    refine ⟨pool', hopen_iff.mpr ⟨hheld h hmem, hopen'⟩,
      hclose.pinned _ he (hs.pinCount_pos hmem he rfl) fun heq => hheld h hmem ?_⟩
    exact hs.coherent.registry.descs hopen' hopen (congrArg FrameId.fileDesc heq)
  · obtain ⟨hne, hopen'⟩ := hopen_iff.mp hopen'
    show r.deferred id' = s'.disposedPages id'
    rw [hclose.disposedPages, Function.update_of_ne hne, hs.deferred hopen']

omit [DecidableEq F] [Inhabited D] in
/-- No client has a pin on the header of a file whose pages are not pinned. -/
theorem pinsOf_hdrFrame (hs : Simulates seen σ r) (hopen : IsOpen σ.store.manager.pools id pool)
    (hheld : ∀ h ∈ σ.held, h.pool ≠ id) : pinsOf σ.held (σ.store.hdrFrame id) = 0 := by
  by_contra hne
  obtain ⟨h, hmem, hf⟩ := pinsOf_pos.mp (Nat.pos_of_ne_zero hne)
  exact hheld h hmem ((hs.handle_iff (hs.coherent.hdr hopen) hopen rfl hmem).mp hf).1

/-- Closing a file from the side of its pool. -/
theorem poolCloseFile (hs : Simulates seen σ r) (hopen : IsOpen σ.store.manager.pools id pool)
    (hheld : ∀ h ∈ σ.held, h.pool ≠ id) (honly : σ.store.HeaderOnly pool.fileDesc) :
    Defined (Registered σ.store.manager) ((σ.store.poolCloseFile id).map σ.answer)
      (StepOk seen σ r (.poolCloseFile id)) := by
  obtain ⟨s', hcall, hclose⟩ :=
    hs.coherent.poolCloseFile hopen (hs.pinsOf_hdrFrame hopen hheld) honly
  rw [hcall]
  exact Defined.some ⟨(hs.of_closes hopen hheld hclose).mono fun _ _ _ => Or.inl, nofun,
    fun e he hpin => Or.inr (Or.inl trivial), fun hno => absurd trivial hno⟩

/-- Closing a file by its name. -/
theorem closeFile (hs : Simulates seen σ r) {name : F}
    (hheld : ∀ h ∈ σ.held, σ.store.manager.bufferPools name ≠ some h.pool)
    (honly : ∀ id pool, IsOpen σ.store.manager.pools id pool → pool.fileName = name →
      σ.store.HeaderOnly pool.fileDesc) :
    Defined (Registered σ.store.manager) ((σ.store.closeFile name).map σ.answer)
      (StepOk seen σ r (.closeFile name)) := by
  cases hname : σ.store.manager.bufferPools name with
  | none =>
      have hcall : σ.store.closeFile name = some (.internal, σ.store) := by
        unfold Store.closeFile
        rw [hname]
        rfl
      rw [hcall]
      exact Defined.some (hs.stepOk_of_kept (Kept.refl _) hs.coherent rfl)
  | some id =>
      obtain ⟨pool, hopen, rfl⟩ := (hs.coherent.registry.names name id).mp hname
      have hheld : ∀ h ∈ σ.held, h.pool ≠ id := by
        rintro h hmem rfl
        exact hheld h hmem hname
      obtain ⟨s', hcall, hclose⟩ := hs.coherent.closeFile hopen
        (hs.pinsOf_hdrFrame hopen hheld) (honly id pool hopen rfl)
      have hcall : σ.store.closeFile ((fun x : PoolObject F => x.fileName) pool) =
        some (.success, s') := hcall
      rw [hcall]
      exact Defined.some ⟨(hs.of_closes hopen hheld hclose).mono fun _ _ _ => Or.inl, nofun,
        fun e he hpin => Or.inr (Or.inl trivial), fun hno => absurd trivial hno⟩

/-- **Every call does on the pages what the array says.** -/
theorem step (hs : Simulates seen σ r) (hallowed : op.Allowed σ) (hleaves : op.LeavesNothing σ) :
    Defined (Registered σ.store.manager) (op.step σ) (StepOk seen σ r op) := by
  unfold PoolOp.step
  rw [if_pos hallowed]
  have hpool : ∀ {id}, (σ.store.openPool id).isSome = true →
      ∃ pool, IsOpen σ.store.manager.pools id pool := by
    intro id hsome
    obtain ⟨pool, hpool⟩ := Option.isSome_iff_exists.mp hsome
    exact ⟨pool, openPool_eq_some.mp hpool⟩
  cases op with
  | openFile name => exact hs.openFile name
  | getThisPage id page =>
      obtain ⟨pool, hopen⟩ := hpool hallowed
      exact hs.getThisPage hopen page
  | write h d => exact Defined.some (hs.write hallowed.1 hallowed.2 d)
  | markDirty h => exact Defined.some (hs.markDirty hallowed)
  | unpinPage h => exact hs.unpinPage hallowed.1 hallowed.2
  | allocatePage id =>
      obtain ⟨pool, hopen⟩ := hpool hallowed
      exact hs.allocatePage hopen
  | disposePage id page =>
      obtain ⟨pool, hopen⟩ := hpool hallowed
      exact hs.disposePage hopen page
  | purgePage id page =>
      obtain ⟨pool, hopen⟩ := hpool hallowed
      exact hs.purgePage hopen page
  | flushAllPages id =>
      obtain ⟨pool, hopen⟩ := hpool hallowed
      exact hs.flushAllPages hopen
  | poolCloseFile id =>
      obtain ⟨pool, hopen⟩ := hpool hallowed.1
      exact hs.poolCloseFile hopen hallowed.2 (hleaves pool (openPool_eq_some.mpr hopen))
  | closeFile name =>
      exact hs.closeFile hallowed fun id pool hopen hname =>
        hleaves pool (List.mem_of_getElem? hopen.1) hopen.2 hname

end Simulates

/-! ## Runs -/

/-- The pages of a file as `create_file` and the pools leave them: numbered in order, with a header
in page 0 that counts no more pages than there are. -/
structure WellFormed (pages : List (Page D)) : Prop where
  numbered : ∀ (n : ℕ) (page : Page D), pages[n]? = some page → page.pageNum = n
  header : ∀ page : Page D, pages[0]? = some page →
    ∃ hd, page.data = .header hd ∧ hd.pageCount ≤ pages.length

/-- The pages before any file is opened. -/
def PageArray.init (disk : F → List (Page D)) : PageArray F D where
  files := []
  content := fun name n => (disk name)[n]?.map (·.data)
  held := []
  deferred := fun _ => []

/-- The pages after some calls with their answers. -/
def PageArray.after (disk : F → List (Page D)) (ops : List (PoolOp F D)) (as : List PoolAnswer) :
    PageArray F D :=
  (ops.zip as).foldl (fun r p => r.step p.1 p.2) (PageArray.init disk)

/-- The pages that the files have had after the first calls up to the `k`-th. -/
def SeenUpTo (disk : F → List (Page D)) (ops : List (PoolOp F D)) (as : List PoolAnswer)
    (name : F) (n : ℕ) (d : PageData D) : Prop :=
  ∃ k ≤ ops.length, (PageArray.after disk (ops.take k) (as.take k)).content name n = some d

section Runs

variable {used : List ℕ} {frames : ℕ} {disk : F → List (Page D)} {ops : List (PoolOp F D)}
  {op : PoolOp F D} {as : List PoolAnswer} {a : PoolAnswer} {σ σ' : Session F D}

omit [DecidableEq F] in
/-- With no file open the pages are those of the files. -/
theorem simulates_init (hdisk : ∀ name, WellFormed (disk name))
    {seen : F → ℕ → PageData D → Prop}
    (hseen : ∀ name n d, (PageArray.init disk).content name n = some d → seen name n d) :
    Simulates seen (Session.init used frames disk) (PageArray.init disk) := by
  have hnone : ∀ {id pool}, ¬ IsOpen (Session.init used frames disk).store.manager.pools id pool := by
    rintro id pool ⟨hpool, -⟩
    simp [Session.init, Manager.init] at hpool
  refine ⟨?_, rfl, rfl, fun _ hmem => absurd hmem List.not_mem_nil,
    fun hopen => absurd hopen hnone⟩
  have hinv := Manager.inv_init (F := F) used
  refine
    { registry := ⟨hinv.names, fun hopen => absurd hopen hnone, fun hopen => absurd hopen hnone,
        fun hreg => absurd hreg (Option.some_ne_none _).symm, fun _ hopen => absurd hopen hnone⟩
      table := ⟨List.nodup_nil, List.nodup_range⟩
      labels := fun _ hmem => absurd hmem List.not_mem_nil
      cached := fun _ hmem => absurd hmem List.not_mem_nil
      stored := fun name n _ => rfl
      length := fun name n hsome => ?_
      numbered := fun name => (hdisk name).numbered
      header := fun name d hd => ?_
      shown := hseen
      past := fun name n page hpage => hseen name n page.data ?_
      pinned := fun _ hmem => absurd hmem List.not_mem_nil
      idle := fun f _ => rfl
      loosePinned := fun _ hmem => absurd hmem List.not_mem_nil
      hdr := fun hopen => absurd hopen hnone }
  · have hlt : n < (disk name).length := by simpa [PageArray.init] using hsome
    exact hlt
  · simp only [PageArray.init, Option.map_eq_some_iff] at hd
    obtain ⟨page, hpage, rfl⟩ := hd
    exact (hdisk name).header page hpage
  · have hpage : (disk name)[n]? = some page := hpage
    simp [PageArray.init, hpage]

/-- A run is as long as its answers. -/
theorem length_of_runPool (hrun : runPool ops σ = some (as, σ')) : as.length = ops.length := by
  induction ops generalizing σ as with
  | nil =>
      cases hrun
      rfl
  | cons op ops ih =>
      simp only [runPool, Option.bind_eq_bind, Option.bind_eq_some_iff] at hrun
      obtain ⟨p, -, q, hrest, heq⟩ := hrun
      cases heq
      simp [ih hrest]

/-- A run of a run and one more call. -/
theorem runPool_concat :
    runPool (ops ++ [op]) σ = (runPool ops σ).bind fun p =>
      (op.step p.2).map fun q => (p.1 ++ [q.1], q.2) := by
  induction ops generalizing σ with
  | nil =>
      cases hstep : op.step σ with
      | none => simp [runPool, hstep]
      | some q => simp [runPool, hstep]
  | cons op' ops ih =>
      simp only [runPool, List.cons_append, Option.bind_eq_bind, Option.bind_assoc, ih]
      refine congrArg (Option.bind _) (funext fun p =>
        congrArg (Option.bind _) (funext fun q => ?_))
      cases hstep : op.step q.2 with
      | none => simp [hstep]
      | some q' => simp [hstep]

theorem after_concat (hlen : as.length = ops.length) :
    PageArray.after disk (ops ++ [op]) (as ++ [a]) =
      (PageArray.after disk ops as).step op a := by
  unfold PageArray.after
  rw [List.zip_append hlen.symm, List.foldl_append]
  rfl

/-- The pages seen grow with the run. -/
theorem seenUpTo_concat (hlen : as.length = ops.length) (name : F) (n : ℕ) (d : PageData D)
    (hseen : addSeen (SeenUpTo disk ops as) ((PageArray.after disk ops as).step op a).content
      name n d) : SeenUpTo disk (ops ++ [op]) (as ++ [a]) name n d := by
  rcases hseen with ⟨k, hk, hcont⟩ | hcont
  · refine ⟨k, ?_, ?_⟩
    · rw [List.length_append]
      exact hk.trans (Nat.le_add_right _ _)
    · rw [List.take_append_of_le_length hk, List.take_append_of_le_length (hlen ▸ hk)]
      exact hcont
  · refine ⟨(ops ++ [op]).length, le_rfl, ?_⟩
    have hlen' : (ops ++ [op]).length = (as ++ [a]).length := by simp [hlen]
    rw [List.take_length, hlen', List.take_length, after_concat hlen]
    exact hcont

/-- Every file that the run closes has no page in a frame but its header. -/
def LeavesNothingInRun : List (PoolOp F D) → Session F D → Prop
  | [], _ => True
  | op :: ops, σ => op.LeavesNothing σ ∧ ∀ p ∈ op.step σ, LeavesNothingInRun ops p.2

instance : (ops : List (PoolOp F D)) → (σ : Session F D) → Decidable (LeavesNothingInRun ops σ)
  | [], _ => inferInstanceAs (Decidable True)
  | op :: ops, σ =>
    have : ∀ σ, Decidable (LeavesNothingInRun ops σ) := fun σ =>
      instDecidableLeavesNothingInRun ops σ
    inferInstanceAs (Decidable
      (op.LeavesNothing σ ∧ ∀ p ∈ op.step σ, LeavesNothingInRun ops p.2))

theorem leavesNothingInRun_concat :
    LeavesNothingInRun (ops ++ [op]) σ ↔ LeavesNothingInRun ops σ ∧
      ∀ as σ', runPool ops σ = some (as, σ') → op.LeavesNothing σ' := by
  induction ops generalizing σ with
  | nil =>
      constructor
      · rintro ⟨hop, -⟩
        refine ⟨trivial, fun as σ' hrun => ?_⟩
        cases hrun
        exact hop
      · rintro ⟨-, hop⟩
        exact ⟨hop [] σ rfl, fun _ _ => trivial⟩
  | cons op' ops ih =>
      simp only [List.cons_append, LeavesNothingInRun, ih]
      constructor
      · rintro ⟨hop', hrest⟩
        refine ⟨⟨hop', fun p hp => (hrest p hp).1⟩, fun as σ' hrun => ?_⟩
        simp only [runPool, Option.bind_eq_bind, Option.bind_eq_some_iff] at hrun
        obtain ⟨p, hp, q, hq, heq⟩ := hrun
        cases heq
        exact (hrest p hp).2 _ _ hq
      · rintro ⟨⟨hop', hrest⟩, hop⟩
        refine ⟨hop', fun p hp => ⟨hrest p hp, fun as σ' hrun => hop (p.1 :: as) σ' ?_⟩⟩
        have hp : op'.step σ = some p := hp
        simp only [runPool, hp, hrun, Option.bind_eq_bind, Option.bind_some]
        rfl

theorem allowed_of_step {p : PoolAnswer × Session F D} (hstep : op.step σ = some p) :
    op.Allowed σ := by
  by_contra hno
  unfold PoolOp.step at hstep
  rw [if_neg hno] at hstep
  cases hstep

/-- The pools simulate the array along every run that leaves nothing behind. -/
theorem simulates_run (hdisk : ∀ name, WellFormed (disk name))
    (hrun : runPool ops (Session.init used frames disk) = some (as, σ))
    (hleaves : LeavesNothingInRun ops (Session.init used frames disk)) :
    Simulates (SeenUpTo disk ops as) σ (PageArray.after disk ops as) ∧
      ((∀ op ∈ ops, ¬ op.Closes) → Registered σ.store.manager) := by
  induction ops using List.reverseRecOn generalizing as σ with
  | nil =>
      cases hrun
      refine ⟨simulates_init hdisk fun name n d hd => ⟨0, le_rfl, hd⟩, fun _ => ?_⟩
      exact (Manager.inv_init used).descs
  | append_singleton ops op ih =>
      rw [runPool_concat] at hrun
      obtain ⟨⟨as₀, σ₀⟩, hrun₀, hstep⟩ := Option.bind_eq_some_iff.mp hrun
      obtain ⟨⟨a, σ₁⟩, hcall, heq⟩ := Option.map_eq_some_iff.mp hstep
      cases heq
      obtain ⟨hleaves, hlast⟩ := leavesNothingInRun_concat.mp hleaves
      obtain ⟨hs, hreg⟩ := ih hrun₀ hleaves
      have hok := (hs.step (allowed_of_step hcall) (hlast as₀ σ₀ hrun₀)).of_eq_some hcall
      have hlen := length_of_runPool hrun₀
      rw [after_concat hlen]
      refine ⟨hok.simulates.mono (seenUpTo_concat hlen), fun hno => ?_⟩
      exact hok.registered (hno op (by simp)) (hreg fun op' hop' => hno op' (by simp [hop']))

omit [DecidableEq F] [Inhabited D] in
/-- A frame that is held holds the page it was asked for. -/
theorem Simulates.frame_eq {seen : F → ℕ → PageData D → Prop} {r : PageArray F D} {h : Handle}
    (hs : Simulates seen σ r) (hmem : h ∈ σ.held) :
    ∃ pool, IsOpen σ.store.manager.pools h.pool pool ∧
      (⟨pool.fileDesc, h.page⟩, h.frame) ∈ σ.store.entries ∧
      r.content pool.fileName h.page = some (σ.store.frame h.frame).page.data := by
  obtain ⟨pool, hopen, he⟩ := hs.handles h hmem
  exact ⟨pool, hopen, he, (hs.coherent.cached_of_open he hopen rfl).1⟩

omit [Inhabited D] in
/-- A call that closes no file leaves nothing behind. -/
theorem leavesNothing_of_not_closes (hclose : ¬ op.Closes) : op.LeavesNothing σ := by
  cases op <;> first | exact trivial | exact absurd trivial hclose

theorem leavesNothingInRun_of_not_closes (hclose : ∀ o ∈ ops, ¬ o.Closes) :
    LeavesNothingInRun ops σ := by
  induction ops generalizing σ with
  | nil => exact trivial
  | cons op ops ih =>
      exact ⟨leavesNothing_of_not_closes (hclose op List.mem_cons_self),
        fun p _ => ih fun o ho => hclose o (List.mem_cons_of_mem _ ho)⟩

/-- **The buffer pool refines an array of pages.** After any run in which no file is closed, every
allowed call returns. A frame that it hands out is under the key of its page and holds the bytes
last written to it. No two entries share a page or a frame, and a pinned frame stays under its key
until its last pin goes. -/
theorem pool_refines_pages (hdisk : ∀ name, WellFormed (disk name))
    (hrun : runPool ops (Session.init used frames disk) = some (as, σ))
    (hclose : ∀ o ∈ ops ++ [op], ¬ o.Closes) (hallowed : op.Allowed σ) :
    ∃ a σ', op.step σ = some (a, σ') ∧
      (∀ h, a.handle = some h → (PageArray.after disk ops as).Hands op h ∧
        ∃ pool, IsOpen σ'.store.manager.pools h.pool pool ∧
          (⟨pool.fileDesc, h.page⟩, h.frame) ∈ σ'.store.entries ∧
          (PageArray.after disk (ops ++ [op]) (as ++ [a])).content pool.fileName h.page =
            some (σ'.store.frame h.frame).page.data) ∧
      σ'.store.frameManager.Table ∧
      ∀ e ∈ σ.store.entries, 0 < (σ.store.frame e.2).pinCount → e ∈ σ'.store.entries ∨
        ∃ h, op = .unpinPage h ∧ h.frame = e.2 ∧ (σ.store.frame e.2).pinCount = 1 := by
  have hno : ∀ o ∈ ops, ¬ o.Closes := fun o ho => hclose o (by simp [ho])
  have hop : ¬ op.Closes := hclose op (by simp)
  obtain ⟨hs, hreg⟩ := simulates_run hdisk hrun (leavesNothingInRun_of_not_closes hno)
  obtain ⟨⟨a, σ'⟩, hstep, hok⟩ :=
    (hs.step hallowed (leavesNothing_of_not_closes hop)).isSome (hreg hno)
  refine ⟨a, σ', hstep, fun h hh => ?_, hok.simulates.coherent.table, fun e he hpin => ?_⟩
  · obtain ⟨hmem, hands⟩ := hok.returned h hh
    rw [after_concat (length_of_runPool hrun)]
    exact ⟨hands, hok.simulates.frame_eq hmem⟩
  · rcases hok.pinned e he hpin with hin | hclosed | hlast
    · exact Or.inl hin
    · exact absurd hclosed hop
    · exact Or.inr hlast

/-- A file of a header and one page. -/
def twoPages (x : ℕ) : List (Page ℕ) :=
  [⟨0, .header ⟨2, 2, fun i => i < 2⟩⟩, ⟨1, .bytes x⟩]

/-- Two such files. -/
def twoFiles (name : ℕ) : List (Page ℕ) := if name = 0 then twoPages 5 else twoPages 6

theorem wellFormed_twoPages (x : ℕ) : WellFormed (twoPages x) := by
  refine ⟨fun n page hpage => ?_, fun page hpage => ?_⟩
  · match n, hpage with
    | 0, hpage => cases hpage; rfl
    | 1, hpage => cases hpage; rfl
  · cases hpage
    exact ⟨_, rfl, le_rfl⟩

theorem wellFormed_twoFiles (name : ℕ) : WellFormed (twoFiles name) := by
  unfold twoFiles
  split
  · exact wellFormed_twoPages 5
  · exact wellFormed_twoPages 6

/-- Two frames: page 1 of file 0 is written, unpinned and evicted for a new page. -/
theorem pool_refines_pages_run : ∃ as σ a σ',
    runPool [.openFile 0, .getThisPage 0 1, .write ⟨0, 1, 1⟩ 7, .markDirty ⟨0, 1, 1⟩,
      .unpinPage ⟨0, 1, 1⟩] (Session.init [0, 1, 2] 2 twoFiles) = some (as, σ) ∧
    (PoolOp.allocatePage 0).step σ = some (a, σ') ∧ a.handle = some ⟨0, 2, 1⟩ ∧
    σ'.store.frameManager.Table := by
  have hsome : ((runPool [.openFile 0, .getThisPage 0 1, .write ⟨0, 1, 1⟩ 7, .markDirty ⟨0, 1, 1⟩,
      .unpinPage ⟨0, 1, 1⟩] (Session.init [0, 1, 2] 2 twoFiles)).all fun p =>
        decide ((PoolOp.allocatePage 0).Allowed p.2) && ((PoolOp.allocatePage 0).step p.2).all
          fun q => q.1.handle = some ⟨0, 2, 1⟩) = true := by decide +kernel
  obtain ⟨⟨as, σ⟩, hrun⟩ := Option.isSome_iff_exists.mp
    (show (runPool [.openFile 0, .getThisPage 0 1, .write ⟨0, 1, 1⟩ 7, .markDirty ⟨0, 1, 1⟩,
      .unpinPage ⟨0, 1, 1⟩] (Session.init [0, 1, 2] 2 twoFiles)).isSome by decide +kernel)
  rw [hrun, Option.all_some, Bool.and_eq_true] at hsome
  have hclose : ∀ o ∈ [.openFile 0, .getThisPage 0 1, .write ⟨0, 1, 1⟩ 7, .markDirty ⟨0, 1, 1⟩,
      .unpinPage ⟨0, 1, 1⟩] ++ [(.allocatePage 0 : PoolOp ℕ ℕ)], ¬ o.Closes := by
    simp [PoolOp.Closes]
  obtain ⟨a, σ', hstep, -, htable, -⟩ :=
    pool_refines_pages wellFormed_twoFiles hrun hclose (of_decide_eq_true hsome.1)
  refine ⟨as, σ, a, σ', hrun, hstep, ?_, htable⟩
  simpa [hstep] using hsome.2

/-- **A closed file leaves nothing behind** if none of its pages but the header has a frame when it
is closed: a frame that is handed out holds the bytes of its own file and page, and every page that
is on disk in a file has been that page of that file. -/
theorem closed_file_leaves_nothing (hdisk : ∀ name, WellFormed (disk name))
    (hrun : runPool ops (Session.init used frames disk) = some (as, σ))
    (hleaves : LeavesNothingInRun ops (Session.init used frames disk)) :
    (∀ op a σ', op.step σ = some (a, σ') → op.LeavesNothing σ → ∀ h, a.handle = some h →
      ∃ pool, IsOpen σ'.store.manager.pools h.pool pool ∧
        (PageArray.after disk (ops ++ [op]) (as ++ [a])).content pool.fileName h.page =
          some (σ'.store.frame h.frame).page.data) ∧
      ∀ (name : F) (n : ℕ) (page : Page D), (σ.store.disk name)[n]? = some page →
        SeenUpTo disk ops as name n page.data := by
  obtain ⟨hs, -⟩ := simulates_run hdisk hrun hleaves
  refine ⟨fun op a σ' hstep hop h hh => ?_, hs.coherent.past⟩
  have hok := (hs.step (allowed_of_step hstep) hop).of_eq_some hstep
  obtain ⟨pool, hopen, -, hcont⟩ := hok.simulates.frame_eq (hok.returned h hh).1
  rw [after_concat (length_of_runPool hrun)]
  exact ⟨pool, hopen, hcont⟩

/-- File 0 is written, its page purged and the file closed; file 1 gets its descriptor and the
frame. What file 0 has on disk is its own. -/
theorem closed_file_leaves_nothing_run : ∃ as σ,
    runPool [.openFile 0, .getThisPage 0 1, .write ⟨0, 1, 1⟩ 7, .markDirty ⟨0, 1, 1⟩,
      .unpinPage ⟨0, 1, 1⟩, .purgePage 0 1, .closeFile 0, .openFile 1, .getThisPage 1 1]
      (Session.init [0, 1, 2] 2 twoFiles) = some (as, σ) ∧
    ∀ (name n : ℕ) (page : Page ℕ), (σ.store.disk name)[n]? = some page →
      SeenUpTo twoFiles [.openFile 0, .getThisPage 0 1, .write ⟨0, 1, 1⟩ 7, .markDirty ⟨0, 1, 1⟩,
        .unpinPage ⟨0, 1, 1⟩, .purgePage 0 1, .closeFile 0, .openFile 1, .getThisPage 1 1] as
        name n page.data := by
  obtain ⟨⟨as, σ⟩, hrun⟩ := Option.isSome_iff_exists.mp
    (show (runPool [.openFile 0, .getThisPage 0 1, .write ⟨0, 1, 1⟩ 7, .markDirty ⟨0, 1, 1⟩,
      .unpinPage ⟨0, 1, 1⟩, .purgePage 0 1, .closeFile 0, .openFile 1, .getThisPage 1 1]
      (Session.init [0, 1, 2] 2 twoFiles)).isSome by decide +kernel)
  exact ⟨as, σ, hrun,
    (closed_file_leaves_nothing wellFormed_twoFiles hrun (by decide +kernel)).2⟩

/-- The bytes of a page of a client. -/
def PageData.bytes? {D : Type} : PageData D → Option D
  | .bytes d => some d
  | .header _ => none

/-- File 0 is closed while its page 1 has a frame. File 1 gets its descriptor, and `get_this_page`
on page 1 of file 1 hands out the bytes 7 of file 0 instead of the 6 that file 1 holds. -/
theorem closed_file_returned :
    (runPool [.openFile 0, .getThisPage 0 1, .write ⟨0, 1, 1⟩ 7, .markDirty ⟨0, 1, 1⟩,
      .unpinPage ⟨0, 1, 1⟩, .poolCloseFile 0, .openFile 1, .getThisPage 1 1]
      (Session.init [0, 1, 2] 4 twoFiles)).map (fun p =>
        (p.1.getLast?.map (·.handle), (p.2.store.frame 1).page.data.bytes?,
          (p.2.store.disk 1)[1]?.bind (·.data.bytes?))) =
      some (some (some ⟨1, 1, 1⟩), some 7, some 6) := by
  decide +kernel

end Runs

end Miniob.Storage.DiskBufferPool
