import Miniob.Storage.BufferPool.KeyedRuns
import Miniob.Storage.BufferPool.PageArray

/-!
# When the loop of `allocate_frame` ends

* `PoolState.FramesKeyed.stepIo`: every call keeps the frames keyed if clients get pages that
  `allocate_page` has returned and the page that the call adds is written.
* `allocate_frame_ends`: so the loop ends after every run of such calls.
* `allocate_frame_spins`: after a run in which one added page has not been written it never does.
-/

namespace Miniob.Storage.DiskBufferPool

open Miniob.Storage.BufferPool

variable {F D : Type}

/-- `get_this_page` asks for a page that `allocate_page` has returned. -/
def PoolOp.GetsReturned (σ : PoolState F D) : PoolOp F D → Prop
  | getThisPage id page => ∀ pool ∈ σ.store.openPool id, (pool.fileName, page) ∈ σ.returned
  | _ => True

variable [DecidableEq F]

instance (σ : PoolState F D) : (op : PoolOp F D) → Decidable (op.GetsReturned σ)
  | .getThisPage id page => inferInstanceAs
      (Decidable (∀ pool ∈ σ.store.openPool id, (pool.fileName, page) ∈ σ.returned))
  | .openFile _ | .write _ _ | .markDirty _ | .unpinPage _ | .allocatePage _ | .disposePage _ _
  | .purgePage _ _ | .flushAllPages _ | .poolCloseFile _ | .closeFile _ =>
      inferInstanceAs (Decidable True)

variable [Inhabited D]

/-- Every call of a run that gets a page gets one that has been returned. -/
def GetsReturnedInRun : List (PoolOp F D × Faults) → PoolState F D → Prop
  | [], _ => True
  | (op, io) :: ops, σ => op.GetsReturned σ ∧ ∀ p ∈ op.stepIo σ io, GetsReturnedInRun ops p.2

instance : (ops : List (PoolOp F D × Faults)) → (σ : PoolState F D) →
    Decidable (GetsReturnedInRun ops σ)
  | [], _ => inferInstanceAs (Decidable True)
  | (op, io) :: ops, σ =>
    have : ∀ σ, Decidable (GetsReturnedInRun ops σ) := fun σ => instDecidableGetsReturnedInRun ops σ
    inferInstanceAs (Decidable
      (op.GetsReturned σ ∧ ∀ p ∈ op.stepIo σ io, GetsReturnedInRun ops p.2))

/-- The frames carry their keys, with the pins of the clients. -/
def PoolState.FramesKeyed (σ : PoolState F D) : Prop :=
  Keyed σ.returned (pinsOf σ.held) σ.store

variable {σ σ' : PoolState F D} {op : PoolOp F D} {io : Faults} {ops : List (PoolOp F D × Faults)}
  {as : List PoolAnswer} {id f : ℕ} {h' : Handle}

namespace PoolState.FramesKeyed

omit [DecidableEq F] [Inhabited D] in
/-- A frame that a client holds has an entry, and is no header. -/
theorem exists_entry (h : σ.FramesKeyed) (hmem : h' ∈ σ.held) :
    ∃ e ∈ σ.store.entries, e.2 = h'.frame ∧ e.1.pageNum ≠ 0 := by
  have hpos : 0 < pinsOf σ.held h'.frame := pinsOf_pos.mpr ⟨h', hmem, rfl⟩
  obtain ⟨e, he, heq⟩ : ∃ e ∈ σ.store.entries, e.2 = h'.frame := by
    by_contra hno
    have := Keyed.idle h h'.frame fun e he heq => hno ⟨e, he, heq⟩
    omega
  exact ⟨e, he, heq, Keyed.clients h e he (heq ▸ hpos)⟩

omit [DecidableEq F] [Inhabited D] in
/-- A client changes what is in a frame that it holds. -/
theorem setHeld (h : σ.FramesKeyed) (hmem : h' ∈ σ.held) {frame : Frame D}
    (hlabel : frame.fileDesc = (σ.store.frame h'.frame).fileDesc ∧
      frame.page.pageNum = (σ.store.frame h'.frame).page.pageNum)
    (hpin : frame.pinCount = (σ.store.frame h'.frame).pinCount) :
    Keyed σ.returned (pinsOf σ.held) (σ.store.setFrame h'.frame frame) := by
  obtain ⟨e, he, heq, hzero⟩ := h.exists_entry hmem
  rw [← heq] at hlabel hpin ⊢
  refine Keyed.setFrame h he ?_ (hpin.trans (Keyed.pinned h e he)) (fun _ _ => rfl)
    (fun _ => hzero) fun {id pool} hopen hframe => ?_
  · rw [hlabel.1, hlabel.2]
    exact Keyed.labels h e he
  · have hhdr := Keyed.hdr h hopen
    have heq' := (Keyed.table h).eq_of_frame hhdr he hframe
    exact absurd (congrArg (fun x => x.1.pageNum) heq').symm hzero

end PoolState.FramesKeyed

/-- What a call keeps. -/
structure KeepsFrames (σ : PoolState F D) (op : PoolOp F D) (σ' : PoolState F D) : Prop where
  keyed : σ'.FramesKeyed
  /-- Only a pool that closes itself leaves its descriptor in the map. -/
  leads : (∀ id, op ≠ .poolCloseFile id) → LeadsToOpen σ.store.manager →
    LeadsToOpen σ'.store.manager

omit [DecidableEq F] [Inhabited D] in
/-- A call that hands out no frame. -/
theorem keepsFrames_answer {r : RC × FaultyStore F D} {writes : List Bool}
    (hr : Leads σ.returned (pinsOf σ.held) ⟨σ.store, writes⟩ r.2) :
    KeepsFrames σ op (σ.answer r).2 :=
  ⟨hr.keyed, fun _ => hr.leads⟩

/-- Every call keeps the frames keyed. -/
theorem PoolState.FramesKeyed.stepIo (h : σ.FramesKeyed) (hgets : op.GetsReturned σ)
    (hadded : io.added = false) : Defined False (op.stepIo σ io) fun p => KeepsFrames σ op p.2 := by
  have hw : Keyed σ.returned (pinsOf σ.held) (FaultyStore.store ⟨σ.store, io.writes⟩) := h
  cases op with
  | openFile name =>
    exact (FaultyStore.openFile_leads hw).map fun r hr => keepsFrames_answer hr
  | getThisPage id page =>
    refine (FaultyStore.getThisPage_hands hw hgets).map ?_
    rintro ⟨rc | f, w⟩ hgot
    · exact ⟨hgot.keyed, fun _ => hgot.leads.leads⟩
    · refine ⟨?_, fun _ => hgot.leads.leads⟩
      show Keyed σ.returned (pinsOf (⟨id, page, f⟩ :: σ.held)) w.store
      rw [pinsOf_cons]
      exact hgot.keyed
  | write h' d =>
    show Defined False (if _ then _ else _) _
    split
    case isTrue hmem => exact Defined.some ⟨h.setHeld hmem ⟨rfl, rfl⟩ rfl, fun _ hleads => hleads⟩
    case isFalse => exact Defined.none
  | markDirty h' =>
    show Defined False (if _ then _ else _) _
    split
    case isTrue hmem => exact Defined.some ⟨h.setHeld hmem ⟨rfl, rfl⟩ rfl, fun _ hleads => hleads⟩
    case isFalse => exact Defined.none
  | unpinPage h' =>
    show Defined False (if _ then _ else _) _
    split
    case isTrue hmem =>
      refine (FaultyStore.unpinPage_keeps hw (pinsOf_pos.mpr ⟨h', hmem, rfl⟩)).map fun r hr => ?_
      rw [← pinsOf_erase hmem] at hr
      exact ⟨hr.keyed, fun _ => hr.leads.leads⟩
    case isFalse => exact Defined.none
  | allocatePage id =>
    refine (Defined.self _).bind fun pool hpool => ?_
    refine (FaultyStore.allocatePage_hands hw (openPool_eq_some.mp hpool) hadded).bind ?_
    rintro ⟨rc | ⟨p, f⟩, w⟩ hgot
    · exact Defined.some ⟨hgot.keyed, fun _ => hgot.leads.leads⟩
    · refine Defined.some ⟨?_, fun _ => hgot.leads.leads⟩
      show Keyed ((pool.fileName, p) :: σ.returned) (pinsOf (⟨id, p, f⟩ :: σ.held)) w.store
      rw [pinsOf_cons]
      exact hgot.keyed
  | disposePage id page =>
    exact (FaultyStore.disposePage_keeps hw).map fun r hr => keepsFrames_answer hr.leads
  | purgePage id page =>
    exact (FaultyStore.purgePage_keeps hw).map fun r hr => keepsFrames_answer hr.1.leads
  | flushAllPages id =>
    exact (FaultyStore.flushAllPages_keeps hw).map fun r hr => keepsFrames_answer hr.leads
  | poolCloseFile id =>
    exact (FaultyStore.poolCloseFile_keyed hw).map fun r hr =>
      ⟨hr, fun hne => absurd rfl (hne id)⟩
  | closeFile name =>
    exact (FaultyStore.closeFile_leads hw).map fun r hr => keepsFrames_answer hr

/-- **Every run keeps the frames keyed** whose added pages are written. -/
theorem PoolState.FramesKeyed.runIo (h : σ.FramesKeyed) (hgets : GetsReturnedInRun ops σ)
    (hadded : ∀ o ∈ ops, o.2.added = false) (hrun : runIo ops σ = some (as, σ')) :
    σ'.FramesKeyed ∧ ((∀ o ∈ ops, ∀ id, o.1 ≠ .poolCloseFile id) →
      LeadsToOpen σ.store.manager → LeadsToOpen σ'.store.manager) := by
  induction ops generalizing σ as with
  | nil =>
    cases hrun
    exact ⟨h, fun _ hleads => hleads⟩
  | cons o ops ih =>
    obtain ⟨op, io⟩ := o
    simp only [DiskBufferPool.runIo, Option.bind_eq_bind, Option.bind_eq_some_iff] at hrun
    obtain ⟨⟨a, σ₁⟩, hstep, ⟨as₁, σ₂⟩, hrest, heq⟩ := hrun
    cases heq
    obtain ⟨hop, hgets⟩ := hgets
    have hkept := (h.stepIo hop (hadded _ List.mem_cons_self)).of_eq_some hstep
    obtain ⟨hkeyed, hleads⟩ := ih hkept.keyed (hgets _ hstep)
      (fun o ho => hadded o (List.mem_cons_of_mem _ ho)) hrest
    refine ⟨hkeyed, fun hno hbefore => hleads (fun o ho => hno o (List.mem_cons_of_mem _ ho)) ?_⟩
    exact hkept.leads (hno _ List.mem_cons_self) hbefore

/-- No file is open, and the files are as `create_file` makes them. -/
theorem framesKeyed_init {used : List ℕ} {n : ℕ} {disk : F → List (Page D)}
    (hdisk : ∀ name, disk name = [] ∨ disk name = createdFile) :
    (PoolState.init used n disk).FramesKeyed := by
  have hnone : ∀ {id pool},
      ¬ IsOpen (PoolState.init used n disk).store.manager.pools id pool := by
    rintro id pool ⟨hpool, -⟩
    simp [PoolState.init, Session.init, Manager.init] at hpool
  refine
    { registry := ⟨(Manager.inv_init used).names, fun hopen => absurd hopen hnone,
        fun hopen => absurd hopen hnone, fun hreg => absurd hreg (Option.some_ne_none _).symm,
        fun _ hopen => absurd hopen hnone⟩
      table := table_init
      labels := fun _ hmem => absurd hmem List.not_mem_nil
      pinned := fun _ hmem => absurd hmem List.not_mem_nil
      idle := fun _ _ => rfl
      clients := fun _ hmem => absurd hmem List.not_mem_nil
      zero := fun _ hmem => absurd hmem List.not_mem_nil
      hdr := fun hopen => absurd hopen hnone
      header := fun hopen => absurd hopen hnone
      stored := fun hopen => absurd hopen hnone
      numbered := fun _ hmem => absurd hmem List.not_mem_nil
      first := fun name page hpage => ?_ }
  have hpage : (disk name)[0]? = some page := hpage
  rcases hdisk name with hnil | hcreated
  · rw [hnil] at hpage
    cases hpage
  · rw [hcreated] at hpage
    cases hpage
    refine ⟨rfl, createdHeader, rfl, rfl, fun p hp hne => ?_⟩
    have hp : p < 1 := hp
    omega

/-- **When the loop ends.** After a run of calls in which every page that `allocate_page` adds is
written, every frame says of itself what its key says, and the loop of `allocate_frame` ends for
every key, whatever writes fail in it. If no file has been closed by its pool, it returns. -/
theorem allocate_frame_ends {used : List ℕ} {n : ℕ} {disk : F → List (Page D)}
    (hdisk : ∀ name, disk name = [] ∨ disk name = createdFile)
    (hgets : GetsReturnedInRun ops (PoolState.init used n disk))
    (hadded : ∀ o ∈ ops, o.2.added = false)
    (hrun : runIo ops (PoolState.init used n disk) = some (as, σ)) :
    (∀ e ∈ σ.store.entries, (σ.store.frame e.2).fileDesc = e.1.fileDesc ∧
      (σ.store.frame e.2).page.pageNum = e.1.pageNum) ∧
    (∀ key writes, FaultyStore.LoopEnds ⟨σ.store, writes⟩ key) ∧
    ((∀ o ∈ ops, ∀ id, o.1 ≠ .poolCloseFile id) →
      ∀ writes, ¬ FaultyStore.DeletedPool ⟨σ.store, writes⟩) := by
  obtain ⟨hkeyed, hleads⟩ := (framesKeyed_init hdisk).runIo hgets hadded hrun
  refine ⟨Keyed.labels hkeyed, fun key writes => FaultyStore.loopEnds_of_keyed hkeyed,
    fun hno writes => not_deletedPool_iff.mpr (hleads hno nofun)⟩

/-- Two frames and files that have been created. -/
def twoFrames : PoolState ℕ ℕ := PoolState.init [0, 1, 2] 2 fun _ => createdFile

/-- Two pages are added to a file, where `io` says what fails for the first of them. Page 1 is then
read between the pages of the file. -/
def rereadPage (io : Faults) : List (PoolOp ℕ ℕ × Faults) :=
  [(.openFile 0, noFaults), (.allocatePage 0, io), (.unpinPage ⟨0, 1, 1⟩, noFaults),
    (.allocatePage 0, noFaults), (.unpinPage ⟨0, 2, 1⟩, noFaults), (.getThisPage 0 1, noFaults),
    (.unpinPage ⟨0, 1, 1⟩, noFaults)]

/-- When the pages are written, page 2 can be asked for. -/
theorem allocate_frame_ends_run : ∃ as σ, runIo (rereadPage noFaults) twoFrames = some (as, σ) ∧
    FaultyStore.LoopEnds ⟨σ.store, []⟩ ⟨3, 2⟩ ∧
    ∃ r, FaultyStore.allocateFrame 3 ⟨σ.store, []⟩ ⟨3, 2⟩ = some r := by
  have hall : ((runIo (rereadPage noFaults) twoFrames).any fun p =>
      GetsReturnedInRun (rereadPage noFaults) twoFrames ∧ p.2.store.allocateFuel = 3) = true := by
    decide
  obtain ⟨⟨as, σ⟩, hrun, hall⟩ := (Option.any_eq_true _ _).mp hall
  obtain ⟨hgets, hfuel⟩ := of_decide_eq_true hall
  obtain ⟨-, hends, hopen⟩ := allocate_frame_ends (fun _ => Or.inr rfl) hgets (by decide) hrun
  have hends := hends ⟨3, 2⟩ []
  refine ⟨as, σ, hrun, hends, ?_⟩
  have hreturns := hends.returns (hopen (by simp [rereadPage]) [])
  rwa [← hfuel]

/-! ## A frame that has lost its key -/

/-- No frame is free. The victim is clean, and what is found under what it says of itself is another
frame, which was used last. -/
def FaultyStore.Stuck (w : FaultyStore F D) (key : FrameId) : Prop :=
  w.store.frameManager.find key = none ∧ w.store.frameManager.frees = [] ∧
  ∃ f ∈ w.store.frameManager.beginPurge, (w.store.frame f).dirty = false ∧
    ∃ e ∈ w.store.frameManager.frames.head?, f ≠ e.2 ∧ w.store.frameManager.find
      ⟨(w.store.frame f).fileDesc, (w.store.frame f).page.pageNum⟩ = some e

omit [DecidableEq F] [Inhabited D] in
instance (w : FaultyStore F D) (key : FrameId) : Decidable (w.Stuck key) :=
  inferInstanceAs (Decidable (w.store.frameManager.find key = none ∧
    w.store.frameManager.frees = [] ∧
    ∃ f ∈ w.store.frameManager.beginPurge, (w.store.frame f).dirty = false ∧
      ∃ e ∈ w.store.frameManager.frames.head?, f ≠ e.2 ∧ w.store.frameManager.find
        ⟨(w.store.frame f).fileDesc, (w.store.frame f).page.pageNum⟩ = some e))

/-- A turn changes nothing then: the victim stays in the table. -/
theorem FaultyStore.Stuck.allocateTurn_eq {w : FaultyStore F D} {key : FrameId}
    (h : w.Stuck key) : w.allocateTurn key = some (.inr w) := by
  obtain ⟨hfind, hfrees, f, hpurge, hclean, e, hhead, hne, hother⟩ := h
  obtain ⟨rest, hframes⟩ := List.head?_eq_some_iff.mp hhead
  have halloc : w.store.frameManager.alloc key = (none, w.store.frameManager) := by
    unfold FrameManager.alloc
    rw [hfind, hfrees]
  have htouch : w.store.frameManager.touch e = w.store.frameManager := by
    unfold FrameManager.touch
    rw [hframes, List.erase_cons_head]
    exact FrameManager.ext rfl hframes.symm rfl
  have hfree : w.store.frameManager.free
      ⟨(w.store.frame f).fileDesc, (w.store.frame f).page.pageNum⟩ f =
      (.genericError, w.store.frameManager) := by
    unfold FrameManager.free
    rw [hother]
    simp only [hne, ne_eq, not_false_eq_true, if_true, htouch]
  have hsame : w.withFrames w.store.frameManager = w := rfl
  have hturn : w.freeFrame f = some (.success, w) := by
    unfold freeFrame cleanFrame
    rw [hclean, if_neg Bool.false_ne_true]
    simp only [Option.bind_eq_bind, Option.bind_some, ne_eq, not_true, if_false, hfree, hsame]
    rfl
  unfold allocateTurn
  rw [halloc]
  simp only [hsame, Option.mem_def.mp hpurge, hturn, Option.map_some, ne_eq, not_true, if_false]

/-- A turn that changes nothing is taken again for ever. -/
theorem FaultyStore.Stuck.goesOn {w : FaultyStore F D} {key : FrameId} (h : w.Stuck key) :
    ∀ k, GoesOn key k w w ∧ w.allocateFrame k key = none := by
  intro k
  induction k with
  | zero => exact ⟨rfl, rfl⟩
  | succ k ih =>
    refine ⟨⟨w, h.allocateTurn_eq, ih.1⟩, ?_⟩
    unfold allocateFrame
    rw [h.allocateTurn_eq]
    exact ih.2

/-- The page that a call adds cannot be written, and it says that it has been added. -/
def addFails : Faults := ⟨[], false, true⟩

/-- When the first page is not written, it is read as a page of zeros with the number 0. Then page 2
is asked for, and the frame of page 1 is looked for under the number 0 for ever. -/
theorem allocate_frame_spins : ∃ as σ, runIo (rereadPage addFails) twoFrames = some (as, σ) ∧
    GetsReturnedInRun (rereadPage addFails) twoFrames ∧ (0, 2) ∈ σ.returned ∧
    (∃ e ∈ σ.store.entries, (σ.store.frame e.2).page.pageNum ≠ e.1.pageNum) ∧
    ∀ k, (∃ w', FaultyStore.GoesOn ⟨3, 2⟩ k ⟨σ.store, []⟩ w') ∧
      FaultyStore.allocateFrame k ⟨σ.store, []⟩ ⟨3, 2⟩ = none := by
  have hall : ((runIo (rereadPage addFails) twoFrames).any fun p =>
      GetsReturnedInRun (rereadPage addFails) twoFrames ∧
      (0, 2) ∈ p.2.returned ∧
      (∃ e ∈ p.2.store.entries, (p.2.store.frame e.2).page.pageNum ≠ e.1.pageNum) ∧
      (FaultyStore.allocateTurn ⟨p.2.store, []⟩ ⟨3, 2⟩).any
        (Sum.elim (fun _ => false) fun w => w.Stuck ⟨3, 2⟩)) = true := by
    decide
  obtain ⟨⟨as, σ⟩, hrun, hall⟩ := (Option.any_eq_true _ _).mp hall
  obtain ⟨hgets, hreturned, hlabel, hturn⟩ := of_decide_eq_true hall
  refine ⟨as, σ, hrun, hgets, hreturned, hlabel, fun k => ?_⟩
  obtain ⟨turn, hturn, hstuck⟩ := (Option.any_eq_true _ _).mp hturn
  cases turn with
  | inl r => cases hstuck
  | inr w =>
    have hstuck : w.Stuck ⟨3, 2⟩ := of_decide_eq_true hstuck
    cases k with
    | zero => exact ⟨⟨_, rfl⟩, rfl⟩
    | succ k =>
      refine ⟨⟨w, w, hturn, (hstuck.goesOn k).1⟩, ?_⟩
      unfold FaultyStore.allocateFrame
      rw [hturn]
      exact (hstuck.goesOn k).2

end Miniob.Storage.DiskBufferPool
