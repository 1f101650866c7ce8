import Miniob.Storage.BufferPool.FileHeader
import Miniob.Storage.BufferPool.FrameTable

/-!
# A page allocation that fails

`allocate_page` takes a page again that has been given back, or adds one at the end of the file. It
adds a page to the header once it has a frame for it, but it takes a page again in the header first
and asks for the frame afterwards.

* `FaultyStore.allocateFrame_error`: an `allocate_frame` that fails changes no page in any frame,
  and the page it was asked for has a frame afterwards exactly if it had one before.
* `failed_allocation_iff`: when an `allocate_page` that fails changes nothing.
-/

namespace Miniob.Storage.DiskBufferPool

open Miniob.Storage.BufferPool

variable {F D : Type}

/-- The page has a frame. -/
def Store.Holds (s : Store F D) (key : FrameId) : Prop := ∃ e ∈ s.entries, e.1 = key

instance (s : Store F D) (key : FrameId) : Decidable (s.Holds key) :=
  inferInstanceAs (Decidable (∃ e ∈ s.entries, e.1 = key))

/-- The registry and the pages in the frames stay as they are. -/
structure SamePages (s s' : Store F D) : Prop where
  manager : s'.manager = s.manager
  hdrFrame : s'.hdrFrame = s.hdrFrame
  page : ∀ f, (s'.frame f).page = (s.frame f).page

theorem SamePages.refl (s : Store F D) : SamePages s s := ⟨rfl, rfl, fun _ => rfl⟩

theorem SamePages.trans {s s' s'' : Store F D} (h : SamePages s s') (h' : SamePages s' s'') :
    SamePages s s'' where
  manager := h'.manager.trans h.manager
  hdrFrame := h'.hdrFrame.trans h.hdrFrame
  page f := (h'.page f).trans (h.page f)

/-- The headers are pages. -/
theorem SamePages.fileHeader_eq {s s' : Store F D} (h : SamePages s s') (id : ℕ) :
    s'.fileHeader id = s.fileHeader id := by
  unfold Store.fileHeader
  rw [h.hdrFrame, h.page]

/-- What a turn of the loop does that gives a frame back. -/
structure Purged (s s' : Store F D) (key : FrameId) : Prop extends SamePages s s' where
  /-- No page gets a frame. -/
  old : s'.Holds key → s.Holds key
  /-- If the page loses its frame, there is a free one. -/
  kept : s.Holds key → s'.Holds key ∨ s'.frameManager.frees ≠ []

/-- The same, and the page keeps its frame. -/
structure Failed (s s' : Store F D) (key : FrameId) : Prop extends SamePages s s' where
  holds : s'.Holds key ↔ s.Holds key

/-- The page that `allocate_page` goes for, if the file is not full. -/
def FileHeader.pageToAllocate (h : FileHeader) : Option ℕ :=
  match h.freePage with
  | some page => some page
  | none => if maxPageNum ≤ h.pageCount then none else some h.pageCount

namespace FaultyStore

variable {w w' : FaultyStore F D} {key : FrameId} {id f page : ℕ} {pool : PoolObject F}
  {rc : RC} {io : Faults} {fails : Bool}

/-- Looking entries up. -/
theorem samePages_withFrames {fm : FrameManager D} (hfm : fm.frame = w.store.frameManager.frame) :
    SamePages w.store (w.withFrames fm).store := by
  refine ⟨rfl, rfl, fun f => ?_⟩
  show (fm.frame f).page = _
  rw [hfm]
  rfl

theorem holds_of_perm (key : FrameId) {fm : FrameManager D}
    (hperm : fm.frames.Perm w.store.frameManager.frames) :
    (w.withFrames fm).store.Holds key ↔ w.store.Holds key :=
  exists_congr fun _ => and_congr_left fun _ => hperm.mem_iff

/-- What `alloc` leaves when it gives no frame. -/
theorem alloc_none {fm : FrameManager D} (halloc : w.store.frameManager.alloc key = (none, fm)) :
    fm.frame = w.store.frameManager.frame ∧ fm.frames.Perm w.store.frameManager.frames ∧
      fm.frees = w.store.frameManager.frees := by
  rcases w.store.frameManager.alloc_cases key with ⟨e, he, heq⟩ | heq | ⟨f, frees, -, -, heq⟩
  · rw [heq] at halloc
    obtain ⟨-, rfl⟩ := Prod.mk.inj halloc
    exact ⟨rfl, FrameManager.perm_touch he, rfl⟩
  · rw [heq] at halloc
    obtain ⟨-, rfl⟩ := Prod.mk.inj halloc
    exact ⟨rfl, List.Perm.refl _, rfl⟩
  · rw [heq] at halloc
    cases halloc

/-- What `alloc` leaves when it gives a frame. -/
theorem alloc_some {fm : FrameManager D} (halloc : w.store.frameManager.alloc key = (some f, fm)) :
    fm.frame = w.store.frameManager.frame := by
  rcases w.store.frameManager.alloc_cases key with ⟨e, he, heq⟩ | heq | ⟨f, frees, -, -, heq⟩
  · rw [heq] at halloc
    cases halloc
  · rw [heq] at halloc
    cases halloc
  · rw [heq] at halloc
    obtain ⟨-, rfl⟩ := Prod.mk.inj halloc
    rfl

/-- A page that has no frame gets a free one. -/
theorem alloc_free (hno : ¬ w.store.Holds key) (hfree : w.store.frameManager.frees ≠ []) :
    ∃ f fm, w.store.frameManager.alloc key = (some f, fm) := by
  unfold FrameManager.alloc
  cases hfind : w.store.frameManager.find key with
  | some e => exact absurd ⟨e, FrameManager.find_eq_some hfind⟩ hno
  | none =>
    cases hfrees : w.store.frameManager.frees with
    | nil => exact absurd hfrees hfree
    | cons f frees => exact ⟨f, _, rfl⟩

variable [DecidableEq F] [Inhabited D]

/-- Writing a frame changes no page and no entry. -/
theorem flushPage_same : Defined False (w.flushPage id f) fun r => SamePages w.store r.2.store ∧
    r.2.store.frameManager.frames = w.store.frameManager.frames := by
  unfold flushPage Store.flushPage
  refine Defined.bind (Q := fun s => SamePages w.store s ∧
    s.frameManager.frames = w.store.frameManager.frames) ?_ fun s hs => ?_
  · refine (Defined.self _).bind fun pool _ => Defined.some ⟨⟨rfl, rfl, fun f' => ?_⟩, rfl⟩
    show (Function.update w.store.frameManager.frame f _ f').page = _
    by_cases hf : f' = f
    · rw [hf, Function.update_self]
      rfl
    · rw [Function.update_of_ne hf]
      rfl
  · split
    · exact Defined.some ⟨SamePages.refl _, rfl⟩
    · exact Defined.some hs

/-- Writing and freeing the victim. -/
theorem freeFrame_purges (w : FaultyStore F D) (key : FrameId) (f : ℕ) :
    Defined False (w.freeFrame f) fun r =>
    if r.1 = .success then Purged w.store r.2.store key else Failed w.store r.2.store key := by
  have hclean : Defined False (w.cleanFrame f) fun r => SamePages w.store r.2.store ∧
      r.2.store.frameManager.frames = w.store.frameManager.frames := by
    unfold cleanFrame
    split
    · unfold managerFlushPage
      split
      · exact Defined.some ⟨SamePages.refl _, rfl⟩
      · exact flushPage_same
    · exact Defined.some ⟨SamePages.refl _, rfl⟩
  refine hclean.bind ?_
  rintro ⟨rc, w'⟩ ⟨hsame, hframes⟩
  have hholds : w'.store.Holds key ↔ w.store.Holds key := by
    unfold Store.Holds Store.entries
    rw [hframes]
  by_cases hrc : rc = .success
  · simp only [hrc, ne_eq, not_true, if_false]
    refine Defined.some ?_
    simp only [if_true]
    rcases w'.store.frameManager.free_cases
      ⟨(w'.store.frame f).fileDesc, (w'.store.frame f).page.pageNum⟩ f with
      heq | ⟨e, he, -, heq⟩ | ⟨e, he, -, -, heq⟩
    · rw [heq]
      exact ⟨hsame, hholds.mp, fun hin => Or.inl (hholds.mpr hin)⟩
    · rw [heq]
      have hperm := holds_of_perm key (FrameManager.perm_touch he)
      exact ⟨hsame.trans (samePages_withFrames rfl), fun hin => hholds.mp (hperm.mp hin),
        fun hin => Or.inl (hperm.mpr (hholds.mpr hin))⟩
    · rw [heq]
      refine ⟨hsame.trans (samePages_withFrames rfl), ?_, fun _ => Or.inr (by simp [withFrames])⟩
      rintro ⟨e', he', hkey⟩
      exact hholds.mp ⟨e', List.mem_of_mem_erase he', hkey⟩
  · simp only [ne_eq, hrc, not_false_eq_true, if_true]
    refine Defined.some ?_
    simp only [hrc, if_false]
    exact ⟨hsame, hholds⟩

/-- One turn of the loop. -/
theorem allocateTurn_purges : Defined False (w.allocateTurn key) fun
    | .inl (.ok _, w') => SamePages w.store w'.store
    | .inl (.error _, w') => Failed w.store w'.store key
    | .inr w' => Purged w.store w'.store key := by
  unfold allocateTurn
  split
  · rename_i f fm halloc
    exact Defined.some (samePages_withFrames (alloc_some halloc))
  · rename_i fm halloc
    obtain ⟨hframe, hperm, -⟩ := alloc_none halloc
    have hsame := samePages_withFrames (w := w) hframe
    have hholds := holds_of_perm key hperm
    dsimp only
    split
    · exact Defined.some ⟨hsame, hholds⟩
    · rename_i f _
      refine (freeFrame_purges (w.withFrames fm) key f).map ?_
      rintro ⟨rc, w'⟩ hfree
      by_cases hrc : rc = .success
      · simp only [hrc, ne_eq, not_true, if_false, if_true] at hfree ⊢
        exact ⟨hsame.trans hfree.toSamePages, fun hin => hholds.mp (hfree.old hin),
          fun hin => hfree.kept (hholds.mpr hin)⟩
      · simp only [hrc, ne_eq, not_false_eq_true, if_false, if_true] at hfree ⊢
        exact ⟨hsame.trans hfree.toSamePages, hfree.holds.trans hholds⟩

/-- `allocate_frame` changes no page in any frame. -/
theorem allocateFrame_same {fuel : ℕ} :
    Defined False (w.allocateFrame fuel key) fun r => SamePages w.store r.2.store := by
  induction fuel generalizing w with
  | zero => exact Defined.none
  | succ fuel ih =>
    refine allocateTurn_purges.bind fun turn hturn => ?_
    match turn, hturn with
    | .inl (.ok f, w'), hsame => exact Defined.some hsame
    | .inl (.error rc, w'), hfailed => exact Defined.some hfailed.toSamePages
    | .inr w', hpurged => exact ih.mono fun r hr => hpurged.toSamePages.trans hr

/-- **An `allocate_frame` that fails** changes no page in any frame, and the page it was asked for
has a frame exactly if it had one. -/
theorem allocateFrame_error {fuel : ℕ}
    (hcall : w.allocateFrame fuel key = some (.error rc, w')) : Failed w.store w'.store key := by
  induction fuel generalizing w with
  | zero => cases hcall
  | succ fuel ih =>
    obtain ⟨turn, hturn, hrest⟩ := Option.bind_eq_some_iff.mp hcall
    have hdone := allocateTurn_purges.of_eq_some hturn
    cases turn with
    | inl r =>
      obtain rfl := Option.some.inj hrest
      exact hdone
    | inr w₁ =>
      have hrest : w₁.allocateFrame fuel key = some (.error rc, w') := hrest
      have hfailed := ih hrest
      refine ⟨hdone.toSamePages.trans hfailed.toSamePages,
        hfailed.holds.trans ⟨hdone.old, fun hin => ?_⟩⟩
      rcases hdone.kept hin with hstill | hfree
      · exact hstill
      · -- the next turn would take the frame that is free
        by_contra hno
        obtain ⟨f, fm, halloc⟩ := alloc_free hno hfree
        cases fuel with
        | zero => cases hrest
        | succ fuel =>
          have hok : w₁.allocateTurn key = some (.inl (.ok f, w₁.withFrames fm)) := by
            unfold allocateTurn
            rw [halloc]
          unfold allocateFrame at hrest
          rw [hok] at hrest
          cases hrest

omit [DecidableEq F] [Inhabited D] in
/-- A page that cannot be read leaves the frames as they are. -/
theorem loadPage_error {name : F} (hrc : (w.loadPage fails name key f).1 ≠ .success) :
    SamePages w.store (w.loadPage fails name key f).2.store := by
  have hframe : (w.store.frameManager.free key f).2.frame = w.store.frameManager.frame := by
    rcases w.store.frameManager.free_cases key f with heq | ⟨e, -, -, heq⟩ | ⟨e, -, -, -, heq⟩
    · rw [heq]
    · rw [heq]
      rfl
    · rw [heq]
  cases fails with
  | true => exact samePages_withFrames hframe
  | false =>
    show SamePages w.store (w.store.loadPage name key f).2
    have hrc : (w.store.loadPage name key f).1 ≠ .success := hrc
    unfold Store.loadPage at hrc ⊢
    cases hpage : (w.store.disk name)[key.pageNum]? with
    | some page =>
      rw [hpage] at hrc
      exact absurd rfl hrc
    | none => exact samePages_withFrames hframe

/-- A `get_this_page` that fails changes no page in any frame. -/
theorem getThisPage_error (hcall : w.getThisPage id page fails = some (.error rc, w')) :
    SamePages w.store w'.store := by
  obtain ⟨pool, -, hcall⟩ := Option.bind_eq_some_iff.mp hcall
  cases hfind : w.store.frameManager.find ⟨pool.fileDesc, page⟩ with
  | some e =>
    simp only [FrameManager.get, hfind] at hcall
    cases hcall
  | none =>
    simp only [FrameManager.get, hfind] at hcall
    obtain ⟨⟨allocated, w₁⟩, halloc, hcall⟩ := Option.bind_eq_some_iff.mp hcall
    have hsame := allocateFrame_same.of_eq_some halloc
    cases allocated with
    | error rc' =>
      obtain ⟨-, rfl⟩ := Prod.mk.inj (Option.some.inj hcall)
      exact hsame
    | ok f =>
      -- the page could not be read, and its frame is given back
      obtain ⟨hgot, rfl⟩ := Prod.mk.inj (Option.some.inj hcall)
      refine hsame.trans (loadPage_error fun hrc => ?_)
      rw [if_pos hrc] at hgot
      cases hgot

end FaultyStore

/-- The header that has been set. -/
theorem fileHeader_setFileHeader (s : Store F D) (id : ℕ) (h : FileHeader) :
    (s.setFileHeader id h).fileHeader id = some h := by
  have hframe : (s.setFileHeader id h).frame ((s.setFileHeader id h).hdrFrame id) =
      ⟨true, _, _, ⟨_, .header h⟩⟩ := Function.update_self _ _ _
  unfold Store.fileHeader
  rw [hframe]

variable [DecidableEq F] [Inhabited D]

/-- **What a failed `allocate_page` leaves.** When the call fails, the header is as it was and the
page that was to be allocated has no frame, if and only if there was no page to take again and the
page to add had no frame before the call. -/
theorem failed_allocation_iff {w w' : FaultyStore F D} {id : ℕ} {pool : PoolObject F}
    {hd : FileHeader} {io : Faults} {rc : RC} (hpool : w.store.openPool id = some pool)
    (hheader : w.store.fileHeader id = some hd)
    (hcall : w.allocatePage id io = some (.error rc, w')) :
    (w'.store.fileHeader id = some hd ∧
      ∀ p ∈ hd.pageToAllocate, ¬ w'.store.Holds ⟨pool.fileDesc, p⟩) ↔
    hd.freePage = none ∧ ∀ p ∈ hd.pageToAllocate, ¬ w.store.Holds ⟨pool.fileDesc, p⟩ := by
  unfold FaultyStore.allocatePage at hcall
  rw [hpool, hheader] at hcall
  simp only [Option.bind_eq_bind, Option.bind_some] at hcall
  cases hfree : hd.freePage with
  | some page =>
    -- the header has changed before the call fails
    simp only [hfree] at hcall
    obtain ⟨⟨got, w₁⟩, hget, heq⟩ := Option.bind_eq_some_iff.mp hcall
    obtain ⟨hgot, rfl⟩ := Prod.mk.inj (Option.some.inj heq)
    cases got with
    | ok f => cases hgot
    | error rc' =>
      have hsame := FaultyStore.getThisPage_error hget
      constructor
      · rintro ⟨hheader', -⟩
        rw [hsame.fileHeader_eq] at hheader'
        have hset := (fileHeader_setFileHeader w.store id (hd.reuse page)).symm.trans hheader'
        have hcount : hd.allocatedPages + 1 = hd.allocatedPages :=
          congrArg FileHeader.allocatedPages (Option.some.inj hset)
        omega
      · rintro ⟨hnone, -⟩
        cases hnone
  | none =>
    simp only [hfree, FileHeader.pageToAllocate] at hcall ⊢
    by_cases hfull : maxPageNum ≤ hd.pageCount
    · simp only [hfull, if_true] at hcall ⊢
      obtain ⟨-, rfl⟩ := Prod.mk.inj (Option.some.inj hcall)
      exact ⟨fun _ => ⟨trivial, nofun⟩, fun _ => ⟨hheader, nofun⟩⟩
    · simp only [hfull, if_false] at hcall ⊢
      obtain ⟨⟨allocated, w₁⟩, halloc, hcall⟩ := Option.bind_eq_some_iff.mp hcall
      cases allocated with
      | error rc' =>
        obtain ⟨-, rfl⟩ := Prod.mk.inj (Option.some.inj hcall)
        have hfailed := FaultyStore.allocateFrame_error halloc
        rw [hfailed.fileHeader_eq, hheader]
        simp only [Option.mem_some_iff, forall_eq', hfailed.holds]
      | ok f =>
        obtain ⟨s, -, hcall⟩ := Option.bind_eq_some_iff.mp hcall
        cases hcall

/-- The error of an answer. -/
def errorOf {α : Type} : Except RC α → Option RC
  | .ok _ => none
  | .error rc => some rc

theorem eq_error_of {α : Type} {x : Except RC α} {rc : RC} (h : errorOf x = some rc) :
    x = .error rc := by
  cases x with
  | ok a => cases h
  | error rc' =>
    obtain rfl := Option.some.inj h
    rfl

/-- With both frames pinned no page can be added, and nothing changes. -/
theorem failed_allocation_pinned : ∃ as σ w' hd,
    runIo [(.openFile 0, noFaults), (.allocatePage 0, noFaults)]
      (PoolState.init [0, 1, 2] 2 fun _ : ℕ => (createdFile : List (Page ℕ))) = some (as, σ) ∧
    FaultyStore.allocatePage ⟨σ.store, []⟩ 0 noFaults = some (.error .nomem, w') ∧
    σ.store.fileHeader 0 = some hd ∧ w'.store.fileHeader 0 = some hd := by
  have hall : ((runIo [(.openFile 0, noFaults), (.allocatePage 0, noFaults)]
      (PoolState.init [0, 1, 2] 2 fun _ : ℕ => (createdFile : List (Page ℕ)))).any fun p =>
        (FaultyStore.allocatePage ⟨p.2.store, []⟩ 0 noFaults).any fun q =>
          (p.2.store.openPool 0).any fun pool => (p.2.store.fileHeader 0).any fun hd =>
            errorOf q.1 = some .nomem ∧ hd.freePage = none ∧
              ∀ page ∈ hd.pageToAllocate, ¬ p.2.store.Holds ⟨pool.fileDesc, page⟩) = true := by
    decide
  obtain ⟨⟨as, σ⟩, hrun, hall⟩ := (Option.any_eq_true _ _).mp hall
  obtain ⟨⟨got, w'⟩, hcall, hall⟩ := (Option.any_eq_true _ _).mp hall
  obtain ⟨pool, hpool, hall⟩ := (Option.any_eq_true _ _).mp hall
  obtain ⟨hd, hheader, hall⟩ := (Option.any_eq_true _ _).mp hall
  obtain ⟨herror, hcond⟩ := of_decide_eq_true hall
  obtain rfl : got = .error .nomem := eq_error_of herror
  exact ⟨as, σ, w', hd, hrun, hcall, hheader,
    ((failed_allocation_iff hpool hheader hcall).mpr hcond).1⟩

/-- Page 1 has been given back, and the frames are pinned. `allocate_page` fails, and the header
counts page 1 as allocated. -/
theorem failed_allocation_leaks : ∃ as σ w' hd hd',
    runIo [(.openFile 0, noFaults), (.allocatePage 0, noFaults), (.allocatePage 0, noFaults),
      (.unpinPage ⟨0, 1, 1⟩, noFaults), (.disposePage 0 1, noFaults), (.openFile 1, noFaults)]
      (PoolState.init [0, 1, 2] 3 fun _ : ℕ => (createdFile : List (Page ℕ))) = some (as, σ) ∧
    FaultyStore.allocatePage ⟨σ.store, []⟩ 0 noFaults = some (.error .nomem, w') ∧
    σ.store.fileHeader 0 = some hd ∧ hd.allocatedPages = 2 ∧ hd.bitmap 1 = false ∧
    w'.store.fileHeader 0 = some hd' ∧ hd'.allocatedPages = 3 ∧ hd'.bitmap 1 = true := by
  have hall : ((runIo [(.openFile 0, noFaults), (.allocatePage 0, noFaults),
      (.allocatePage 0, noFaults), (.unpinPage ⟨0, 1, 1⟩, noFaults), (.disposePage 0 1, noFaults),
      (.openFile 1, noFaults)]
      (PoolState.init [0, 1, 2] 3 fun _ : ℕ => (createdFile : List (Page ℕ)))).any fun p =>
        (FaultyStore.allocatePage ⟨p.2.store, []⟩ 0 noFaults).any fun q =>
          (p.2.store.fileHeader 0).any fun hd => (q.2.store.fileHeader 0).any fun hd' =>
            errorOf q.1 = some .nomem ∧ hd.allocatedPages = 2 ∧ hd.bitmap 1 = false ∧
              hd'.allocatedPages = 3 ∧ hd'.bitmap 1 = true) = true := by
    decide
  obtain ⟨⟨as, σ⟩, hrun, hall⟩ := (Option.any_eq_true _ _).mp hall
  obtain ⟨⟨got, w'⟩, hcall, hall⟩ := (Option.any_eq_true _ _).mp hall
  obtain ⟨hd, hheader, hall⟩ := (Option.any_eq_true _ _).mp hall
  obtain ⟨hd', hheader', hall⟩ := (Option.any_eq_true _ _).mp hall
  obtain ⟨herror, hcount, hbit, hcount', hbit'⟩ := of_decide_eq_true hall
  obtain rfl : got = .error .nomem := eq_error_of herror
  exact ⟨as, σ, w', hd, hd', hrun, hcall, hheader, hcount, hbit, hheader', hcount', hbit'⟩

end Miniob.Storage.DiskBufferPool
