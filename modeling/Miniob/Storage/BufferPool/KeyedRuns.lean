import Miniob.Storage.BufferPool.AllocateLoop

/-!
# Frames keep their keys

Closing a file leaves frames behind, and a later file with the same descriptor gets pages of zeros
between its own when one of them is written to it. But only pages that `allocate_page` has returned
are read, and these are in their files under their numbers once the write that adds them has
succeeded.

* `Keeps`, `Leads`: what a call keeps, without and with a change of the registry.
* `FaultyStore.getThisPage_hands`, `.allocatePage_hands`, `.unpinPage_keeps`, …: every call keeps
  the frames keyed, if the page that `allocate_page` adds is written.
* `FaultyStore.purgeHeader_closes`: so does closing a file, whichever of its pages are in frames.
-/

namespace Miniob.Storage.DiskBufferPool

open Miniob.Storage.BufferPool

variable {F D : Type} [DecidableEq F] [Inhabited D]

/-- The map by descriptor leads to open pools only. -/
def LeadsToOpen (m : Manager F) : Prop :=
  ∀ fd id, m.fdBufferPools fd = some id → ∃ pool, IsOpen m.pools id pool

section LeadsToOpen

variable {m : Manager F} {name : F} {id : ℕ} {pool : PoolObject F}

omit [Inhabited D] [DecidableEq F] in
theorem not_deletedPool_iff {w : FaultyStore F D} :
    ¬ w.DeletedPool ↔ LeadsToOpen w.store.manager := by
  constructor
  · intro hno fd id hfd
    cases hpool : w.store.openPool id with
    | none => exact absurd ⟨fd, id, hfd, hpool⟩ hno
    | some pool => exact ⟨pool, openPool_eq_some.mp hpool⟩
  · rintro hleads ⟨fd, id, hfd, hpool⟩
    obtain ⟨pool, hopen⟩ := hleads fd id hfd
    rw [openPool_eq_some.mpr hopen] at hpool
    cases hpool

theorem LeadsToOpen.opened (h : LeadsToOpen m) : LeadsToOpen (opened m name) := by
  intro fd id hfd
  rcases fdBufferPools_opened hfd with hold | ⟨-, rfl⟩
  · obtain ⟨pool, hopen⟩ := h fd id hold
    exact ⟨pool, isOpen_opened.mpr (Or.inl hopen)⟩
  · exact ⟨_, isOpen_opened.mpr (Or.inr ⟨rfl, rfl⟩)⟩

theorem LeadsToOpen.openFile (h : LeadsToOpen m) {rc : RC} :
    LeadsToOpen (m.openFile name rc).2 := by
  unfold Manager.openFile
  split
  · exact h
  · split
    · exact h.opened
    · exact h

omit [DecidableEq F] in
/-- A pool that is taken out of the map may be deleted. -/
theorem LeadsToOpen.set (h : LeadsToOpen m) (hrouted : Routed m) (hopen : IsOpen m.pools id pool)
    {m' : Manager F} {pool' : PoolObject F} (hpools : m'.pools = m.pools.set id pool')
    (hfds : m'.fdBufferPools = Function.update m.fdBufferPools pool.fileDesc none) :
    LeadsToOpen m' := by
  intro fd id' hfd
  rw [hfds] at hfd
  have hne : fd ≠ pool.fileDesc := by
    rintro rfl
    rw [Function.update_self] at hfd
    cases hfd
  rw [Function.update_of_ne hne] at hfd
  obtain ⟨other, hother⟩ := h fd id' hfd
  have hid : id ≠ id' := by
    rintro rfl
    exact hne (hrouted.route hfd hopen).symm
  refine ⟨other, ?_, hother.2⟩
  rw [hpools, List.getElem?_set_ne hid]
  exact hother.1

end LeadsToOpen

/-- What a call keeps that opens or closes a file. -/
structure Leads (returned : List (F × ℕ)) (pins : ℕ → ℕ) (w w' : FaultyStore F D) : Prop where
  keyed : Keyed returned pins w'.store
  leads : LeadsToOpen w.store.manager → LeadsToOpen w'.store.manager

omit [DecidableEq F] [Inhabited D] in
theorem Keeps.leads {returned : List (F × ℕ)} {pins : ℕ → ℕ} {w w' : FaultyStore F D}
    (h : Keeps returned pins w w') : Leads returned pins w w' := by
  refine ⟨h.keyed, fun hleads => ?_⟩
  rw [h.manager]
  exact hleads

namespace FaultyStore

variable {returned : List (F × ℕ)} {pins : ℕ → ℕ} {w w' w₁ : FaultyStore F D} {e : FrameId × ℕ}
  {key : FrameId} {id f page : ℕ} {pool : PoolObject F} {hd : FileHeader} {name : F} {fails : Bool}
  {io : Faults}

/-! ## Getting pages -/

/-- What a call promises that hands out a frame. -/
def Hands (returned : List (F × ℕ)) (pins : ℕ → ℕ) (w : FaultyStore F D)
    (r : Except RC ℕ × FaultyStore F D) : Prop :=
  match r.1 with
  | .ok f => Keeps returned (Function.update pins f (pins f + 1)) w r.2
  | .error _ => Keeps returned pins w r.2

omit [DecidableEq F] [Inhabited D] in
/-- A frame that is given back at once. -/
theorem keeps_release {s : Store F D} {frees : List ℕ}
    (hgranted : Granted returned pins w key f s frees w') :
    Keeps returned pins w (w'.withFrames (w'.store.frameManager.free key f).2) := by
  obtain ⟨hkeyed, hmanager, hfree, -, heq⟩ := hgranted
  have hback : (FrameManager.free { s.frameManager with
      frames := (key, f) :: s.frameManager.frames, frees := frees } key f).2 =
      { s.frameManager with frees := frees ++ [f] } := by
    simp [FrameManager.free, FrameManager.find]
  unfold withFrames
  rw [heq]
  simp only [hback]
  refine ⟨hkeyed.perm (List.Perm.refl _) ?_, hmanager⟩
  rw [hfree]
  exact List.perm_append_singleton f frees

omit [DecidableEq F] [Inhabited D] in
/-- A page of a client is read into a frame. -/
theorem loadPage_hands {s : Store F D} {frees : List ℕ}
    (hgranted : Granted returned pins w key f s frees w') (hpage : (name, key.pageNum) ∈ returned) :
    Hands returned pins w
      (if (w'.loadPage fails name key f).1 = .success then .ok f
        else .error (w'.loadPage fails name key f).1, (w'.loadPage fails name key f).2) := by
  unfold loadPage
  cases fails with
  | true =>
    simp only [if_true, reduceCtorEq, if_false]
    exact keeps_release hgranted
  | false =>
    simp only [Bool.false_eq_true, if_false]
    unfold Store.loadPage
    cases hread : (w'.store.disk name)[key.pageNum]? with
    | none =>
      simp only [reduceCtorEq, if_false]
      exact keeps_release hgranted
    | some pg =>
      simp only [if_true]
      obtain ⟨hkeyed, hmanager, hfree, hfresh, heq⟩ := hgranted
      obtain ⟨hzero, pg', hget, hnum⟩ := hkeyed.numbered _ hpage
      rw [heq, hget] at hread
      obtain rfl := Option.some.inj hread
      have hins := hkeyed.insert ⟨false, 1, key.fileDesc, pg'⟩ hfree hfresh hzero
        ⟨rfl, hnum⟩ rfl
      refine ⟨?_, ?_⟩
      · unfold withStore
        rw [heq]
        exact hins
      · unfold withStore
        rw [heq]
        exact hmanager

/-- `get_this_page` of a page that `allocate_page` has returned. -/
theorem getThisPage_hands (h : Keyed returned pins w.store)
    (hpage : ∀ pool ∈ w.store.openPool id, (pool.fileName, page) ∈ returned) :
    Defined False (w.getThisPage id page fails) (Hands returned pins w) := by
  unfold getThisPage
  refine (Defined.self _).bind fun pool hpool => ?_
  have hpage := hpage pool hpool
  cases hfind : w.store.frameManager.find ⟨pool.fileDesc, page⟩ with
  | some e =>
    obtain ⟨he, hkey⟩ := FrameManager.find_eq_some hfind
    have hget : w.store.frameManager.get ⟨pool.fileDesc, page⟩ =
        (some e.2, w.store.frameManager.touch e) := by
      unfold FrameManager.get
      rw [hfind]
    simp only [hget]
    have hzero : e.1.pageNum ≠ 0 := by
      rw [hkey]
      exact (h.numbered _ hpage).1
    have he' : e ∈ Store.entries { w.store with
        frameManager := w.store.frameManager.touch e } :=
      (FrameManager.perm_touch he).mem_iff.mpr he
    refine Defined.some ⟨(h.touch he).setPins he' rfl rfl ?_
      (fun f hf => Function.update_of_ne hf _ _) (fun _ => hzero), rfl⟩
    have hpin := (h.touch he).pinned e he'
    rw [Function.update_self]
    show _ + 1 = _
    rw [hpin]
    omega
  | none =>
    have hget : w.store.frameManager.get ⟨pool.fileDesc, page⟩ =
        (none, w.store.frameManager) := by
      unfold FrameManager.get
      rw [hfind]
    simp only [hget]
    refine (allocateFrame_turned h).bind ?_
    rintro ⟨rc | f, w'⟩ hall
    · exact Defined.some hall.2
    · obtain ⟨s, frees, hgranted⟩ := hall
      exact Defined.some (loadPage_hands hgranted hpage)

/-- What `allocate_page` promises. -/
def HandsNew (returned : List (F × ℕ)) (pins : ℕ → ℕ) (w : FaultyStore F D) (name : F)
    (r : Except RC (ℕ × ℕ) × FaultyStore F D) : Prop :=
  match r.1 with
  | .ok (p, f) => Keeps ((name, p) :: returned) (Function.update pins f (pins f + 1)) w r.2
  | .error _ => Keeps returned pins w r.2

/-- A page is added at the end of its file. -/
theorem extend_hands {s : Store F D} {frees : List ℕ}
    (hgranted : Granted returned pins w ⟨pool.fileDesc, hd.pageCount⟩ f s frees w')
    (hopen : IsOpen w.store.manager.pools id pool) (hbacked : hd.Backed returned pool.fileName) :
    Defined False (extendFile ((w'.store.setFileHeader id hd.extend).setFrame f
        ⟨false, 1, pool.fileDesc, ⟨hd.pageCount, .bytes default⟩⟩) false id f) fun s' =>
      Keeps ((pool.fileName, hd.pageCount) :: returned) (Function.update pins f (pins f + 1)) w
        (w'.withStore s') := by
  obtain ⟨hkeyed, hmanager, hfree, hfresh, heq⟩ := hgranted
  rw [← hmanager] at hopen
  have hzero : hd.pageCount ≠ 0 := by
    intro hz
    refine hfresh _ (hkeyed.hdr hopen) ?_
    rw [hz]
  -- the page in its frame and in its file, and then the header
  let new : Page D := ⟨hd.pageCount, .bytes default⟩
  have hins := hkeyed.insert ⟨false, 1, pool.fileDesc, new⟩ hfree hfresh hzero
    ⟨rfl, rfl⟩ rfl
  have hwritten := hins.write new (hkeyed.stored hopen) fun hz => absurd hz hzero
  have hself : (Function.update s.disk pool.fileName (writePage (s.disk pool.fileName) new)
      pool.fileName)[hd.pageCount]? = some new := by
    rw [Function.update_self]
    exact getElem?_writePage_self
  have hnoted := hwritten.note hzero ⟨new, hself, rfl⟩
  have hdone := hnoted.setFileHeader hopen hbacked.extend
  have hne : s.hdrFrame id ≠ f := hkeyed.frame_ne_of_free hfree _ (hkeyed.hdr hopen)
  have hpool' : Store.openPool ((w'.store.setFileHeader id hd.extend).setFrame f
      ⟨false, 1, pool.fileDesc, new⟩) id = some pool := by
    rw [openPool_eq_some, heq]
    exact hopen
  unfold extendFile Store.flushPage
  rw [if_neg Bool.false_ne_true, hpool', heq]
  refine Defined.some ⟨?_, hmanager⟩
  refine Eq.mp (congrArg _ ?_) hdone
  simp only [withStore, Store.setFileHeader, Store.setFrame, Store.frame, FrameManager.setFrame,
    Function.update_self, Function.update_idem, Function.update_of_ne hne,
    Function.update_of_ne hne.symm, Function.update_comm hne]
  rfl

/-- `allocate_page`, when the page that it adds is written. -/
theorem allocatePage_hands (h : Keyed returned pins w.store)
    (hopen : IsOpen w.store.manager.pools id pool) (hadded : io.added = false) :
    Defined False (w.allocatePage id io) (HandsNew returned pins w pool.fileName) := by
  obtain ⟨hd, hfile, hbacked⟩ := h.header hopen
  unfold allocatePage
  rw [openPool_eq_some.mpr hopen, hfile, hadded]
  simp only [Option.bind_eq_bind, Option.bind_some]
  cases hfree : hd.freePage with
  | some page =>
    obtain ⟨hzero, hpage⟩ := hbacked.of_freePage hfree
    have hset : Keyed returned pins
        (w.withStore (w.store.setFileHeader id (hd.reuse page))).store :=
      h.setFileHeader hopen hbacked.reuse
    have hpages : ∀ pool' ∈ w.store.openPool id, (pool'.fileName, page) ∈ returned := by
      intro pool' hpool'
      rw [openPool_eq_some.mpr hopen] at hpool'
      cases hpool'
      exact hpage
    refine (getThisPage_hands hset hpages).bind ?_
    rintro ⟨rc | f, w'⟩ hgot
    · exact Defined.some ⟨hgot.keyed, hgot.manager⟩
    · have hgot : Keeps returned (Function.update pins f (pins f + 1)) _ w' := hgot
      exact Defined.some ⟨hgot.keyed.note hzero (hgot.keyed.numbered _ hpage).2, hgot.manager⟩
  | none =>
    by_cases hfull : maxPageNum ≤ hd.pageCount
    · simp only [hfull, if_true]
      exact Defined.some ⟨h, rfl⟩
    · simp only [hfull, if_false]
      refine (allocateFrame_turned h).bind ?_
      rintro ⟨rc | f, w'⟩ hall
      · exact Defined.some hall.2
      · obtain ⟨s, frees, hgranted⟩ := hall
        exact (extend_hands hgranted hopen hbacked).bind fun s' hs' => Defined.some hs'

/-! ## Purging, giving back and writing -/

/-- `purge_page` frees an unpinned page, which is no header. -/
theorem purgePage_keeps (h : Keyed returned pins w.store) :
    Defined False (w.purgePage id page) fun r => Keeps returned pins w r.2 ∧
      (r.1 = .success → page ≠ 0 ∧ ∃ pool, IsOpen w.store.manager.pools id pool) := by
  unfold purgePage
  cases hpool : w.store.openPool id with
  | none => exact Defined.none
  | some pool =>
    have hopen := openPool_eq_some.mp hpool
    simp only [Option.bind_eq_bind, Option.bind_some]
    unfold FrameManager.get
    cases hfind : w.store.frameManager.find ⟨pool.fileDesc, page⟩ with
    | none =>
      refine Defined.some ⟨keeps_refl h, fun _ => ⟨?_, pool, hopen⟩⟩
      rintro rfl
      exact FrameManager.find_eq_none hfind _ (h.hdr hopen) rfl
    | some e =>
      obtain ⟨he, hkey⟩ := FrameManager.find_eq_some hfind
      obtain ⟨w₁, hw₁⟩ : ∃ w₁, w₁ = w.withFrames (w.store.frameManager.touch e) := ⟨_, rfl⟩
      have hkeeps : Keeps returned pins w w₁ := hw₁ ▸ keeps_touch h he
      have he₁ : e ∈ w₁.store.entries := hw₁ ▸ (FrameManager.perm_touch he).mem_iff.mpr he
      have hopen₁ : IsOpen w₁.store.manager.pools id pool := hkeeps.manager ▸ hopen
      simp only [← hw₁]
      unfold purgeFrame
      rw [openPool_eq_some.mpr hopen₁]
      simp only [Option.bind_eq_bind, Option.bind_some]
      by_cases hpin : 0 < (w₁.store.frame e.2).pinCount
      · simp only [hpin, if_true]
        exact Defined.some ⟨hkeeps, nofun⟩
      · simp only [hpin, if_false]
        have hpin : (w₁.store.frame e.2).pinCount = 0 := by omega
        have hzero := hkeeps.keyed.pageNum_ne_zero he₁ hpin
        have hclean : Defined False (w₁.flushDirty id e.2) fun r => Keeps returned pins w₁ r.2 ∧
            r.2.store.entries = w₁.store.entries := by
          unfold flushDirty
          split
          · exact (flushPage_keeps hkeeps.keyed he₁ fun hz => absurd hz hzero).mono
              fun r hr => ⟨hr.1, hr.2.1⟩
          · exact Defined.some ⟨keeps_refl hkeeps.keyed, rfl⟩
        refine hclean.bind ?_
        rintro ⟨rc, w₂⟩ ⟨hkeeps₂, hentries⟩
        by_cases hrc : rc = .success
        · have he₂ : e ∈ w₂.store.entries := hentries ▸ he₁
          have hpin₂ : (w₂.store.frame e.2).pinCount = 0 := by
            rw [hkeeps₂.keyed.pinned e he₂, ← hkeeps.keyed.pinned e he₁]
            exact hpin
          simp only [hrc, ne_eq, not_true, if_false, ← hkey, hkeeps₂.keyed.table.free_eq he₂]
          refine Defined.some ⟨hkeeps.trans ⟨hkeeps₂.keyed.remove he₂ hpin₂, hkeeps₂.manager⟩,
            fun _ => ⟨?_, pool, hopen⟩⟩
          rw [hkey] at hzero
          exact hzero
        · simp only [ne_eq, hrc, not_false_eq_true, if_true]
          exact Defined.some ⟨hkeeps.trans hkeeps₂, fun hs => absurd hs hrc⟩

/-- `dispose_page`, of any page. -/
theorem disposePage_keeps (h : Keyed returned pins w.store) :
    Defined False (w.disposePage id page) fun r => Keeps returned pins w r.2 := by
  refine (purgePage_keeps h).bind ?_
  rintro ⟨rc, w'⟩ ⟨hkeeps, hpage⟩
  by_cases hrc : rc = .success
  · obtain ⟨hzero, pool, hopen⟩ := hpage hrc
    have hopen' : IsOpen w'.store.manager.pools id pool := hkeeps.manager ▸ hopen
    obtain ⟨hd, hfile, hbacked⟩ := hkeeps.keyed.header hopen'
    simp only [hrc, ne_eq, not_true, if_false, hfile]
    exact Defined.some
      ⟨hkeeps.keyed.setFileHeader hopen' (hbacked.dispose hzero), hkeeps.manager⟩
  · simp only [ne_eq, hrc, not_false_eq_true, if_true]
    exact Defined.some ⟨hkeeps.keyed.setDisposed _, hkeeps.manager⟩

/-- `unpin_page` of a frame that a client holds. -/
theorem unpinPage_keeps (h : Keyed returned pins w.store) (hpos : 0 < pins f) :
    Defined False (w.unpinPage id f) fun r =>
      Keeps returned (Function.update pins f (pins f - 1)) w r.2 := by
  obtain ⟨e, he, rfl⟩ : ∃ e ∈ w.store.entries, e.2 = f := by
    by_contra hno
    have := h.idle f fun e he heq => hno ⟨e, he, heq⟩
    omega
  have hzero := h.clients e he hpos
  have hpin := h.pinCount_eq he hzero
  unfold unpinPage
  cases hpool : w.store.openPool id with
  | none => exact Defined.none
  | some pool =>
    have hne : (w.store.frame e.2).pinCount ≠ 0 := by omega
    simp only [Option.bind_eq_bind, Option.bind_some, hne, if_false]
    have hless : Keyed returned (Function.update pins e.2 (pins e.2 - 1)) (w.withStore
        (w.store.setFrame e.2 { w.store.frame e.2 with
          pinCount := (w.store.frame e.2).pinCount - 1 })).store := by
      refine h.setPins he rfl rfl ?_ (fun f hf => Function.update_of_ne hf _ _) fun _ => hzero
      rw [Function.update_self, if_neg hzero, hpin, Nat.add_zero]
    have hopen := openPool_eq_some.mp hpool
    split
    · exact Defined.some ⟨hless, rfl⟩
    · split
      · exact Defined.some ⟨hless, rfl⟩
      · refine (disposePage_keeps hless).bind fun r hr => Defined.some ?_
        exact ⟨hr.keyed.setDisposed _, hr.manager⟩

/-- Frames of a pool are written to its file. -/
theorem flushFrames_keeps {fs : List ℕ} (h : Keyed returned pins w.store)
    (hopen : IsOpen w.store.manager.pools id pool)
    (hfs : ∀ f ∈ fs, ∃ e ∈ w.store.entries, e.2 = f ∧ e.1.fileDesc = pool.fileDesc) :
    Defined False (flushFrames id fs w) fun r => Keeps returned pins w r.2 := by
  induction fs generalizing w with
  | nil => exact Defined.some (keeps_refl h)
  | cons f fs ih =>
    obtain ⟨e, he, rfl, hdesc⟩ := hfs f List.mem_cons_self
    have hown : e.1.pageNum = 0 → w.store.hdrFrame id = e.2 := by
      intro hz
      refine h.eq_hdrFrame hopen he ?_
      rw [← hdesc, ← hz]
    refine (flushPage_keeps h he hown).bind ?_
    rintro ⟨rc, w'⟩ ⟨hkeeps, hentries, -⟩
    by_cases hrc : rc = .success
    · simp only [hrc, ne_eq, not_true, if_false]
      refine (ih hkeeps.keyed (hkeeps.manager ▸ hopen) fun f hf => ?_).mono fun r hr =>
        hkeeps.trans hr
      obtain ⟨e', he', hf', hdesc'⟩ := hfs f (List.mem_cons_of_mem _ hf)
      exact ⟨e', hentries ▸ he', hf', hdesc'⟩
    · simp only [ne_eq, hrc, not_false_eq_true, if_true]
      exact Defined.some hkeeps

/-- `flush_all_pages` -/
theorem flushAllPages_keeps (h : Keyed returned pins w.store) :
    Defined False (w.flushAllPages id) fun r => Keeps returned pins w r.2 := by
  unfold flushAllPages
  cases hpool : w.store.openPool id with
  | none => exact Defined.none
  | some pool =>
    refine flushFrames_keeps h (openPool_eq_some.mp hpool) fun f hf => ?_
    unfold FrameManager.findList at hf
    obtain ⟨e, he, hf⟩ := List.mem_map.mp hf
    obtain ⟨hin, hdesc⟩ := List.mem_filter.mp he
    exact ⟨e, hin, hf, of_decide_eq_true hdesc⟩

/-! ## Opening and closing -/

omit [Inhabited D] in
/-- The header of a file is read into its frame and the pool is registered, or the frame is given
back. -/
theorem openFile_granted {s : Store F D} {frees : List ℕ}
    (hgranted : Granted returned pins w ⟨lowestFree w.store.manager.used, 0⟩ f s frees w')
    (hname : w.store.manager.bufferPools name = none) {rc : RC} {w₁ : FaultyStore F D}
    (hload : w'.loadPage fails name ⟨lowestFree w.store.manager.used, 0⟩ f = (rc, w₁)) :
    Keyed returned pins { w₁.store with
      manager := (w₁.store.manager.openFile name rc).2
      hdrFrame := Function.update w₁.store.hdrFrame w₁.store.manager.pools.length f
      disposedPages :=
        Function.update w₁.store.disposedPages w₁.store.manager.pools.length [] } := by
  have hmanager := hgranted.manager
  have hfail : rc ≠ .success →
      w₁ = w'.withFrames (w'.store.frameManager.free ⟨lowestFree w.store.manager.used, 0⟩ f).2 →
      Keyed returned pins { w₁.store with
        manager := (w₁.store.manager.openFile name rc).2
        hdrFrame := Function.update w₁.store.hdrFrame w₁.store.manager.pools.length f
        disposedPages :=
          Function.update w₁.store.disposedPages w₁.store.manager.pools.length [] } := by
    intro hrc hw₁
    have hkeeps := hw₁ ▸ keeps_release hgranted
    have hsame : (w₁.store.manager.openFile name rc).2 = w₁.store.manager := by
      unfold Manager.openFile
      split
      · rfl
      · rfl
    rw [hsame]
    exact hkeeps.keyed.setNew f _
  unfold loadPage at hload
  cases fails with
  | true =>
    rw [if_pos rfl] at hload
    obtain ⟨rfl, hw₁⟩ := Prod.mk.inj hload
    exact hfail nofun hw₁.symm
  | false =>
    rw [if_neg Bool.false_ne_true] at hload
    obtain ⟨hrc, hw₁⟩ := Prod.mk.inj hload
    unfold Store.loadPage at hrc hw₁
    cases hread : (w'.store.disk name)[0]? with
    | none =>
      simp only [hread] at hrc hw₁
      exact hfail (hrc ▸ nofun) hw₁.symm
    | some pg =>
      simp only [hread] at hrc hw₁
      obtain ⟨hkeyed, -, hfree, hfresh, heq⟩ := hgranted
      rw [heq] at hread
      have hname' : s.manager.bufferPools name = none := hmanager ▸ hname
      rw [← hmanager] at hfresh
      have hdone := hkeyed.openFile hfree hfresh hname' hread
        (Function.update s.disposedPages s.manager.pools.length [])
      rw [← hw₁, ← hrc]
      unfold withStore
      simp only [heq, Store.setFrame, FrameManager.setFrame, openFile_eq hname']
      rw [← hmanager]
      exact hdone

omit [Inhabited D] [DecidableEq F] in
theorem manager_loadPage : (w.loadPage fails name key f).2.store.manager = w.store.manager := by
  unfold loadPage
  split
  · rfl
  · show (w.store.loadPage name key f).2.manager = _
    unfold Store.loadPage
    split
    · rfl
    · rfl

/-- `open_file` -/
theorem openFile_leads (h : Keyed returned pins w.store) :
    Defined False (w.openFile name fails) fun r => Leads returned pins w r.2 := by
  unfold openFile
  by_cases hname : (w.store.manager.bufferPools name).isSome
  · rw [if_pos hname]
    exact Defined.some (Keeps.leads (keeps_refl h))
  · rw [if_neg hname]
    have hname : w.store.manager.bufferPools name = none := by simpa using hname
    by_cases hdisk : w.store.disk name = []
    · rw [if_pos hdisk]
      exact Defined.some (Keeps.leads (keeps_refl h))
    · rw [if_neg hdisk]
      refine (allocateFrame_turned h).bind ?_
      rintro ⟨rc | f, w'⟩ hall
      · exact Defined.some (Keeps.leads hall.2)
      · obtain ⟨s, frees, hgranted⟩ := hall
        have hmanager : (w'.loadPage fails name ⟨lowestFree w.store.manager.used, 0⟩
            f).2.store.manager = w.store.manager := by
          rw [manager_loadPage, hgranted.eq]
          exact hgranted.manager
        refine Defined.some ⟨openFile_granted hgranted hname rfl, fun hleads => ?_⟩
        rw [← hmanager] at hleads
        exact LeadsToOpen.openFile hleads

/-- A dirty frame is written or it cannot be, and a clean one stays as it is. -/
theorem flushDirty_cases (hopen : IsOpen w.store.manager.pools id pool) : ∃ writes,
    w.flushDirty id f = some (.ioerrWrite, ⟨w.store, writes⟩) ∨
    w.flushDirty id f = some (.success, ⟨w.store, writes⟩) ∨
    w.flushDirty id f = some (.success, ⟨w.store.flushed f pool.fileName, writes⟩) := by
  unfold flushDirty
  split
  · refine ⟨w.writes.tail, ?_⟩
    unfold flushPage Store.flushPage
    rw [openPool_eq_some.mpr hopen]
    simp only [Option.bind_eq_bind, Option.bind_some]
    split
    · exact Or.inl rfl
    · exact Or.inr (Or.inr rfl)
  · exact ⟨w.writes, Or.inr (Or.inl rfl)⟩

/-- The pools without the pin on a header, whose entry has been looked up. -/
def unpinned (w : FaultyStore F D) (e : FrameId × ℕ) : FaultyStore F D :=
  (w.withStore (w.store.setFrame e.2
    { w.store.frame e.2 with pinCount := (w.store.frame e.2).pinCount - 1 })).withFrames
    ((w.store.frameManager.setFrame e.2
      { w.store.frame e.2 with pinCount := (w.store.frame e.2).pinCount - 1 }).touch e)

/-- Closing a file purges the frame of its header. -/
theorem purgeHeader_eq (h : Keyed returned pins w.store)
    (hopen : IsOpen w.store.manager.pools id pool)
    (hw₁ : w₁ = w.unpinned (⟨pool.fileDesc, 0⟩, w.store.hdrFrame id)) :
    w.purgeHeader id = (w₁.flushDirty id (w.store.hdrFrame id)).bind fun r =>
      if r.1 ≠ .success then
        some (r.1, r.2.withStore (r.2.store.setFrame (w.store.hdrFrame id)
          { r.2.store.frame (w.store.hdrFrame id) with
            pinCount := (r.2.store.frame (w.store.hdrFrame id)).pinCount + 1 }))
      else some (.success, r.2.withStore { r.2.store with
          frameManager := (r.2.store.frameManager.free ⟨pool.fileDesc, 0⟩
            (w.store.hdrFrame id)).2
          disposedPages := Function.update r.2.store.disposedPages id [] }) := by
  have he := h.hdr hopen
  have hpins : pins (w.store.hdrFrame id) = 0 := by
    by_contra hne
    exact h.clients _ he (Nat.pos_of_ne_zero hne) rfl
  have hpin : (w.store.frame (w.store.hdrFrame id)).pinCount = 1 := by
    have := h.pinned _ he
    simpa [hpins] using this
  have hfind : (w.store.frameManager.setFrame (w.store.hdrFrame id)
      { w.store.frame (w.store.hdrFrame id) with
        pinCount := (w.store.frame (w.store.hdrFrame id)).pinCount - 1 }).find
      ⟨pool.fileDesc, 0⟩ = some (⟨pool.fileDesc, 0⟩, w.store.hdrFrame id) :=
    (h.table.setFrame _ _).find_of_mem he
  have hpurge : purgePage (w.withStore (w.store.setFrame (w.store.hdrFrame id)
      { w.store.frame (w.store.hdrFrame id) with
        pinCount := (w.store.frame (w.store.hdrFrame id)).pinCount - 1 })) id 0 =
      w₁.purgeFrame id 0 (w.store.hdrFrame id) := by
    unfold purgePage
    show Option.bind (w.store.openPool id) _ = _
    rw [openPool_eq_some.mpr hopen, hw₁]
    simp only [Option.bind_some]
    unfold FrameManager.get unpinned withStore Store.setFrame
    simp only [hfind]
  have hless : (w₁.store.frame (w.store.hdrFrame id)).pinCount = 0 := by
    rw [hw₁]
    unfold unpinned withFrames withStore Store.setFrame Store.frame FrameManager.touch
    simp only [FrameManager.setFrame, Function.update_self]
    exact Nat.sub_eq_zero_of_le (Nat.le_of_eq hpin)
  have hpool₁ : w₁.store.openPool id = some pool := by
    rw [hw₁]
    exact openPool_eq_some.mpr hopen
  unfold purgeHeader
  simp only [hpurge]
  unfold purgeFrame
  rw [hpool₁]
  simp only [Option.bind_eq_bind, Option.bind_some, hless, Nat.lt_irrefl, if_false]
  cases w₁.flushDirty id (w.store.hdrFrame id) with
  | none => rfl
  | some r =>
    obtain ⟨rc, w₂⟩ := r
    by_cases hrc : rc = .success
    · simp [hrc]
      rfl
    · simp [hrc]

/-- The frame of the header is freed, or the pin on it is put back. -/
theorem purgeHeader_closes (h : Keyed returned pins w.store)
    (hopen : IsOpen w.store.manager.pools id pool) :
    Defined False (w.purgeHeader id) fun r =>
      (r.1 ≠ .success → Keeps returned pins w r.2) ∧
      (r.1 = .success → r.2.store.manager = w.store.manager ∧
        ∀ fd, Keyed returned pins { r.2.store with
          manager := r.2.store.manager.drop id pool fd }) := by
  have he := h.hdr hopen
  have hclient := h.clients _ he
  have htouch := h.touch he
  have he₁ : (⟨pool.fileDesc, 0⟩, w.store.hdrFrame id) ∈ Store.entries { w.store with
      frameManager := w.store.frameManager.touch (⟨pool.fileDesc, 0⟩, w.store.hdrFrame id) } :=
    List.mem_cons_self
  have hpin := h.pinned _ he
  rw [if_pos rfl] at hpin
  obtain ⟨w₁, hw₁⟩ : ∃ w₁, w₁ = w.unpinned (⟨pool.fileDesc, 0⟩, w.store.hdrFrame id) := ⟨_, rfl⟩
  have hopen₁ : IsOpen w₁.store.manager.pools id pool := hw₁ ▸ hopen
  have htable : w₁.store.frameManager.Table := hw₁ ▸ (h.table.setFrame _ _).touch he
  have hin : (⟨pool.fileDesc, 0⟩, w.store.hdrFrame id) ∈ w₁.store.frameManager.frames := by
    rw [hw₁]
    exact List.mem_cons_self
  rw [purgeHeader_eq h hopen hw₁]
  obtain ⟨writes, hflush | hflush | hflush⟩ :=
    flushDirty_cases (f := w.store.hdrFrame id) hopen₁
  · -- the header cannot be written
    rw [hflush]
    refine Defined.some ⟨fun _ => ⟨?_, hw₁ ▸ rfl⟩, nofun⟩
    have hdone : Keyed returned pins (Store.setFrame _ (w.store.hdrFrame id)
        { w.store.frame (w.store.hdrFrame id) with
          pinCount := (w.store.frame (w.store.hdrFrame id)).pinCount - 1 + 1 }) :=
      htouch.setPins he₁ rfl rfl (by rw [if_pos rfl, hpin]; rfl) (fun _ _ => rfl) hclient
    refine Eq.mp (congrArg _ ?_) hdone
    rw [hw₁]
    unfold unpinned withFrames withStore Store.setFrame Store.frame FrameManager.touch
    simp only [FrameManager.setFrame, Function.update_self, Function.update_idem]
  · -- the header is clean
    rw [hflush]
    refine Defined.some ⟨fun hne => absurd rfl hne, fun _ => ⟨hw₁ ▸ rfl, fun fd => ?_⟩⟩
    have hdone := htouch.closeFile hopen fd
      { w.store.frame (w.store.hdrFrame id) with
        pinCount := (w.store.frame (w.store.hdrFrame id)).pinCount - 1 }
      (Function.update w.store.disposedPages id [])
    refine Eq.mp (congrArg _ ?_) hdone
    simp only [FaultyStore.withStore, htable.free_eq hin]
    rw [hw₁]
    rfl
  · -- the header is written
    rw [hflush]
    refine Defined.some ⟨fun hne => absurd rfl hne, fun _ => ⟨hw₁ ▸ rfl, fun fd => ?_⟩⟩
    have hwritten := htouch.write _ (h.stored hopen) fun _ => h.header_data hopen
    have hdone := hwritten.closeFile hopen fd
      { w.store.frame (w.store.hdrFrame id) with
        dirty := false
        pinCount := (w.store.frame (w.store.hdrFrame id)).pinCount - 1 }
      (Function.update w.store.disposedPages id [])
    refine Eq.mp (congrArg _ ?_) hdone
    have hfree : (w₁.store.flushed (w.store.hdrFrame id) pool.fileName).frameManager.free
        ⟨pool.fileDesc, 0⟩ (w.store.hdrFrame id) = _ :=
      (htable.setFrame _ _).free_eq hin
    simp only [FaultyStore.withStore, hfree]
    rw [hw₁]
    unfold unpinned withFrames withStore Store.flushed Store.setFrame Store.frame
      FrameManager.touch
    simp only [FrameManager.setFrame, Function.update_self, Function.update_idem]


/-- `close_file` of a pool -/
theorem poolCloseFile_keyed (h : Keyed returned pins w.store) :
    Defined False (w.poolCloseFile id) fun r => Keyed returned pins r.2.store := by
  unfold poolCloseFile
  cases hpool : w.store.openPool id with
  | none => exact Defined.none
  | some pool =>
    have hopen := openPool_eq_some.mp hpool
    refine (purgeHeader_closes h hopen).bind ?_
    rintro ⟨rc, w'⟩ ⟨hfailed, hclosed⟩
    by_cases hrc : rc = .success
    · obtain ⟨hmanager, hdropped⟩ := hclosed hrc
      have hname : w'.store.manager.bufferPools pool.fileName = some id :=
        hmanager ▸ (h.registry.names _ _).mpr ⟨pool, hopen, rfl⟩
      simp only [hrc, ne_eq, not_true, if_false,
        Manager.poolCloseFile_eq hname (hmanager ▸ hopen)]
      exact Defined.some (hdropped (-1))
    · simp only [ne_eq, hrc, not_false_eq_true, if_true]
      exact Defined.some (hfailed hrc).keyed

/-- `close_file` by name -/
theorem closeFile_leads (h : Keyed returned pins w.store) :
    Defined False (w.closeFile name) fun r => Leads returned pins w r.2 := by
  unfold closeFile
  cases hname : w.store.manager.bufferPools name with
  | none => exact Defined.some (Keeps.leads (keeps_refl h))
  | some id =>
    obtain ⟨pool, hopen, rfl⟩ := (h.registry.names _ _).mp hname
    simp only [openPool_eq_some.mpr hopen, Option.bind_eq_bind, Option.bind_some]
    have hset : ∀ {w' : FaultyStore F D} {m : Manager F} {pool'},
        w'.store.manager = w.store.manager → m.pools = w'.store.manager.pools.set id pool' →
        m.fdBufferPools = Function.update w'.store.manager.fdBufferPools pool.fileDesc none →
        LeadsToOpen w.store.manager → LeadsToOpen m := by
      intro w' m pool' hmanager hpools hfds hleads
      rw [hmanager] at hpools hfds
      exact hleads.set h.registry hopen hpools hfds
    refine (purgeHeader_closes h hopen).bind ?_
    rintro ⟨rc, w'⟩ ⟨hfailed, hclosed⟩
    by_cases hrc : rc = .success
    · obtain ⟨hmanager, hdropped⟩ := hclosed hrc
      simp only [hrc, ne_eq, not_true, if_false,
        Manager.closeFile_eq (hmanager ▸ hname) (hmanager ▸ hopen)]
      exact Defined.some ⟨hdropped _, hset hmanager rfl rfl⟩
    · obtain ⟨hkeyed, hmanager⟩ := hfailed hrc
      simp only [ne_eq, hrc, not_false_eq_true, if_true]
      exact Defined.some ⟨hkeyed.leak (hmanager ▸ hopen), hset hmanager rfl rfl⟩

end FaultyStore

end Miniob.Storage.DiskBufferPool
