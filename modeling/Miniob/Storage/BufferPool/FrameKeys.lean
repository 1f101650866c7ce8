import Miniob.Storage.BufferPool.FileHeader
import Miniob.Storage.BufferPool.FrameTable

/-!
# The key of a frame and what the frame says of itself

The loop of `allocate_frame` frees its victim under the descriptor and the page number that the
frame itself carries, and does not look at the answer. It makes progress as long as these are the
key of the frame. Page numbers come from the files, so the files have to hold them too.

* `Keyed`: every entry has the key that its frame carries, every page that `allocate_page` has
  returned is in its file under its number, and every header counts such pages only.
* `Keyed.write`, `Keyed.setFrame`, `Keyed.remove`, `Keyed.insert`: the four changes that the calls
  are made of keep it.
-/

namespace Miniob.Storage.DiskBufferPool

open Miniob.Storage.BufferPool

variable {F D : Type}

/-- The header counts its own page and pages that `allocate_page` has returned. -/
structure FileHeader.Backed (h : FileHeader) (returned : List (F × ℕ)) (name : F) : Prop where
  /-- The bit of page 0 is set. -/
  zero : h.bitmap 0 = true
  /-- The other pages have been returned. -/
  pages : ∀ p < h.pageCount, p ≠ 0 → (name, p) ∈ returned

namespace FileHeader.Backed

variable {h : FileHeader} {returned : List (F × ℕ)} {name : F} {p : ℕ}

theorem mono (hb : h.Backed returned name) (q : F × ℕ) : h.Backed (q :: returned) name :=
  ⟨hb.zero, fun p hp hne => List.mem_cons_of_mem _ (hb.pages p hp hne)⟩

theorem reuse (hb : h.Backed returned name) : (h.reuse p).Backed returned name :=
  ⟨bitmap_update_of_set hb.zero, hb.pages⟩

theorem extend (hb : h.Backed returned name) :
    h.extend.Backed ((name, h.pageCount) :: returned) name := by
  refine ⟨bitmap_update_of_set hb.zero, fun p hp hne => ?_⟩
  by_cases heq : p = h.pageCount
  · rw [heq]
    exact List.mem_cons_self
  · have hp : p < h.pageCount + 1 := hp
    exact List.mem_cons_of_mem _ (hb.pages p (by omega) hne)

theorem dispose (hb : h.Backed returned name) (hp : p ≠ 0) :
    (h.dispose p).Backed returned name :=
  ⟨(Function.update_of_ne hp.symm _ _).trans hb.zero, hb.pages⟩

/-- A page that is taken again has been returned before. -/
theorem of_freePage (hb : h.Backed returned name) (hfree : h.freePage = some p) :
    p ≠ 0 ∧ (name, p) ∈ returned := by
  obtain ⟨hlt, hclear⟩ := freePage_eq_some hfree
  have hne : p ≠ 0 := by
    rintro rfl
    rw [hb.zero] at hclear
    cases hclear
  exact ⟨hne, hb.pages p hlt hne⟩

end FileHeader.Backed

/-- **The frames carry their keys**, where the clients have `pins f` pins on the frame `f` and
`allocate_page` has returned the pages in `returned`. -/
structure Keyed (returned : List (F × ℕ)) (pins : ℕ → ℕ) (s : Store F D) : Prop where
  registry : Routed s.manager
  table : s.frameManager.Table
  labels : ∀ e ∈ s.entries,
    (s.frame e.2).fileDesc = e.1.fileDesc ∧ (s.frame e.2).page.pageNum = e.1.pageNum
  pinned : ∀ e ∈ s.entries,
    (s.frame e.2).pinCount = pins e.2 + if e.1.pageNum = 0 then 1 else 0
  idle : ∀ f, (∀ e ∈ s.entries, e.2 ≠ f) → pins f = 0
  clients : ∀ e ∈ s.entries, 0 < pins e.2 → e.1.pageNum ≠ 0
  zero : ∀ e ∈ s.entries, e.1.pageNum = 0 → ∃ fd ∈ s.manager.used, e.1.fileDesc = (fd : ℕ)
  hdr : ∀ {id pool}, IsOpen s.manager.pools id pool →
    (⟨pool.fileDesc, 0⟩, s.hdrFrame id) ∈ s.entries
  header : ∀ {id pool}, IsOpen s.manager.pools id pool →
    ∃ h, s.fileHeader id = some h ∧ h.Backed returned pool.fileName
  stored : ∀ {id pool}, IsOpen s.manager.pools id pool → s.disk pool.fileName ≠ []
  numbered : ∀ q ∈ returned, q.2 ≠ 0 ∧
    ∃ page : Page D, (s.disk q.1)[q.2]? = some page ∧ page.pageNum = q.2
  first : ∀ (name : F) (page : Page D), (s.disk name)[0]? = some page → page.pageNum = 0 ∧
    ∃ h, page.data = .header h ∧ h.Backed returned name

variable {returned : List (F × ℕ)} {pins pins' : ℕ → ℕ} {s s' : Store F D} {e : FrameId × ℕ}
  {key : FrameId} {id f page : ℕ} {pool : PoolObject F} {hd : FileHeader} {name : F}

section WritePage

variable [Inhabited D] {pages : List (Page D)} {pg : Page D} {n : ℕ}

/-- The page that has been written, wherever the file ended. -/
theorem getElem?_writePage_self : (writePage pages pg)[pg.pageNum]? = some pg := by
  unfold writePage
  split
  case isTrue hlt => exact List.getElem?_set_self hlt
  case isFalse hge =>
    rw [List.getElem?_append_right (by simp; omega)]
    have hzero : pg.pageNum -
        (pages ++ List.replicate (pg.pageNum - pages.length) (⟨0, .bytes default⟩ : Page D)).length
          = 0 := by
      simp
      omega
    rw [hzero]
    rfl

/-- The other pages of the file stay. -/
theorem getElem?_writePage_of_lt (hlt : n < pages.length) (hne : n ≠ pg.pageNum) :
    (writePage pages pg)[n]? = pages[n]? := by
  unfold writePage
  split
  · exact List.getElem?_set_ne (Ne.symm hne)
  · rw [List.append_assoc, List.getElem?_append_left hlt]

theorem writePage_ne_nil : writePage pages pg ≠ [] := by
  intro hnil
  have : (writePage pages pg)[pg.pageNum]? = some pg := getElem?_writePage_self
  rw [hnil] at this
  cases this

end WritePage

namespace Keyed

/-- The frame of an entry with a page number has no pin of a pool. -/
theorem pinCount_eq (h : Keyed returned pins s) (he : e ∈ s.entries) (hpage : e.1.pageNum ≠ 0) :
    (s.frame e.2).pinCount = pins e.2 := by
  rw [h.pinned e he, if_neg hpage, Nat.add_zero]

/-- A victim holds no header. -/
theorem pageNum_ne_zero (h : Keyed returned pins s) (he : e ∈ s.entries)
    (hpin : (s.frame e.2).pinCount = 0) : e.1.pageNum ≠ 0 := by
  intro hzero
  rw [h.pinned e he, if_pos hzero] at hpin
  omega

/-- The frame of a header belongs to one pool. -/
theorem eq_of_hdrFrame (h : Keyed returned pins s) {id' : ℕ} {pool' : PoolObject F}
    (hopen : IsOpen s.manager.pools id pool) (hopen' : IsOpen s.manager.pools id' pool')
    (hframe : s.hdrFrame id' = s.hdrFrame id) : id' = id ∧ pool' = pool := by
  have heq := h.table.eq_of_frame (h.hdr hopen') (h.hdr hopen) hframe
  exact h.registry.eq_of_desc hopen hopen' (congrArg (fun x => x.1.fileDesc) heq)

/-- An entry of page 0 under the descriptor of a pool is that of its header. -/
theorem eq_hdrFrame (h : Keyed returned pins s) (hopen : IsOpen s.manager.pools id pool)
    (he : e ∈ s.entries) (hkey : e.1 = ⟨pool.fileDesc, 0⟩) : s.hdrFrame id = e.2 := by
  have heq := h.table.eq_of_key (h.hdr hopen) he hkey.symm
  exact congrArg Prod.snd heq

/-- What the frame of a header holds. -/
theorem header_data (h : Keyed returned pins s) (hopen : IsOpen s.manager.pools id pool) :
    ∃ hd, (s.frame (s.hdrFrame id)).page.data = .header hd ∧ hd.Backed returned pool.fileName := by
  obtain ⟨hd, hhd, hbacked⟩ := h.header hopen
  refine ⟨hd, ?_, hbacked⟩
  unfold Store.fileHeader at hhd
  split at hhd
  · rename_i hd' hdata
    rw [hdata, Option.some.inj hhd]
  · cases hhd

/-- The order of the entries and of the free frames does not matter. -/
theorem perm (h : Keyed returned pins s) {frames : List (FrameId × ℕ)} {frees : List ℕ}
    (hframes : frames.Perm s.frameManager.frames) (hfrees : frees.Perm s.frameManager.frees) :
    Keyed returned pins
      { s with frameManager := { s.frameManager with frames := frames, frees := frees } } where
  registry := h.registry
  table := h.table.perm hframes hfrees
  labels e he := h.labels e (hframes.mem_iff.mp he)
  pinned e he := h.pinned e (hframes.mem_iff.mp he)
  idle f hf := h.idle f fun e he => hf e (hframes.mem_iff.mpr he)
  clients e he := h.clients e (hframes.mem_iff.mp he)
  zero e he := h.zero e (hframes.mem_iff.mp he)
  hdr hopen := hframes.mem_iff.mpr (h.hdr hopen)
  header := h.header
  stored := h.stored
  numbered := h.numbered
  first := h.first

/-- Looking an entry up. -/
theorem touch (h : Keyed returned pins s) (he : e ∈ s.entries) :
    Keyed returned pins { s with frameManager := s.frameManager.touch e } :=
  h.perm (FrameManager.perm_touch he) (List.Perm.refl _)

/-- The pages that wait for their last pin do not matter. -/
theorem setDisposed (h : Keyed returned pins s) (disposedPages : ℕ → List ℕ) :
    Keyed returned pins { s with disposedPages := disposedPages } :=
  { h with }

/-- Nor does what a pool that does not exist yet would have. -/
theorem setNew (h : Keyed returned pins s) (f : ℕ) (disposedPages : ℕ → List ℕ) :
    Keyed returned pins { s with
      hdrFrame := Function.update s.hdrFrame s.manager.pools.length f
      disposedPages := disposedPages } := by
  have hold : ∀ {id pool}, IsOpen s.manager.pools id pool →
      Function.update s.hdrFrame s.manager.pools.length f id = s.hdrFrame id := fun hopen =>
    Function.update_of_ne (List.getElem?_eq_some_iff.mp hopen.1).1.ne _ _
  refine { h with hdr := fun {id pool} hopen => ?_, header := fun {id pool} hopen => ?_ }
  · show (_, Function.update s.hdrFrame s.manager.pools.length f id) ∈ s.entries
    rw [hold hopen]
    exact h.hdr hopen
  · obtain ⟨hd, hhd, hbacked⟩ := h.header hopen
    refine ⟨hd, ?_, hbacked⟩
    unfold Store.fileHeader at hhd ⊢
    simp only [hold hopen]
    exact hhd

/-- The frame of an entry changes, and the pins on it. -/
theorem setFrame (h : Keyed returned pins s) (he : e ∈ s.entries) {frame : Frame D}
    (hlabel : frame.fileDesc = e.1.fileDesc ∧ frame.page.pageNum = e.1.pageNum)
    (hpin : frame.pinCount = pins' e.2 + if e.1.pageNum = 0 then 1 else 0)
    (hpins : ∀ f, f ≠ e.2 → pins' f = pins f) (hclient : 0 < pins' e.2 → e.1.pageNum ≠ 0)
    (hdata : ∀ {id pool}, IsOpen s.manager.pools id pool → s.hdrFrame id = e.2 →
      ∃ hd, frame.page.data = .header hd ∧ hd.Backed returned pool.fileName) :
    Keyed returned pins' (s.setFrame e.2 frame) := by
  have hself : (s.setFrame e.2 frame).frame e.2 = frame := Function.update_self _ _ _
  have hother : ∀ f, f ≠ e.2 → (s.setFrame e.2 frame).frame f = s.frame f :=
    fun f hf => Function.update_of_ne hf _ _
  have hne : ∀ e' ∈ s.entries, e' ≠ e → e'.2 ≠ e.2 :=
    fun e' he' hne heq => hne (h.table.eq_of_frame he' he heq)
  refine
    { registry := h.registry
      table := h.table.setFrame _ _
      labels := fun e' he' => ?_
      pinned := fun e' he' => ?_
      idle := fun f hf => (hpins f (Ne.symm (hf e he))).trans (h.idle f hf)
      clients := fun e' he' hpos => ?_
      zero := h.zero
      hdr := h.hdr
      header := fun {id pool} hopen => ?_
      stored := h.stored
      numbered := h.numbered
      first := h.first }
  · by_cases heq : e' = e
    · rw [heq, hself]
      exact hlabel
    · rw [hother _ (hne e' he' heq)]
      exact h.labels e' he'
  · by_cases heq : e' = e
    · rw [heq, hself]
      exact hpin
    · rw [hother _ (hne e' he' heq), hpins _ (hne e' he' heq)]
      exact h.pinned e' he'
  · by_cases heq : e' = e
    · exact heq ▸ hclient (heq ▸ hpos)
    · rw [hpins _ (hne e' he' heq)] at hpos
      exact h.clients e' he' hpos
  · by_cases hframe : s.hdrFrame id = e.2
    · obtain ⟨hd, hhd, hbacked⟩ := hdata hopen hframe
      refine ⟨hd, ?_, hbacked⟩
      have heq : (s.setFrame e.2 frame).frame ((s.setFrame e.2 frame).hdrFrame id) = frame := by
        show (s.setFrame e.2 frame).frame (s.hdrFrame id) = frame
        rw [hframe, hself]
      unfold Store.fileHeader
      rw [heq, hhd]
    · obtain ⟨hd, hhd, hbacked⟩ := h.header hopen
      refine ⟨hd, ?_, hbacked⟩
      have heq : (s.setFrame e.2 frame).frame ((s.setFrame e.2 frame).hdrFrame id) =
          s.frame (s.hdrFrame id) := hother _ hframe
      unfold Store.fileHeader at hhd ⊢
      rwa [heq]

/-- The frame of an entry changes, but for its page. -/
theorem setPins (h : Keyed returned pins s) (he : e ∈ s.entries) {frame : Frame D}
    (hfd : frame.fileDesc = (s.frame e.2).fileDesc) (hpage : frame.page = (s.frame e.2).page)
    (hpin : frame.pinCount = pins' e.2 + if e.1.pageNum = 0 then 1 else 0)
    (hpins : ∀ f, f ≠ e.2 → pins' f = pins f) (hclient : 0 < pins' e.2 → e.1.pageNum ≠ 0) :
    Keyed returned pins' (s.setFrame e.2 frame) := by
  refine h.setFrame he ?_ hpin hpins hclient fun {id pool} hopen hframe => ?_
  · rw [hfd, hpage]
    exact h.labels e he
  · rw [hpage, ← hframe]
    exact h.header_data hopen

/-- The header of an open file changes. -/
theorem setFileHeader (h : Keyed returned pins s) (hopen : IsOpen s.manager.pools id pool)
    (hbacked : hd.Backed returned pool.fileName) :
    Keyed returned pins (s.setFileHeader id hd) := by
  have he := h.hdr hopen
  refine h.setFrame he (h.labels _ he) (h.pinned _ he) (fun _ _ => rfl) (h.clients _ he) ?_
  intro id' pool' hopen' hframe
  obtain ⟨rfl, rfl⟩ := h.eq_of_hdrFrame hopen hopen' hframe
  exact ⟨hd, rfl, hbacked⟩

/-- An unpinned frame is freed. -/
theorem remove (h : Keyed returned pins s) (he : e ∈ s.entries)
    (hpin : (s.frame e.2).pinCount = 0) : Keyed returned pins (s.removed e) := by
  have hmem : ∀ e' ∈ (s.removed e).entries, e' ∈ s.entries := fun _ => List.mem_of_mem_erase
  refine
    { registry := h.registry
      table := h.table.give he
      labels := fun e' he' => h.labels e' (hmem e' he')
      pinned := fun e' he' => h.pinned e' (hmem e' he')
      idle := fun f hf => ?_
      clients := fun e' he' => h.clients e' (hmem e' he')
      zero := fun e' he' => h.zero e' (hmem e' he')
      hdr := fun {id pool} hopen => ?_
      header := h.header
      stored := h.stored
      numbered := h.numbered
      first := h.first }
  · by_cases heq : f = e.2
    · have hpins := h.pinned e he
      rw [heq]
      omega
    · refine h.idle f fun e' he' hf' => hf e' ((List.mem_erase_of_ne ?_).mpr he') hf'
      rintro rfl
      exact heq hf'.symm
  · have hne : (⟨pool.fileDesc, 0⟩, s.hdrFrame id) ≠ e := by
      rintro rfl
      exact h.pageNum_ne_zero he hpin rfl
    exact (List.mem_erase_of_ne hne).mpr (h.hdr hopen)

/-- No entry has a frame that is free. -/
theorem frame_ne_of_free (h : Keyed returned pins s) {frees : List ℕ}
    (hfree : s.frameManager.frees = f :: frees) : ∀ e ∈ s.entries, e.2 ≠ f := by
  rintro e he rfl
  have hids := h.table.ids
  rw [hfree] at hids
  exact (List.nodup_append.mp hids).2.2 _ (List.mem_map_of_mem he) _ List.mem_cons_self rfl

/-- A page of a client gets a free frame. -/
theorem insert (h : Keyed returned pins s) (frame : Frame D) {frees : List ℕ}
    (hfree : s.frameManager.frees = f :: frees) (hfresh : ∀ e ∈ s.entries, e.1 ≠ key)
    (hpage : key.pageNum ≠ 0)
    (hlabel : frame.fileDesc = key.fileDesc ∧ frame.page.pageNum = key.pageNum)
    (hpin : frame.pinCount = 1) :
    Keyed returned (Function.update pins f (pins f + 1)) { s with
      frameManager := ⟨Function.update s.frameManager.frame f frame,
        (key, f) :: s.frameManager.frames, frees⟩ } := by
  obtain ⟨s', hs'⟩ : ∃ s' : Store F D, s' = { s with
      frameManager := ⟨Function.update s.frameManager.frame f frame,
        (key, f) :: s.frameManager.frames, frees⟩ } := ⟨_, rfl⟩
  rw [← hs']
  have hidle := h.idle f (h.frame_ne_of_free hfree)
  have hself : s'.frame f = frame := by
    rw [hs']
    exact Function.update_self _ _ _
  have hother : ∀ f', f' ≠ f → s'.frame f' = s.frame f' := by
    intro f' hf'
    rw [hs']
    exact Function.update_of_ne hf' _ _
  have hmem : ∀ e ∈ s'.entries, e = (key, f) ∨ e ∈ s.entries ∧ e.2 ≠ f := by
    intro e he
    rw [hs'] at he
    rcases List.mem_cons.mp he with rfl | he
    · exact Or.inl rfl
    · exact Or.inr ⟨he, h.frame_ne_of_free hfree e he⟩
  refine
    { registry := hs' ▸ h.registry
      table := hs' ▸ h.table.take hfree hfresh
      labels := fun e he => ?_
      pinned := fun e he => ?_
      idle := fun f' hf' => ?_
      clients := fun e he hpos => ?_
      zero := fun e he hzero => ?_
      hdr := fun {id pool} hopen => ?_
      header := fun {id pool} hopen => ?_
      stored := hs' ▸ h.stored
      numbered := hs' ▸ h.numbered
      first := hs' ▸ h.first }
  · rcases hmem e he with rfl | ⟨he, hne⟩
    · rw [hself]
      exact hlabel
    · rw [hother _ hne]
      exact h.labels e he
  · rcases hmem e he with rfl | ⟨he, hne⟩
    · rw [hself, hpin, Function.update_self, hidle, if_neg hpage]
    · rw [hother _ hne, Function.update_of_ne hne]
      exact h.pinned e he
  · have hne : f' ≠ f := fun heq => hf' (key, f) (hs' ▸ List.mem_cons_self) heq.symm
    rw [Function.update_of_ne hne]
    exact h.idle f' fun e he => hf' e (hs' ▸ List.mem_cons_of_mem _ he)
  · rcases hmem e he with rfl | ⟨he, hne⟩
    · exact hpage
    · rw [Function.update_of_ne hne] at hpos
      exact h.clients e he hpos
  · rcases hmem e he with rfl | ⟨he, -⟩
    · exact absurd hzero hpage
    · exact hs' ▸ h.zero e he hzero
  · rw [hs'] at hopen ⊢
    exact List.mem_cons_of_mem _ (h.hdr hopen)
  · have hopen : IsOpen s.manager.pools id pool := by rwa [hs'] at hopen
    obtain ⟨hd, hhd, hbacked⟩ := h.header hopen
    refine ⟨hd, ?_, hbacked⟩
    have hhdr : s'.hdrFrame = s.hdrFrame := by rw [hs']
    unfold Store.fileHeader at hhd ⊢
    rw [hhdr, hother _ (h.frame_ne_of_free hfree _ (h.hdr hopen))]
    exact hhd

/-- A page that is in its file under its number has been returned. -/
theorem note (h : Keyed returned pins s) {p : ℕ} (hp : p ≠ 0)
    (hpage : ∃ page : Page D, (s.disk name)[p]? = some page ∧ page.pageNum = p) :
    Keyed ((name, p) :: returned) pins s := by
  refine
    { h with
      header := fun hopen => ?_
      numbered := fun q hq => ?_
      first := fun n pg hpg => ?_ }
  · obtain ⟨hd, hhd, hbacked⟩ := h.header hopen
    exact ⟨hd, hhd, hbacked.mono _⟩
  · rcases List.mem_cons.mp hq with rfl | hq
    · exact ⟨hp, hpage⟩
    · exact h.numbered q hq
  · obtain ⟨hnum, hd, hdata, hbacked⟩ := h.first n pg hpg
    exact ⟨hnum, hd, hdata, hbacked.mono _⟩

variable [DecidableEq F] [Inhabited D]

/-- A page is written to a file that is open. Page 0 gets a header that counts returned pages. -/
theorem write (h : Keyed returned pins s) (pg : Page D) (hne : s.disk name ≠ [])
    (hpage : pg.pageNum = 0 → ∃ hd, pg.data = .header hd ∧ hd.Backed returned name) :
    Keyed returned pins { s with
      disk := Function.update s.disk name (writePage (s.disk name) pg) } := by
  refine
    { h with
      stored := fun {id pool} hopen => ?_
      numbered := fun q hq => ?_
      first := fun name' pg' hpg' => ?_ }
  · show Function.update s.disk name _ pool.fileName ≠ []
    by_cases hname : pool.fileName = name
    · rw [hname, Function.update_self]
      exact writePage_ne_nil
    · rw [Function.update_of_ne hname]
      exact h.stored hopen
  · obtain ⟨hzero, pg', hget, hnum⟩ := h.numbered q hq
    refine ⟨hzero, ?_⟩
    show ∃ page, (Function.update s.disk name _ q.1)[q.2]? = some page ∧ _
    by_cases hname : q.1 = name
    · rw [hname, Function.update_self]
      rw [hname] at hget
      by_cases hn : q.2 = pg.pageNum
      · rw [hn]
        exact ⟨pg, getElem?_writePage_self, rfl⟩
      · rw [getElem?_writePage_of_lt (List.getElem?_eq_some_iff.mp hget).1 hn]
        exact ⟨pg', hget, hnum⟩
    · rw [Function.update_of_ne hname]
      exact ⟨pg', hget, hnum⟩
  · have hpg' : (Function.update s.disk name (writePage (s.disk name) pg) name')[0]? = some pg' :=
      hpg'
    by_cases hname : name' = name
    · subst hname
      rw [Function.update_self] at hpg'
      by_cases hn : 0 = pg.pageNum
      · have hself : (writePage (s.disk name') pg)[pg.pageNum]? = some pg :=
          getElem?_writePage_self
        rw [← hn, hpg'] at hself
        obtain rfl := Option.some.inj hself
        exact ⟨hn.symm, hpage hn.symm⟩
      · rw [getElem?_writePage_of_lt (List.length_pos_iff.mpr hne) hn] at hpg'
        exact h.first name' pg' hpg'
    · rw [Function.update_of_ne hname] at hpg'
      exact h.first name' pg' hpg'

omit [Inhabited D] in
/-- A file is opened: its header has got a free frame, and its pool is registered. -/
theorem openFile (h : Keyed returned pins s) {frees : List ℕ}
    (hfree : s.frameManager.frees = f :: frees)
    (hfresh : ∀ e ∈ s.entries, e.1 ≠ ⟨lowestFree s.manager.used, 0⟩)
    (hname : s.manager.bufferPools name = none) {pg : Page D}
    (hpg : (s.disk name)[0]? = some pg) (disposedPages : ℕ → List ℕ) :
    Keyed returned pins
      { manager := opened s.manager name
        hdrFrame := Function.update s.hdrFrame s.manager.pools.length f
        disposedPages := disposedPages
        frameManager := ⟨Function.update s.frameManager.frame f
          ⟨false, 1, lowestFree s.manager.used, pg⟩,
          (⟨lowestFree s.manager.used, 0⟩, f) :: s.frameManager.frames, frees⟩
        disk := s.disk } := by
  obtain ⟨s', hs'⟩ : ∃ s' : Store F D, s' =
      { manager := opened s.manager name
        hdrFrame := Function.update s.hdrFrame s.manager.pools.length f
        disposedPages := disposedPages
        frameManager := ⟨Function.update s.frameManager.frame f
          ⟨false, 1, lowestFree s.manager.used, pg⟩,
          (⟨lowestFree s.manager.used, 0⟩, f) :: s.frameManager.frames, frees⟩
        disk := s.disk } := ⟨_, rfl⟩
  rw [← hs']
  obtain ⟨hnum, hd, hdata, hbacked⟩ := h.first name pg hpg
  have hidle := h.idle f (h.frame_ne_of_free hfree)
  have hself : s'.frame f = ⟨false, 1, lowestFree s.manager.used, pg⟩ := by
    rw [hs']
    exact Function.update_self _ _ _
  have hother : ∀ f', f' ≠ f → s'.frame f' = s.frame f' := by
    intro f' hf'
    rw [hs']
    exact Function.update_of_ne hf' _ _
  have hmem : ∀ e ∈ s'.entries, e = (⟨lowestFree s.manager.used, 0⟩, f) ∨
      e ∈ s.entries ∧ e.2 ≠ f := by
    intro e he
    rw [hs'] at he
    rcases List.mem_cons.mp he with rfl | he
    · exact Or.inl rfl
    · exact Or.inr ⟨he, h.frame_ne_of_free hfree e he⟩
  have hpools : ∀ {id pool}, IsOpen s'.manager.pools id pool →
      IsOpen s.manager.pools id pool ∧ s'.hdrFrame id = s.hdrFrame id ∨
      pool = ⟨name, lowestFree s.manager.used, 0, 0⟩ ∧ s'.hdrFrame id = f := by
    intro id pool hopen
    rw [hs'] at hopen ⊢
    rcases isOpen_opened.mp hopen with hold | ⟨rfl, rfl⟩
    · have hlt := (List.getElem?_eq_some_iff.mp hold.1).1
      exact Or.inl ⟨hold, Function.update_of_ne hlt.ne _ _⟩
    · exact Or.inr ⟨rfl, Function.update_self _ _ _⟩
  refine
    { registry := hs' ▸ h.registry.opened hname
      table := hs' ▸ h.table.take hfree hfresh
      labels := fun e he => ?_
      pinned := fun e he => ?_
      idle := fun f' hf' => ?_
      clients := fun e he hpos => ?_
      zero := fun e he hzero => ?_
      hdr := fun {id pool} hopen => ?_
      header := fun {id pool} hopen => ?_
      stored := fun {id pool} hopen => ?_
      numbered := hs' ▸ h.numbered
      first := hs' ▸ h.first }
  · rcases hmem e he with rfl | ⟨he, hne⟩
    · rw [hself]
      exact ⟨rfl, hnum⟩
    · rw [hother _ hne]
      exact h.labels e he
  · rcases hmem e he with rfl | ⟨he, hne⟩
    · rw [hself, hidle]
      rfl
    · rw [hother _ hne]
      exact h.pinned e he
  · exact h.idle f' fun e he => hf' e (hs' ▸ List.mem_cons_of_mem _ he)
  · rcases hmem e he with rfl | ⟨he, -⟩
    · rw [hidle] at hpos
      exact absurd hpos (Nat.lt_irrefl 0)
    · exact h.clients e he hpos
  · rcases hmem e he with rfl | ⟨he, -⟩
    · rw [hs']
      exact ⟨_, List.mem_cons_self, rfl⟩
    · obtain ⟨fd, hfd, heq⟩ := h.zero e he hzero
      rw [hs']
      exact ⟨fd, List.mem_cons_of_mem _ hfd, heq⟩
  · rcases hpools hopen with ⟨hold, hframe⟩ | ⟨rfl, hframe⟩
    · rw [hframe, hs']
      exact List.mem_cons_of_mem _ (h.hdr hold)
    · rw [hframe, hs']
      exact List.mem_cons_self
  · rcases hpools hopen with ⟨hold, hframe⟩ | ⟨rfl, hframe⟩
    · obtain ⟨hd', hhd', hbacked'⟩ := h.header hold
      refine ⟨hd', ?_, hbacked'⟩
      unfold Store.fileHeader at hhd' ⊢
      rw [hframe, hother _ (h.frame_ne_of_free hfree _ (h.hdr hold))]
      exact hhd'
    · refine ⟨hd, ?_, hbacked⟩
      unfold Store.fileHeader
      rw [hframe, hself, hdata]
  · rcases hpools hopen with ⟨hold, -⟩ | ⟨rfl, -⟩
    · rw [hs']
      exact h.stored hold
    · rw [hs']
      intro hnil
      have hnil : s.disk name = [] := hnil
      rw [hnil] at hpg
      cases hpg

omit [Inhabited D] in
/-- A file is closed: the frame of its header is free, and its pool is dropped. -/
theorem closeFile (h : Keyed returned pins s) (hopen : IsOpen s.manager.pools id pool) (fd : Int)
    (frame : Frame D) (disposedPages : ℕ → List ℕ) :
    Keyed returned pins
      { manager := s.manager.drop id pool fd
        hdrFrame := s.hdrFrame
        disposedPages := disposedPages
        frameManager := ⟨Function.update s.frameManager.frame (s.hdrFrame id) frame,
          s.frameManager.frames.erase (⟨pool.fileDesc, 0⟩, s.hdrFrame id),
          s.frameManager.frees ++ [s.hdrFrame id]⟩
        disk := s.disk } := by
  obtain ⟨s', hs'⟩ : ∃ s' : Store F D, s' =
      { manager := s.manager.drop id pool fd
        hdrFrame := s.hdrFrame
        disposedPages := disposedPages
        frameManager := ⟨Function.update s.frameManager.frame (s.hdrFrame id) frame,
          s.frameManager.frames.erase (⟨pool.fileDesc, 0⟩, s.hdrFrame id),
          s.frameManager.frees ++ [s.hdrFrame id]⟩
        disk := s.disk } := ⟨_, rfl⟩
  rw [← hs']
  have he := h.hdr hopen
  have hpins : pins (s.hdrFrame id) = 0 := by
    by_contra hne
    exact h.clients _ he (Nat.pos_of_ne_zero hne) rfl
  have hnodup : s.entries.Nodup := List.Nodup.of_map _ h.table.keys
  have hmem : ∀ e, e ∈ s'.entries ↔ e ≠ (⟨pool.fileDesc, 0⟩, s.hdrFrame id) ∧ e ∈ s.entries := by
    intro e
    rw [hs']
    exact hnodup.mem_erase_iff
  have hother : ∀ e ∈ s'.entries, s'.frame e.2 = s.frame e.2 := by
    intro e he'
    obtain ⟨hne, hin⟩ := (hmem e).mp he'
    rw [hs']
    exact Function.update_of_ne (fun heq => hne (h.table.eq_of_frame hin he heq)) _ _
  have hpools : ∀ {id' pool'}, IsOpen s'.manager.pools id' pool' →
      id' ≠ id ∧ IsOpen s.manager.pools id' pool' := by
    intro id' pool' hopen'
    rw [hs'] at hopen'
    exact (isOpen_drop hopen fd).mp hopen'
  have hhdr : ∀ {id' pool'}, IsOpen s'.manager.pools id' pool' →
      (⟨pool'.fileDesc, 0⟩, s'.hdrFrame id') ∈ s'.entries := by
    intro id' pool' hopen'
    obtain ⟨hne, hopen'⟩ := hpools hopen'
    rw [hmem, hs']
    refine ⟨fun heq => hne ?_, h.hdr hopen'⟩
    exact h.registry.descs hopen' hopen (congrArg (fun x : FrameId × ℕ => x.1.fileDesc) heq)
  refine
    { registry := hs' ▸ h.registry.drop hopen fd
      table := hs' ▸ (h.table.give he).setFrame _ _
      labels := fun e he' => ?_
      pinned := fun e he' => ?_
      idle := fun f hf => ?_
      clients := fun e he' => h.clients e ((hmem e).mp he').2
      zero := fun e he' hzero => ?_
      hdr := hhdr
      header := fun {id' pool'} hopen' => ?_
      stored := fun {id' pool'} hopen' => ?_
      numbered := hs' ▸ h.numbered
      first := hs' ▸ h.first }
  · rw [hother e he']
    exact h.labels e ((hmem e).mp he').2
  · rw [hother e he']
    exact h.pinned e ((hmem e).mp he').2
  · by_cases hframe : f = s.hdrFrame id
    · rw [hframe]
      exact hpins
    · refine h.idle f fun e hin heq => hf e ((hmem e).mpr ⟨?_, hin⟩) heq
      rintro rfl
      exact hframe heq.symm
  · obtain ⟨hne, hin⟩ := (hmem e).mp he'
    obtain ⟨n, hn, heq⟩ := h.zero e hin hzero
    rw [hs']
    refine ⟨n, (List.mem_erase_of_ne fun hsame => hne ?_).mpr hn, heq⟩
    refine h.table.eq_of_key hin he ?_
    have hge := hopen.2
    have hfd : e.1.fileDesc = pool.fileDesc := by omega
    show e.1 = ⟨pool.fileDesc, 0⟩
    rw [← hfd, ← hzero]
  · obtain ⟨-, hopen₀⟩ := hpools hopen'
    obtain ⟨hd, hhd, hbacked⟩ := h.header hopen₀
    refine ⟨hd, ?_, hbacked⟩
    have hframe := hother _ (hhdr hopen')
    have hsame : s'.hdrFrame = s.hdrFrame := by rw [hs']
    unfold Store.fileHeader at hhd ⊢
    simp only [hsame] at hframe ⊢
    rw [hframe]
    exact hhd
  · rw [hs']
    exact h.stored (hpools hopen').2

omit [Inhabited D] in
/-- A pool is deleted that could not close its file. -/
theorem leak (h : Keyed returned pins s) (hopen : IsOpen s.manager.pools id pool) :
    Keyed returned pins { s with manager := FaultyStore.leak s.manager id pool } := by
  have hneg : ({ pool with fileDesc := -1, deleted := pool.deleted + 1 } :
      PoolObject F).fileDesc < 0 := by
    show (-1 : Int) < 0
    decide
  have hold : ∀ {id' pool'}, IsOpen (FaultyStore.leak s.manager id pool).pools id' pool' →
      IsOpen s.manager.pools id' pool' := by
    rintro id' pool' ⟨hget, hge⟩
    rcases (getElem?_set_iff hopen.1).mp hget with ⟨-, hget⟩ | ⟨-, rfl⟩
    · exact ⟨hget, hge⟩
    · exact absurd hge (not_le.mpr hneg)
  have hfds : ∀ {fd id'}, (FaultyStore.leak s.manager id pool).fdBufferPools fd = some id' →
      s.manager.fdBufferPools fd = some id' := by
    intro fd id' hfd
    have hfd : Function.update s.manager.fdBufferPools pool.fileDesc none fd = some id' := hfd
    by_cases heq : fd = pool.fileDesc
    · rw [heq, Function.update_self] at hfd
      cases hfd
    · rwa [Function.update_of_ne heq] at hfd
  refine
    { h with
      registry := ⟨h.registry.names.erase hneg hopen,
        fun h₁ h₂ => h.registry.descs (hold h₁) (hold h₂), fun h₁ => h.registry.inUse (hold h₁),
        fun hfd => ?_, fun hfd h₁ => h.registry.route (hfds hfd) (hold h₁)⟩
      hdr := fun hopen' => h.hdr (hold hopen')
      header := fun hopen' => h.header (hold hopen')
      stored := fun hopen' => h.stored (hold hopen') }
  show _ < (s.manager.pools.set id _).length
  rw [List.length_set]
  exact h.registry.known (hfds hfd)

end Keyed

end Miniob.Storage.DiskBufferPool
