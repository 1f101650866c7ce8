import Miniob.Storage.BufferPool.DiskBufferPool

/-!
# What the frames and the files hold together

`Coherent` relates the pools to the pages of the files: a page that has a frame is what the frame
holds, and any other page is what the file holds. A frame that is not dirty holds what the file
holds, unless a client has modified it and not yet marked it. The entry of a frame names the
descriptor and the page number that the frame itself carries.

Three changes keep it: one frame and the place of its page change together (`Coherent.change`), a
page gets a frame (`Coherent.insert`), an unpinned clean frame is freed (`Coherent.remove`).
-/

namespace Miniob.Storage.DiskBufferPool

open Miniob.Storage.BufferPool

variable {F D : Type}

/-- No two entries share a page or a frame, and no frame in use is free. -/
structure FrameManager.Table (fm : FrameManager D) : Prop where
  keys : (fm.frames.map (·.1)).Nodup
  ids : (fm.frames.map (·.2) ++ fm.frees).Nodup

namespace FrameManager

variable {fm : FrameManager D} {e e' : FrameId × ℕ} {key : FrameId}

theorem Table.eq_of_key (h : fm.Table) (he : e ∈ fm.frames) (he' : e' ∈ fm.frames)
    (hkey : e.1 = e'.1) : e = e' :=
  List.inj_on_of_nodup_map h.keys he he' hkey

theorem Table.eq_of_frame (h : fm.Table) (he : e ∈ fm.frames) (he' : e' ∈ fm.frames)
    (hid : e.2 = e'.2) : e = e' :=
  List.inj_on_of_nodup_map (List.nodup_append.mp h.ids).1 he he' hid

theorem find_eq_some (hfind : fm.find key = some e) : e ∈ fm.frames ∧ e.1 = key := by
  refine ⟨List.mem_of_find?_eq_some hfind, ?_⟩
  simpa using List.find?_some hfind

theorem find_eq_none (hfind : fm.find key = none) : ∀ e ∈ fm.frames, e.1 ≠ key := by
  intro e he
  simpa using List.find?_eq_none.mp hfind e he

theorem Table.find_of_mem (h : fm.Table) (he : e ∈ fm.frames) : fm.find e.1 = some e := by
  cases hfind : fm.find e.1 with
  | none => exact absurd rfl (find_eq_none hfind e he)
  | some e' =>
      obtain ⟨he', hkey⟩ := find_eq_some hfind
      rw [h.eq_of_key he' he hkey]

/-- Moving an entry to the front. -/
theorem perm_touch (he : e ∈ fm.frames) : (fm.touch e).frames.Perm fm.frames :=
  (List.perm_cons_erase he).symm

end FrameManager

/-- The registry as the frames need it: the map by name is exact, open pools have different
descriptors, and the map by descriptor leads to no other open pool. -/
structure Routed (m : Manager F) : Prop where
  names : Indexes m.pools (·.fileName) m.bufferPools
  descs : ∀ {id id' pool pool'}, IsOpen m.pools id pool → IsOpen m.pools id' pool' →
    pool.fileDesc = pool'.fileDesc → id = id'
  inUse : ∀ {id pool}, IsOpen m.pools id pool → pool.fileDesc.toNat ∈ m.used
  known : ∀ {fd id}, m.fdBufferPools fd = some id → id < m.pools.length
  route : ∀ {fd id pool}, m.fdBufferPools fd = some id → IsOpen m.pools id pool →
    pool.fileDesc = fd

section Opened

variable [DecidableEq F] {m : Manager F} {name : F}

/-- The registry after a file has been opened. -/
def opened (m : Manager F) (name : F) : Manager F :=
  Manager.register { m with
    pools := m.pools ++ [⟨name, lowestFree m.used, 0, 0⟩], used := lowestFree m.used :: m.used }
    name (lowestFree m.used) m.pools.length

theorem openFile_eq (hname : m.bufferPools name = none) :
    m.openFile name .success = (.success, opened m name) := by
  simp [Manager.openFile, hname, opened]

/-- The open pools are the old ones and the new one. -/
theorem isOpen_opened {id : ℕ} {pool : PoolObject F} :
    IsOpen (opened m name).pools id pool ↔ IsOpen m.pools id pool ∨
      id = m.pools.length ∧ pool = ⟨name, lowestFree m.used, 0, 0⟩ := by
  unfold BufferPool.IsOpen
  show (m.pools ++ [_])[id]? = some pool ∧ 0 ≤ pool.fileDesc ↔ _
  rw [getElem?_concat_iff]
  constructor
  · rintro ⟨hold | ⟨rfl, rfl⟩, hge⟩
    · exact Or.inl ⟨hold, hge⟩
    · exact Or.inr ⟨rfl, rfl⟩
  · rintro (⟨hold, hge⟩ | ⟨rfl, rfl⟩)
    · exact ⟨Or.inl hold, hge⟩
    · exact ⟨Or.inr ⟨rfl, rfl⟩, Int.natCast_nonneg _⟩

/-- What the map by descriptor holds after a file has been opened. -/
theorem fdBufferPools_opened {fd : Int} {id : ℕ}
    (hfd : (opened m name).fdBufferPools fd = some id) :
    m.fdBufferPools fd = some id ∨ fd = lowestFree m.used ∧ id = m.pools.length := by
  have hfd : Function.update m.fdBufferPools (lowestFree m.used : Int)
      (m.fdBufferPools (lowestFree m.used) <|> some m.pools.length) fd = some id := hfd
  by_cases hf : fd = lowestFree m.used
  · subst hf
    rw [Function.update_self] at hfd
    cases hm : m.fdBufferPools (lowestFree m.used) with
    | some id' =>
        rw [hm] at hfd
        exact Or.inl hfd
    | none =>
        rw [hm] at hfd
        exact Or.inr ⟨rfl, (Option.some.inj hfd).symm⟩
  · rw [Function.update_of_ne hf] at hfd
    exact Or.inl hfd

omit [DecidableEq F] in
/-- The new descriptor is not one of an open pool. -/
theorem Routed.fileDesc_ne (h : Routed m) {id : ℕ} {pool : PoolObject F}
    (hopen : IsOpen m.pools id pool) : pool.fileDesc ≠ lowestFree m.used := by
  intro heq
  have := h.inUse hopen
  rw [heq, Int.toNat_natCast] at this
  exact lowestFree_notMem m.used this

theorem Routed.opened (h : Routed m) (hname : m.bufferPools name = none) :
    Routed (opened m name) := by
  let new : PoolObject F := ⟨name, lowestFree m.used, 0, 0⟩
  have hnew : 0 ≤ new.fileDesc := Int.natCast_nonneg _
  refine ⟨h.names.concat hnew hname, fun hopen hopen' heq => ?_, fun hopen => ?_, fun hfd => ?_,
    fun hfd hopen => ?_⟩
  · rcases isOpen_opened.mp hopen with hold | ⟨rfl, rfl⟩
    · rcases isOpen_opened.mp hopen' with hold' | ⟨rfl, rfl⟩
      · exact h.descs hold hold' heq
      · exact absurd heq (h.fileDesc_ne hold)
    · rcases isOpen_opened.mp hopen' with hold' | ⟨rfl, rfl⟩
      · exact absurd heq.symm (h.fileDesc_ne hold')
      · rfl
  · rcases isOpen_opened.mp hopen with hold | ⟨rfl, rfl⟩
    · exact List.mem_cons_of_mem _ (h.inUse hold)
    · exact List.mem_cons_self
  · show _ < (m.pools ++ [_]).length
    rw [List.length_append, List.length_singleton]
    rcases fdBufferPools_opened hfd with hold | ⟨-, rfl⟩
    · exact Nat.lt_succ_of_lt (h.known hold)
    · exact Nat.lt_succ_self _
  · rcases fdBufferPools_opened hfd with hold | ⟨rfl, rfl⟩
    · rcases isOpen_opened.mp hopen with hopen | ⟨rfl, rfl⟩
      · exact h.route hold hopen
      · exact absurd (h.known hold) (lt_irrefl _)
    · rcases isOpen_opened.mp hopen with hopen | ⟨-, rfl⟩
      · have := (List.getElem?_eq_some_iff.mp hopen.1).1
        exact absurd this (lt_irrefl _)
      · rfl

/-- The open pools after one has been closed. -/
theorem isOpen_drop {id id' : ℕ} {pool pool' : PoolObject F} (hopen : IsOpen m.pools id pool)
    (fd : Int) :
    IsOpen (m.drop id pool fd).pools id' pool' ↔ id' ≠ id ∧ IsOpen m.pools id' pool' := by
  unfold BufferPool.IsOpen
  show (m.pools.set id _)[id']? = some pool' ∧ 0 ≤ pool'.fileDesc ↔ _
  rw [getElem?_set_iff hopen.1]
  constructor
  · rintro ⟨⟨hne, hget⟩ | ⟨-, rfl⟩, hge⟩
    · exact ⟨hne, hget, hge⟩
    · simp [Manager.dropped] at hge
  · rintro ⟨hne, hget, hge⟩
    exact ⟨Or.inl ⟨hne, hget⟩, hge⟩

/-- A pool that is closed, with any descriptor erased from its map. -/
theorem Routed.drop (h : Routed m) {id : ℕ} {pool : PoolObject F}
    (hopen : IsOpen m.pools id pool) (fd : Int) : Routed (m.drop id pool fd) := by
  have hneg : (Manager.dropped pool).fileDesc < 0 := by simp [Manager.dropped]
  have hold : ∀ {id' pool'}, IsOpen (m.drop id pool fd).pools id' pool' →
      id' ≠ id ∧ IsOpen m.pools id' pool' := (isOpen_drop hopen fd).mp
  have hfds : ∀ {fd' id'}, (m.drop id pool fd).fdBufferPools fd' = some id' →
      m.fdBufferPools fd' = some id' := by
    intro fd' id' hfd
    have hfd : Function.update m.fdBufferPools fd none fd' = some id' := hfd
    by_cases hf : fd' = fd
    · rw [hf, Function.update_self] at hfd
      cases hfd
    · rwa [Function.update_of_ne hf] at hfd
  refine ⟨h.names.erase hneg hopen, fun h₁ h₂ => h.descs (hold h₁).2 (hold h₂).2, fun h₁ => ?_,
    fun hfd => ?_, fun hfd h₁ => h.route (hfds hfd) (hold h₁).2⟩
  · obtain ⟨hne, h₂⟩ := hold h₁
    refine (List.mem_erase_of_ne fun heq => hne (h.descs h₂ hopen ?_)).mpr (h.inUse h₂)
    have := hopen.2
    have := h₂.2
    omega
  · show _ < (m.pools.set id _).length
    rw [List.length_set]
    exact h.known (hfds hfd)

end Opened

/-- The pages by file and number. -/
abbrev Content (F D : Type) := F → ℕ → Option (PageData D)

/-- The pages after one of them has been written. -/
def Content.set [DecidableEq F] (content : Content F D) (name : F) (n : ℕ) (d : PageData D) :
    Content F D :=
  Function.update content name (Function.update (content name) n (some d))

section ContentSet

variable [DecidableEq F] (content : Content F D) (name : F) (n : ℕ) (d : PageData D)

@[simp] theorem Content.set_self : content.set name n d name n = some d := by
  simp [Content.set]

theorem Content.set_of_ne {name' : F} {n' : ℕ} (hne : name' = name → n' ≠ n) :
    content.set name n d name' n' = content name' n' := by
  unfold Content.set
  by_cases hname : name' = name
  · subst hname
    rw [Function.update_self, Function.update_of_ne (hne rfl)]
  · rw [Function.update_of_ne hname]

/-- Writing what is there. -/
theorem Content.set_eq_self (hd : content name n = some d) : content.set name n d = content := by
  unfold Content.set
  rw [← hd, Function.update_eq_self, Function.update_eq_self]

end ContentSet

/-- The entries of the frame table. -/
def Store.entries (s : Store F D) : List (FrameId × ℕ) := s.frameManager.frames

/-- The store after a frame has been written to the file. -/
def Store.flushed [DecidableEq F] [Inhabited D] (s : Store F D) (f : ℕ) (name : F) : Store F D :=
  { s with
    frameManager := s.frameManager.setFrame f { s.frame f with dirty := false }
    disk := Function.update s.disk name (writePage (s.disk name) (s.frame f).page) }

/-- No frame holds page `n` of the file. -/
def Store.Uncached (s : Store F D) (name : F) (n : ℕ) : Prop :=
  ∀ e ∈ s.entries, ∀ id pool, IsOpen s.manager.pools id pool → pool.fileName = name →
    e.1 ≠ ⟨pool.fileDesc, n⟩

/-- **The pages are in the frames and in the files**, where the clients have `pins f` pins on the
frame `f`, the frames in `loose` are modified and not marked, and the pages in `seen` are those
that the files have had so far. -/
structure Coherent (seen : F → ℕ → PageData D → Prop) (s : Store F D) (content : Content F D)
    (pins : ℕ → ℕ) (loose : ℕ → Prop) : Prop where
  registry : Routed s.manager
  table : s.frameManager.Table
  labels : ∀ e ∈ s.entries,
    (s.frame e.2).fileDesc = e.1.fileDesc ∧ (s.frame e.2).page.pageNum = e.1.pageNum
  cached : ∀ e ∈ s.entries, ∃ id pool, IsOpen s.manager.pools id pool ∧
    pool.fileDesc = e.1.fileDesc ∧
    content pool.fileName e.1.pageNum = some (s.frame e.2).page.data ∧
    ((s.frame e.2).dirty = false → ¬ loose e.2 →
      (s.disk pool.fileName)[e.1.pageNum]? = some (s.frame e.2).page)
  stored : ∀ name n, s.Uncached name n → content name n = (s.disk name)[n]?.map (·.data)
  length : ∀ name n, (content name n).isSome → n < (s.disk name).length
  numbered : ∀ (name : F) (n : ℕ) (page : Page D), (s.disk name)[n]? = some page →
    page.pageNum = n
  header : ∀ name d, content name 0 = some d →
    ∃ h, d = .header h ∧ h.pageCount ≤ (s.disk name).length
  shown : ∀ name n d, content name n = some d → seen name n d
  past : ∀ (name : F) (n : ℕ) (page : Page D), (s.disk name)[n]? = some page →
    seen name n page.data
  pinned : ∀ e ∈ s.entries,
    (s.frame e.2).pinCount = pins e.2 + if e.1.pageNum = 0 then 1 else 0
  idle : ∀ f, (∀ e ∈ s.entries, e.2 ≠ f) → pins f = 0
  loosePinned : ∀ f, loose f → 0 < pins f
  hdr : ∀ {id pool}, IsOpen s.manager.pools id pool →
    (⟨pool.fileDesc, 0⟩, s.hdrFrame id) ∈ s.entries

/-- The pages of the files seen so far and now. -/
def addSeen (seen : F → ℕ → PageData D → Prop) (content : Content F D) :
    F → ℕ → PageData D → Prop :=
  fun name n d => seen name n d ∨ content name n = some d

variable {seen : F → ℕ → PageData D → Prop} {s : Store F D} {content : Content F D} {pins : ℕ → ℕ}
  {loose : ℕ → Prop}
  {e : FrameId × ℕ} {id : ℕ} {pool : PoolObject F}

/-- Open pools of one name are the same. -/
theorem Routed.eq_of_name {m : Manager F} (h : Routed m) {id' : ℕ} {pool' : PoolObject F}
    (hopen : IsOpen m.pools id pool) (hopen' : IsOpen m.pools id' pool')
    (hname : pool'.fileName = pool.fileName) : id' = id ∧ pool' = pool := by
  have hid : id' = id := h.names.inj hopen hopen' hname
  subst hid
  have := hopen.1.symm.trans hopen'.1
  exact ⟨rfl, (Option.some.inj this).symm⟩

/-- Open pools of one descriptor are the same. -/
theorem Routed.eq_of_desc {m : Manager F} (h : Routed m) {id' : ℕ} {pool' : PoolObject F}
    (hopen : IsOpen m.pools id pool) (hopen' : IsOpen m.pools id' pool')
    (hdesc : pool'.fileDesc = pool.fileDesc) : id' = id ∧ pool' = pool := by
  have hid : id' = id := h.descs hopen' hopen hdesc
  subst hid
  have := hopen.1.symm.trans hopen'.1
  exact ⟨rfl, (Option.some.inj this).symm⟩

section WritePage

variable [Inhabited D] {pages : List (Page D)} {page : Page D}

theorem writePage_self (hle : page.pageNum ≤ pages.length) :
    (writePage pages page)[page.pageNum]? = some page := by
  unfold writePage
  split
  case isTrue hlt => exact List.getElem?_set_self hlt
  case isFalse hge =>
    have heq : page.pageNum = pages.length := by omega
    simp [heq]

theorem writePage_of_ne (hle : page.pageNum ≤ pages.length) {n : ℕ} (hne : n ≠ page.pageNum) :
    (writePage pages page)[n]? = pages[n]? := by
  unfold writePage
  split
  case isTrue hlt => exact List.getElem?_set_ne (Ne.symm hne)
  case isFalse hge =>
    have heq : page.pageNum = pages.length := by omega
    rw [heq] at hne ⊢
    rw [Nat.sub_self, List.replicate_zero, List.append_nil]
    by_cases hlt : n < pages.length
    · rw [List.getElem?_append_left hlt]
    · rw [List.getElem?_eq_none (by simp; omega), List.getElem?_eq_none (by omega)]

theorem length_le_writePage : pages.length ≤ (writePage pages page).length := by
  unfold writePage
  split
  · simp
  · simp

/-- Writing a page that is there. -/
theorem writePage_eq_self (hget : pages[page.pageNum]? = some page) :
    writePage pages page = pages := by
  obtain ⟨hlt, heq⟩ := List.getElem?_eq_some_iff.mp hget
  unfold writePage
  rw [if_pos hlt]
  nth_rewrite 2 [← heq]
  exact List.set_getElem_self hlt

end WritePage

namespace Coherent

/-- What the frame of a page holds, for the pool that owns it. -/
theorem cached_of_open (h : Coherent seen s content pins loose) (he : e ∈ s.entries)
    (hopen : IsOpen s.manager.pools id pool) (hdesc : pool.fileDesc = e.1.fileDesc) :
    content pool.fileName e.1.pageNum = some (s.frame e.2).page.data ∧
      ((s.frame e.2).dirty = false → ¬ loose e.2 →
        (s.disk pool.fileName)[e.1.pageNum]? = some (s.frame e.2).page) := by
  obtain ⟨id', pool', hopen', hdesc', hcached⟩ := h.cached e he
  obtain ⟨rfl, rfl⟩ := h.registry.eq_of_desc hopen' hopen (hdesc.trans hdesc'.symm)
  exact hcached

/-- More pages may have been seen. -/
theorem mono (h : Coherent seen s content pins loose) {seen' : F → ℕ → PageData D → Prop}
    (hseen : ∀ name n d, seen name n d → seen' name n d) :
    Coherent seen' s content pins loose :=
  { h with
    shown := fun name n d hd => hseen name n d (h.shown name n d hd)
    past := fun name n pg hpg => hseen name n pg.data (h.past name n pg hpg) }

/-- The order of the entries and of the free frames does not matter. -/
theorem perm (h : Coherent seen s content pins loose) {frames : List (FrameId × ℕ)} {frees : List ℕ}
    (hframes : frames.Perm s.frameManager.frames) (hfrees : frees.Perm s.frameManager.frees) :
    Coherent seen { s with frameManager := { s.frameManager with frames := frames, frees := frees } }
      content pins loose where
  registry := h.registry
  table := ⟨(hframes.map _).nodup_iff.mpr h.table.keys,
    ((hframes.map _).append hfrees).nodup_iff.mpr h.table.ids⟩
  labels e he := h.labels e (hframes.mem_iff.mp he)
  cached e he := h.cached e (hframes.mem_iff.mp he)
  stored name n hun := h.stored name n fun e he => hun e (hframes.mem_iff.mpr he)
  length := h.length
  numbered := h.numbered
  header := h.header
  shown := h.shown
  past := h.past
  pinned e he := h.pinned e (hframes.mem_iff.mp he)
  idle f hf := h.idle f fun e he => hf e (hframes.mem_iff.mpr he)
  loosePinned := h.loosePinned
  hdr hopen := hframes.mem_iff.mpr (h.hdr hopen)

/-- Looking an entry up. -/
theorem touch (h : Coherent seen s content pins loose) (he : e ∈ s.entries) :
    Coherent seen { s with frameManager := s.frameManager.touch e } content pins loose :=
  h.perm (FrameManager.perm_touch he) (List.Perm.refl _)

variable [DecidableEq F]

/-- The disk after the pages of one file have changed in one place. -/
theorem disk_update {name : F} {n : ℕ} {page : Page D} {pages : List (Page D)}
    (hpages : pages = s.disk name ∨ pages = (s.disk name).set n page) {name' : F} {n' : ℕ}
    (hne : name' = name → n' ≠ n) :
    (Function.update s.disk name pages name')[n']? = (s.disk name')[n']? := by
  by_cases hname : name' = name
  · subst hname
    rw [Function.update_self]
    rcases hpages with rfl | rfl
    · rfl
    · rw [List.getElem?_set_ne (Ne.symm (hne rfl))]
  · rw [Function.update_of_ne hname]

theorem length_update {name : F} {n : ℕ} {page : Page D} {pages : List (Page D)}
    (hpages : pages = s.disk name ∨ pages = (s.disk name).set n page) (name' : F) :
    (Function.update s.disk name pages name').length = (s.disk name').length := by
  by_cases hname : name' = name
  · subst hname
    rw [Function.update_self]
    rcases hpages with rfl | rfl
    · rfl
    · simp
  · rw [Function.update_of_ne hname]

omit [DecidableEq F] in
/-- Two entries of one file are for different pages. -/
theorem pageNum_ne (h : Coherent seen s content pins loose) {e' : FrameId × ℕ} (he : e ∈ s.entries)
    (he' : e' ∈ s.entries) (hne : e' ≠ e) {id' : ℕ} {pool' : PoolObject F}
    (hopen : IsOpen s.manager.pools id pool) (hdesc : pool.fileDesc = e.1.fileDesc)
    (hopen' : IsOpen s.manager.pools id' pool') (hdesc' : pool'.fileDesc = e'.1.fileDesc)
    (hname : pool'.fileName = pool.fileName) : e'.1.pageNum ≠ e.1.pageNum := by
  intro hn
  obtain ⟨rfl, rfl⟩ := h.registry.eq_of_name hopen hopen' hname
  refine hne (h.table.eq_of_key he' he ?_)
  have hfd : e'.1.fileDesc = e.1.fileDesc := hdesc'.symm.trans hdesc
  cases hk : e'.1
  cases hk' : e.1
  simp_all

omit [DecidableEq F] in
/-- A page that has an entry is in the file. -/
theorem pageNum_lt (h : Coherent seen s content pins loose) (he : e ∈ s.entries)
    (hopen : IsOpen s.manager.pools id pool) (hdesc : pool.fileDesc = e.1.fileDesc) :
    e.1.pageNum < (s.disk pool.fileName).length := by
  apply h.length
  rw [(h.cached_of_open he hopen hdesc).1]
  rfl

/-- One more page has been seen. -/
theorem shown_set (h : Coherent seen s content pins loose) {name name' : F} {n n' : ℕ}
    {d d' : PageData D} (hseen : seen name n d) (hd : content.set name n d name' n' = some d') :
    seen name' n' d' := by
  by_cases hne : name' = name → n' ≠ n
  · rw [Content.set_of_ne _ _ _ _ hne] at hd
    exact h.shown name' n' d' hd
  · push Not at hne
    obtain ⟨rfl, rfl⟩ := hne
    rw [Content.set_self] at hd
    rwa [← Option.some.inj hd]

/-- One frame changes, and with it the page it holds, in the file too if `pages` says so. -/
theorem change (h : Coherent seen s content pins loose) (he : e ∈ s.entries)
    (hopen : IsOpen s.manager.pools id pool) (hdesc : pool.fileDesc = e.1.fileDesc)
    {frame : Frame D} {pages : List (Page D)} {pins' : ℕ → ℕ} {loose' : ℕ → Prop}
    (hlabel : frame.fileDesc = e.1.fileDesc ∧ frame.page.pageNum = e.1.pageNum)
    (hpages : pages = s.disk pool.fileName ∨
      pages = (s.disk pool.fileName).set e.1.pageNum frame.page)
    (hclean : frame.dirty = false → ¬ loose' e.2 → pages[e.1.pageNum]? = some frame.page)
    (hheader : e.1.pageNum = 0 → ∃ hd, frame.page.data = .header hd ∧
      hd.pageCount ≤ (s.disk pool.fileName).length)
    (hpins : frame.pinCount = pins' e.2 + if e.1.pageNum = 0 then 1 else 0)
    (hpins' : ∀ f, f ≠ e.2 → pins' f = pins f) (hloose : loose' e.2 → 0 < pins' e.2)
    (hloose' : ∀ f, f ≠ e.2 → (loose' f ↔ loose f))
    (hseen : seen pool.fileName e.1.pageNum frame.page.data) :
    Coherent seen
      { s with
        frameManager := s.frameManager.setFrame e.2 frame
        disk := Function.update s.disk pool.fileName pages }
      (content.set pool.fileName e.1.pageNum frame.page.data) pins' loose' := by
  have hother : ∀ e' ∈ s.entries, e' ≠ e → e'.2 ≠ e.2 :=
    fun e' he' hne hid => hne (h.table.eq_of_frame he' he hid)
  have hself : (s.frameManager.setFrame e.2 frame).frame e.2 = frame := by
    simp [FrameManager.setFrame]
  have hframe : ∀ e' ∈ s.entries, e' ≠ e →
      (s.frameManager.setFrame e.2 frame).frame e'.2 = s.frame e'.2 := by
    intro e' he' hne
    exact Function.update_of_ne (hother e' he' hne) _ _
  refine
    { registry := h.registry
      table := ⟨h.table.keys, h.table.ids⟩
      labels := fun e' he' => ?_
      cached := fun e' he' => ?_
      stored := fun name n hun => ?_
      length := fun name n hsome => ?_
      numbered := fun name n page hget => ?_
      header := fun name d hd => ?_
      shown := fun name n d hd => ?_
      past := fun name n pg hget => ?_
      pinned := fun e' he' => ?_
      idle := fun f hf => ?_
      loosePinned := fun f hf => ?_
      hdr := h.hdr }
  · by_cases heq : e' = e
    · subst heq
      simpa only [Store.frame, hself] using hlabel
    · simpa only [Store.frame, hframe e' he' heq] using h.labels e' he'
  · by_cases heq : e' = e
    · subst heq
      refine ⟨id, pool, hopen, hdesc, ?_, ?_⟩
      · simp only [Store.frame, hself, Content.set_self]
      · simpa only [Store.frame, hself, Function.update_self] using hclean
    · obtain ⟨id', pool', hopen', hdesc', hcont, hsame⟩ := h.cached e' he'
      have hne := h.pageNum_ne he he' heq hopen hdesc hopen' hdesc'
      refine ⟨id', pool', hopen', hdesc', ?_, ?_⟩
      · rw [Content.set_of_ne _ _ _ _ hne]
        simpa only [Store.frame, hframe e' he' heq] using hcont
      · simp only [Store.frame, hframe e' he' heq, disk_update hpages hne,
          hloose' _ (hother e' he' heq)]
        exact hsame
  · have hne : name = pool.fileName → n ≠ e.1.pageNum := by
      rintro rfl rfl
      refine hun e he id pool hopen rfl ?_
      rw [hdesc]
    simp only [Content.set_of_ne _ _ _ _ hne, disk_update hpages hne]
    exact h.stored name n hun
  · simp only [length_update hpages]
    by_cases hne : name = pool.fileName → n ≠ e.1.pageNum
    · rw [Content.set_of_ne _ _ _ _ hne] at hsome
      exact h.length name n hsome
    · push Not at hne
      obtain ⟨rfl, rfl⟩ := hne
      exact h.pageNum_lt he hopen hdesc
  · by_cases hne : name = pool.fileName → n ≠ e.1.pageNum
    · simp only [disk_update hpages hne] at hget
      exact h.numbered name n page hget
    · push Not at hne
      obtain ⟨rfl, rfl⟩ := hne
      simp only [Function.update_self] at hget
      rcases hpages with rfl | rfl
      · exact h.numbered _ _ page hget
      · rw [List.getElem?_set_self (h.pageNum_lt he hopen hdesc)] at hget
        rw [← Option.some.inj hget]
        exact hlabel.2
  · simp only [length_update hpages]
    by_cases hne : name = pool.fileName → 0 ≠ e.1.pageNum
    · rw [Content.set_of_ne _ _ _ _ hne] at hd
      exact h.header name d hd
    · push Not at hne
      obtain ⟨rfl, hn⟩ := hne
      rw [hn, Content.set_self] at hd
      rw [← Option.some.inj hd]
      exact hheader hn.symm
  · exact h.shown_set hseen hd
  · by_cases hne : name = pool.fileName → n ≠ e.1.pageNum
    · simp only [disk_update hpages hne] at hget
      exact h.past name n pg hget
    · push Not at hne
      obtain ⟨rfl, rfl⟩ := hne
      simp only [Function.update_self] at hget
      rcases hpages with rfl | rfl
      · exact h.past _ _ pg hget
      · rw [List.getElem?_set_self (h.pageNum_lt he hopen hdesc)] at hget
        rw [← Option.some.inj hget]
        exact hseen
  · by_cases heq : e' = e
    · subst heq
      simpa only [Store.frame, hself] using hpins
    · rw [hpins' _ (hother e' he' heq), ← h.pinned e' he']
      simp only [Store.frame, hframe e' he' heq]
  · rw [hpins' f (Ne.symm (hf e he))]
    exact h.idle f hf
  · by_cases heq : f = e.2
    · subst heq
      exact hloose hf
    · rw [hpins' f heq]
      exact h.loosePinned f ((hloose' f heq).mp hf)

/-- One frame changes and no file does. -/
theorem changeFrame (h : Coherent seen s content pins loose) (he : e ∈ s.entries)
    (hopen : IsOpen s.manager.pools id pool) (hdesc : pool.fileDesc = e.1.fileDesc)
    {frame : Frame D} {pins' : ℕ → ℕ} {loose' : ℕ → Prop}
    (hlabel : frame.fileDesc = e.1.fileDesc ∧ frame.page.pageNum = e.1.pageNum)
    (hclean : frame.dirty = false → ¬ loose' e.2 →
      (s.disk pool.fileName)[e.1.pageNum]? = some frame.page)
    (hheader : e.1.pageNum = 0 → ∃ hd, frame.page.data = .header hd ∧
      hd.pageCount ≤ (s.disk pool.fileName).length)
    (hpins : frame.pinCount = pins' e.2 + if e.1.pageNum = 0 then 1 else 0)
    (hpins' : ∀ f, f ≠ e.2 → pins' f = pins f) (hloose : loose' e.2 → 0 < pins' e.2)
    (hloose' : ∀ f, f ≠ e.2 → (loose' f ↔ loose f))
    (hseen : seen pool.fileName e.1.pageNum frame.page.data) :
    Coherent seen (s.setFrame e.2 frame) (content.set pool.fileName e.1.pageNum frame.page.data)
      pins' loose' := by
  have := h.change he hopen hdesc hlabel (Or.inl rfl) hclean hheader hpins hpins' hloose hloose'
    hseen
  rwa [Function.update_eq_self] at this

omit [DecidableEq F] in
/-- The header that the entry of page 0 holds. -/
theorem header_of_entry (h : Coherent seen s content pins loose) (he : e ∈ s.entries)
    (hopen : IsOpen s.manager.pools id pool) (hdesc : pool.fileDesc = e.1.fileDesc)
    (hzero : e.1.pageNum = 0) : ∃ hd, (s.frame e.2).page.data = .header hd ∧
      hd.pageCount ≤ (s.disk pool.fileName).length := by
  have hcont := (h.cached_of_open he hopen hdesc).1
  rw [hzero] at hcont
  exact h.header _ _ hcont

/-- The frame of an entry is written to its file. -/
theorem flush (h : Coherent seen s content pins loose) [Inhabited D] (he : e ∈ s.entries)
    (hopen : IsOpen s.manager.pools id pool) (hdesc : pool.fileDesc = e.1.fileDesc) :
    s.flushPage id e.2 = some (s.flushed e.2 pool.fileName) ∧
      Coherent seen (s.flushed e.2 pool.fileName) content pins loose := by
  obtain ⟨hfd, hnum⟩ := h.labels e he
  have hlt := h.pageNum_lt he hopen hdesc
  have hpool : s.openPool id = some pool := by
    unfold Store.openPool
    rw [hopen.1, Option.filter_some_pos (by simpa using hopen.2)]
  have hpages : writePage (s.disk pool.fileName) (s.frame e.2).page =
      (s.disk pool.fileName).set e.1.pageNum (s.frame e.2).page := by
    unfold writePage
    rw [hnum, if_pos hlt]
  have hget : (writePage (s.disk pool.fileName) (s.frame e.2).page)[e.1.pageNum]? =
      some (s.frame e.2).page := by
    rw [hpages]
    exact List.getElem?_set_self hlt
  constructor
  · unfold Store.flushPage
    rw [hpool]
    rfl
  · let frame : Frame D := { s.frame e.2 with dirty := false }
    have hlabel : frame.fileDesc = e.1.fileDesc ∧ frame.page.pageNum = e.1.pageNum := ⟨hfd, hnum⟩
    have := h.change he hopen hdesc hlabel (Or.inr hpages) (fun _ _ => hget)
      (h.header_of_entry he hopen hdesc) (h.pinned e he) (fun _ _ => rfl) (h.loosePinned e.2)
      (fun _ _ => Iff.rfl) (h.shown _ _ _ (h.cached_of_open he hopen hdesc).1)
    rwa [Content.set_eq_self _ _ _ _ (h.cached_of_open he hopen hdesc).1] at this

omit [DecidableEq F] in
/-- An unpinned frame is not the one of a file header. -/
theorem pageNum_ne_zero (h : Coherent seen s content pins loose) (he : e ∈ s.entries)
    (hpin : (s.frame e.2).pinCount = 0) : e.1.pageNum ≠ 0 ∧ pins e.2 = 0 := by
  have := h.pinned e he
  rw [hpin] at this
  by_cases hzero : e.1.pageNum = 0
  · rw [if_pos hzero] at this
    omega
  · rw [if_neg hzero] at this
    exact ⟨hzero, by omega⟩

omit [DecidableEq F] in
/-- The frames that remain when one is freed. -/
theorem mem_erase_iff (h : Coherent seen s content pins loose) {e' : FrameId × ℕ} :
    e' ∈ s.frameManager.frames.erase e ↔ e' ≠ e ∧ e' ∈ s.entries :=
  List.Nodup.mem_erase_iff h.table.keys.of_map

omit [DecidableEq F] in
/-- The table without an entry. -/
theorem table_erase (h : Coherent seen s content pins loose) (he : e ∈ s.entries) :
    FrameManager.Table { s.frameManager with
      frames := s.frameManager.frames.erase e, frees := s.frameManager.frees ++ [e.2] } := by
  refine ⟨(List.erase_sublist.map _).nodup h.table.keys, ?_⟩
  have hperm : ((s.frameManager.frames.erase e).map (·.2) ++ (s.frameManager.frees ++ [e.2])).Perm
      (s.frameManager.frames.map (·.2) ++ s.frameManager.frees) := by
    have herase := (List.perm_cons_erase he).map (·.2)
    rw [List.map_cons] at herase
    calc ((s.frameManager.frames.erase e).map (·.2) ++ (s.frameManager.frees ++ [e.2])).Perm
          ([e.2] ++ ((s.frameManager.frames.erase e).map (·.2) ++ s.frameManager.frees)) := by
            rw [← List.append_assoc]
            exact List.perm_append_comm
      _ = (e.2 :: (s.frameManager.frames.erase e).map (·.2)) ++ s.frameManager.frees := rfl
      _ |>.Perm (s.frameManager.frames.map (·.2) ++ s.frameManager.frees) :=
            herase.symm.append_right _
  exact hperm.nodup_iff.mpr h.table.ids

omit [DecidableEq F] in
/-- An unpinned frame that is not dirty is freed. -/
theorem remove (h : Coherent seen s content pins loose) (he : e ∈ s.entries)
    (hpin : (s.frame e.2).pinCount = 0) (hclean : (s.frame e.2).dirty = false) :
    Coherent seen { s with frameManager := { s.frameManager with
      frames := s.frameManager.frames.erase e
      frees := s.frameManager.frees ++ [e.2] } } content pins loose := by
  obtain ⟨hzero, hpins⟩ := h.pageNum_ne_zero he hpin
  have hmem : ∀ {e'}, e' ∈ s.frameManager.frames.erase e → e' ∈ s.entries :=
    fun he' => (h.mem_erase_iff.mp he').2
  have hloose : ¬ loose e.2 := fun hl => by
    have := h.loosePinned e.2 hl
    omega
  refine
    { registry := h.registry
      table := h.table_erase he
      labels := fun e' he' => h.labels e' (hmem he')
      cached := fun e' he' => h.cached e' (hmem he')
      stored := fun name n hun => ?_
      length := h.length
      numbered := h.numbered
      header := h.header
      shown := h.shown
      past := h.past
      pinned := fun e' he' => h.pinned e' (hmem he')
      idle := fun f hf => ?_
      loosePinned := h.loosePinned
      hdr := fun hopen => ?_ }
  · by_cases hold : s.Uncached name n
    · exact h.stored name n hold
    · -- only the freed frame held the page
      unfold Store.Uncached at hold
      push Not at hold
      obtain ⟨e', he', id, pool, hopen, rfl, hkey⟩ := hold
      have heq : e' = e := by
        by_contra hne
        exact hun e' (h.mem_erase_iff.mpr ⟨hne, he'⟩) id pool hopen rfl hkey
      subst heq
      obtain ⟨hcont, hsame⟩ := h.cached_of_open he hopen (by rw [hkey])
      have hsame := hsame hclean hloose
      rw [hkey] at hcont hsame
      simp only [hcont, hsame, Option.map_some]
  · by_cases hfe : f = e.2
    · rw [hfe]
      exact hpins
    · refine h.idle f fun e' he' heq => ?_
      by_cases hee : e' = e
      · subst hee
        exact hfe heq.symm
      · exact hf e' (h.mem_erase_iff.mpr ⟨hee, he'⟩) heq
  · refine h.mem_erase_iff.mpr ⟨fun heq => hzero ?_, h.hdr hopen⟩
    rw [← heq]

section Insert

variable [Inhabited D] {key : FrameId} {f : ℕ} {frees : List ℕ} {page : Page D}

omit [DecidableEq F] [Inhabited D] in
/-- The table with a new entry. -/
theorem table_insert (h : Coherent seen s content pins loose)
    (hfrees : s.frameManager.frees = f :: frees) (hkey : ∀ e ∈ s.entries, e.1 ≠ key)
    (frame : ℕ → Frame D) :
    FrameManager.Table ⟨frame, (key, f) :: s.frameManager.frames, frees⟩ := by
  refine ⟨List.nodup_cons.mpr ⟨?_, h.table.keys⟩, ?_⟩
  · intro hmem
    obtain ⟨e, he, heq⟩ := List.mem_map.mp hmem
    exact hkey e he heq
  · have hids := h.table.ids
    rw [hfrees] at hids
    exact List.perm_middle.nodup_iff.mp hids

omit [DecidableEq F] [Inhabited D] in
/-- A free frame has no entry. -/
theorem frame_ne_of_free (h : Coherent seen s content pins loose)
    (hfrees : s.frameManager.frees = f :: frees) : ∀ e ∈ s.entries, e.2 ≠ f := by
  intro e he heq
  have hids := (List.nodup_append.mp h.table.ids).2.2
  refine hids e.2 (List.mem_map_of_mem he) f ?_ heq
  rw [hfrees]
  exact List.mem_cons_self

/-- A page gets a frame and is written to its file, which changes nothing if it is there. -/
theorem insert (h : Coherent seen s content pins loose) (hfrees : s.frameManager.frees = f :: frees)
    (hkey : ∀ e ∈ s.entries, e.1 ≠ key) (hopen : IsOpen s.manager.pools id pool)
    (hdesc : pool.fileDesc = key.fileDesc) (hnum : page.pageNum = key.pageNum)
    (hle : key.pageNum ≤ (s.disk pool.fileName).length)
    (hseen : seen pool.fileName key.pageNum page.data) :
    Coherent seen
      { s with
        frameManager := ⟨Function.update s.frameManager.frame f ⟨false, 1, key.fileDesc, page⟩,
          (key, f) :: s.frameManager.frames, frees⟩
        disk := Function.update s.disk pool.fileName
          (writePage (s.disk pool.fileName) page) }
      (content.set pool.fileName key.pageNum page.data) (Function.update pins f 1) loose := by
  have hzero : key.pageNum ≠ 0 := by
    intro hz
    refine hkey _ (h.hdr hopen) ?_
    rw [hdesc, ← hz]
  have hfree := h.frame_ne_of_free hfrees
  have hidle := h.idle f hfree
  have hframe : ∀ e ∈ s.entries, Function.update s.frameManager.frame f
      ⟨false, 1, key.fileDesc, page⟩ e.2 = s.frame e.2 :=
    fun e he => Function.update_of_ne (hfree e he) _ _
  have hne : ∀ e ∈ s.entries, ∀ id' pool', IsOpen s.manager.pools id' pool' →
      pool'.fileDesc = e.1.fileDesc → pool'.fileName = pool.fileName →
      e.1.pageNum ≠ key.pageNum := by
    intro e he id' pool' hopen' hdesc' hname hn
    obtain ⟨rfl, rfl⟩ := h.registry.eq_of_name hopen hopen' hname
    refine hkey e he ?_
    have hfd := hdesc'.symm.trans hdesc
    cases hk : e.1
    cases hk' : key
    simp_all
  rw [← hnum] at hle
  have hdisk : ∀ name n, (name = pool.fileName → n ≠ key.pageNum) →
      (Function.update s.disk pool.fileName (writePage (s.disk pool.fileName) page) name)[n]? =
        (s.disk name)[n]? := by
    intro name n hn
    by_cases hname : name = pool.fileName
    · subst hname
      rw [Function.update_self, writePage_of_ne hle (by rw [hnum]; exact hn rfl)]
    · rw [Function.update_of_ne hname]
  have hlength : ∀ name, (s.disk name).length ≤ (Function.update s.disk pool.fileName
      (writePage (s.disk pool.fileName) page) name).length := by
    intro name
    by_cases hname : name = pool.fileName
    · subst hname
      rw [Function.update_self]
      exact length_le_writePage
    · rw [Function.update_of_ne hname]
  refine
    { registry := h.registry
      table := h.table_insert hfrees hkey _
      labels := fun e he => ?_
      cached := fun e he => ?_
      stored := fun name n hun => ?_
      length := fun name n hsome => ?_
      numbered := fun name n pg hget => ?_
      header := fun name d hd => ?_
      shown := fun name n d hd => ?_
      past := fun name n pg hget => ?_
      pinned := fun e he => ?_
      idle := fun f' hf' => ?_
      loosePinned := fun f' hf' => ?_
      hdr := fun hopen' => List.mem_cons_of_mem _ (h.hdr hopen') }
  · rcases List.mem_cons.mp he with rfl | he
    · simp [Store.frame, hnum]
    · simpa only [Store.frame, hframe e he] using h.labels e he
  · rcases List.mem_cons.mp he with rfl | he
    · refine ⟨id, pool, hopen, hdesc, ?_, fun _ _ => ?_⟩
      · simp [Store.frame]
      · simp only [Store.frame, Function.update_self, ← hnum]
        exact writePage_self hle
    · obtain ⟨id', pool', hopen', hdesc', hcont, hsame⟩ := h.cached e he
      have hn := hne e he id' pool' hopen' hdesc'
      refine ⟨id', pool', hopen', hdesc', ?_, ?_⟩
      · rw [Content.set_of_ne _ _ _ _ hn]
        simpa only [Store.frame, hframe e he] using hcont
      · simp only [Store.frame, hframe e he, hdisk _ _ hn]
        exact hsame
  · have hn : name = pool.fileName → n ≠ key.pageNum := by
      rintro rfl rfl
      refine hun (key, f) List.mem_cons_self id pool hopen rfl ?_
      rw [hdesc]
    simp only [Content.set_of_ne _ _ _ _ hn, hdisk name n hn]
    exact h.stored name n fun e he => hun e (List.mem_cons_of_mem _ he)
  · by_cases hn : name = pool.fileName → n ≠ key.pageNum
    · rw [Content.set_of_ne _ _ _ _ hn] at hsome
      exact lt_of_lt_of_le (h.length name n hsome) (hlength name)
    · push Not at hn
      obtain ⟨rfl, rfl⟩ := hn
      simp only [Function.update_self, ← hnum]
      exact (List.getElem?_eq_some_iff.mp (writePage_self hle)).1
  · by_cases hn : name = pool.fileName → n ≠ key.pageNum
    · simp only [hdisk name n hn] at hget
      exact h.numbered name n pg hget
    · push Not at hn
      obtain ⟨rfl, rfl⟩ := hn
      simp only [Function.update_self, ← hnum, writePage_self hle] at hget
      rw [← Option.some.inj hget]
      exact hnum
  · rw [Content.set_of_ne _ _ _ _ fun _ => Ne.symm hzero] at hd
    obtain ⟨hdr, hdata, hcount⟩ := h.header name d hd
    exact ⟨hdr, hdata, hcount.trans (hlength name)⟩
  · exact h.shown_set hseen hd
  · by_cases hn : name = pool.fileName → n ≠ key.pageNum
    · simp only [hdisk name n hn] at hget
      exact h.past name n pg hget
    · push Not at hn
      obtain ⟨rfl, rfl⟩ := hn
      simp only [Function.update_self, ← hnum, writePage_self hle] at hget
      rw [← Option.some.inj hget]
      exact hseen
  · rcases List.mem_cons.mp he with rfl | he
    · simp [Store.frame, hzero]
    · rw [Function.update_of_ne (hfree e he), ← h.pinned e he]
      simp only [Store.frame, hframe e he]
  · rw [Function.update_of_ne (Ne.symm (hf' _ List.mem_cons_self))]
    exact h.idle f' fun e he => hf' e (List.mem_cons_of_mem _ he)
  · by_cases hff : f' = f
    · subst hff
      simp
    · rw [Function.update_of_ne hff]
      exact h.loosePinned f' hf'

end Insert

omit [DecidableEq F] in
/-- What a free frame holds does not matter. -/
theorem setFrame_of_free (h : Coherent seen s content pins loose) {f : ℕ}
    (hf : ∀ e ∈ s.entries, e.2 ≠ f) (frame : Frame D) :
    Coherent seen (s.setFrame f frame) content pins loose := by
  have hframe : ∀ e ∈ s.entries, (s.setFrame f frame).frame e.2 = s.frame e.2 :=
    fun e he => Function.update_of_ne (hf e he) _ _
  refine { h with table := ⟨h.table.keys, h.table.ids⟩, labels := ?_, cached := ?_, pinned := ?_ }
  · intro e he
    rw [hframe e he]
    exact h.labels e he
  · intro e he
    rw [hframe e he]
    exact h.cached e he
  · intro e he
    rw [hframe e he]
    exact h.pinned e he

/-- A file is opened, and its header gets a frame. -/
theorem openHeader (h : Coherent seen s content pins loose) {f : ℕ} {frees : List ℕ} {name : F}
    {page : Page D} (hfrees : s.frameManager.frees = f :: frees)
    (hname : s.manager.bufferPools name = none) (hpage : (s.disk name)[0]? = some page)
    (disposedPages : ℕ → List ℕ) :
    Coherent seen
      { s with
        manager := opened s.manager name
        hdrFrame := Function.update s.hdrFrame s.manager.pools.length f
        disposedPages := disposedPages
        frameManager := ⟨Function.update s.frameManager.frame f
          ⟨false, 1, lowestFree s.manager.used, page⟩,
          (⟨lowestFree s.manager.used, 0⟩, f) :: s.frameManager.frames, frees⟩ }
      content pins loose := by
  have hkey : ∀ e ∈ s.entries, e.1 ≠ ⟨lowestFree s.manager.used, 0⟩ := by
    intro e he heq
    obtain ⟨id, pool, hopen, hdesc, -⟩ := h.cached e he
    refine h.registry.fileDesc_ne hopen ?_
    rw [hdesc, heq]
  have hclosed : ∀ {id pool}, IsOpen s.manager.pools id pool → pool.fileName ≠ name := by
    intro id pool hopen heq
    have := (h.registry.names name id).mpr ⟨pool, hopen, heq⟩
    rw [hname] at this
    cases this
  have hcontent : content name 0 = some page.data := by
    rw [h.stored name 0 fun e he id pool hopen heq => absurd heq (hclosed hopen), hpage]
    rfl
  have hnum := h.numbered name 0 page hpage
  have hfree := h.frame_ne_of_free hfrees
  have hframe : ∀ e ∈ s.entries, Function.update s.frameManager.frame f
      ⟨false, 1, lowestFree s.manager.used, page⟩ e.2 = s.frame e.2 :=
    fun e he => Function.update_of_ne (hfree e he) _ _
  refine
    { registry := h.registry.opened hname
      table := h.table_insert hfrees hkey _
      labels := fun e he => ?_
      cached := fun e he => ?_
      stored := fun name' n hun => ?_
      length := h.length
      numbered := h.numbered
      header := h.header
      shown := h.shown
      past := h.past
      pinned := fun e he => ?_
      idle := fun f' hf' => h.idle f' fun e he => hf' e (List.mem_cons_of_mem _ he)
      loosePinned := h.loosePinned
      hdr := fun hopen => ?_ }
  · rcases List.mem_cons.mp he with rfl | he
    · simp [Store.frame, hnum]
    · simpa only [Store.frame, hframe e he] using h.labels e he
  · rcases List.mem_cons.mp he with rfl | he
    · refine ⟨_, _, isOpen_opened.mpr (Or.inr ⟨rfl, rfl⟩), rfl, ?_, fun _ _ => ?_⟩
      · simp only [Store.frame, Function.update_self]
        exact hcontent
      · simp only [Store.frame, Function.update_self]
        exact hpage
    · obtain ⟨id, pool, hopen, hcached⟩ := h.cached e he
      refine ⟨id, pool, isOpen_opened.mpr (Or.inl hopen), ?_⟩
      simp only [Store.frame, hframe e he]
      exact hcached
  · refine h.stored name' n fun e he id pool hopen => ?_
    exact hun e (List.mem_cons_of_mem _ he) id pool (isOpen_opened.mpr (Or.inl hopen))
  · rcases List.mem_cons.mp he with rfl | he
    · simp [Store.frame, h.idle f hfree]
    · rw [← h.pinned e he]
      simp only [Store.frame, hframe e he]
  · rcases isOpen_opened.mp hopen with hold | ⟨rfl, rfl⟩
    · have hlt := (List.getElem?_eq_some_iff.mp hold.1).1
      simp only [Function.update_of_ne (Nat.ne_of_lt hlt)]
      exact List.mem_cons_of_mem _ (h.hdr hold)
    · simp only [Function.update_self]
      exact List.mem_cons_self

/-- A file none of whose pages has a frame but the header is closed. -/
theorem close (h : Coherent seen s content pins loose) (hopen : IsOpen s.manager.pools id pool)
    (hclean : (s.frame (s.hdrFrame id)).dirty = false) (hpins : pins (s.hdrFrame id) = 0)
    (honly : ∀ e ∈ s.entries, e.1.fileDesc = pool.fileDesc → e.1.pageNum = 0) (fd : Int)
    (disposedPages : ℕ → List ℕ) :
    Coherent seen
      { s with
        manager := s.manager.drop id pool fd
        disposedPages := disposedPages
        frameManager := { s.frameManager with
          frames := s.frameManager.frames.erase (⟨pool.fileDesc, 0⟩, s.hdrFrame id)
          frees := s.frameManager.frees ++ [s.hdrFrame id] } }
      content pins loose := by
  have he := h.hdr hopen
  have hloose : ¬ loose (s.hdrFrame id) := fun hl => by
    have := h.loosePinned _ hl
    omega
  have hmem : ∀ {e'}, e' ∈ s.frameManager.frames.erase (⟨pool.fileDesc, 0⟩, s.hdrFrame id) →
      e' ∈ s.entries := fun he' => (h.mem_erase_iff.mp he').2
  -- the entries of the file are the one of the header
  have hheader : ∀ e' ∈ s.entries, e'.1.fileDesc = pool.fileDesc →
      e' = (⟨pool.fileDesc, 0⟩, s.hdrFrame id) := by
    intro e' he' hfd
    refine h.table.eq_of_key he' he ?_
    have hn := honly e' he' hfd
    cases hk : e'.1
    simp_all
  refine
    { registry := h.registry.drop hopen fd
      table := h.table_erase he
      labels := fun e' he' => h.labels e' (hmem he')
      cached := fun e' he' => ?_
      stored := fun name n hun => ?_
      length := h.length
      numbered := h.numbered
      header := h.header
      shown := h.shown
      past := h.past
      pinned := fun e' he' => h.pinned e' (hmem he')
      idle := fun f hf => ?_
      loosePinned := h.loosePinned
      hdr := fun {id' pool'} hopen' => ?_ }
  · obtain ⟨hne, hin⟩ := h.mem_erase_iff.mp he'
    obtain ⟨id', pool', hopen', hdesc', hcached⟩ := h.cached e' hin
    refine ⟨id', pool', (isOpen_drop hopen fd).mpr ⟨?_, hopen'⟩, hdesc', hcached⟩
    rintro rfl
    obtain rfl : pool' = pool := Option.some.inj (hopen'.1.symm.trans hopen.1)
    exact hne (hheader e' hin hdesc'.symm)
  · by_cases hold : s.Uncached name n
    · exact h.stored name n hold
    · unfold Store.Uncached at hold
      push Not at hold
      obtain ⟨e', he', id', pool', hopen', rfl, hkey⟩ := hold
      by_cases hid : id' = id
      · subst hid
        obtain rfl : pool' = pool := Option.some.inj (hopen'.1.symm.trans hopen.1)
        have heq := hheader e' he' (by rw [hkey])
        subst heq
        obtain ⟨hcont, hsame⟩ := h.cached_of_open he hopen rfl
        have hsame := hsame hclean hloose
        obtain rfl : 0 = n := congrArg FrameId.pageNum hkey
        simp only [hcont, hsame, Option.map_some]
      · refine absurd hkey (hun e' (h.mem_erase_iff.mpr ⟨?_, he'⟩) id' pool'
          ((isOpen_drop hopen fd).mpr ⟨hid, hopen'⟩) rfl)
        rintro rfl
        have hfd : pool.fileDesc = pool'.fileDesc := congrArg FrameId.fileDesc hkey
        exact hid (h.registry.descs hopen' hopen hfd.symm)
  · by_cases hfe : f = s.hdrFrame id
    · rw [hfe]
      exact hpins
    · refine h.idle f fun e' he' heq => ?_
      refine hf e' (h.mem_erase_iff.mpr ⟨?_, he'⟩) heq
      rintro rfl
      exact hfe heq.symm
  · obtain ⟨hne, hold⟩ := (isOpen_drop hopen fd).mp hopen'
    refine h.mem_erase_iff.mpr ⟨fun heq => hne ?_, h.hdr hold⟩
    have hkey := congrArg (fun e : FrameId × ℕ => e.1.fileDesc) heq
    exact h.registry.descs hold hopen hkey

end Coherent

end Miniob.Storage.DiskBufferPool
