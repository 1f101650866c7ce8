import Miniob.Storage.BufferPool.Coherent

/-!
# What each call of the pool does

Each call keeps the pages in the frames and the files together. A call fails to return only when a
dirty frame is led to a pool that has been closed, which cannot happen while the registry is exact
(`Defined`). Frames are taken from unpinned pages alone (`Kept`).
-/

namespace Miniob.Storage.DiskBufferPool

open Miniob.Storage.BufferPool

variable {F D : Type}

/-- The map by descriptor holds exactly the open pools. -/
def Registered (m : Manager F) : Prop := Indexes m.pools (·.fileDesc) m.fdBufferPools

/-- A new pool gets a descriptor of its own. -/
theorem Registered.opened [DecidableEq F] {m : Manager F} {name : F} (hreg : Registered m)
    (hrouted : Routed m) : Registered (opened m name) := by
  have hnew : 0 ≤ (⟨name, lowestFree m.used, 0, 0⟩ : PoolObject F).fileDesc :=
    Int.natCast_nonneg _
  refine Indexes.concat hreg hnew ?_
  cases hfd : m.fdBufferPools (lowestFree m.used) with
  | none => rfl
  | some id =>
      obtain ⟨pool, hopen, hdesc⟩ := (hreg _ id).mp hfd
      exact absurd hdesc (hrouted.fileDesc_ne hopen)

/-- The call returns a result for which `Q` holds, or it does not return and `reg` fails. -/
def Defined {α : Type} (reg : Prop) (x : Option α) (Q : α → Prop) : Prop :=
  (∃ a, x = some a ∧ Q a) ∨ x = none ∧ ¬ reg

section Defined

variable {α β : Type} {reg : Prop} {x : Option α} {g : α → Option β} {Q : α → Prop} {R : β → Prop}

theorem Defined.some {a : α} (hQ : Q a) : Defined reg (some a) Q := Or.inl ⟨a, rfl, hQ⟩

theorem Defined.bind (hx : Defined reg x Q) (hg : ∀ a, Q a → Defined reg (g a) R) :
    Defined reg (x.bind g) R := by
  rcases hx with ⟨a, rfl, hQ⟩ | ⟨rfl, hreg⟩
  · exact hg a hQ
  · exact Or.inr ⟨rfl, hreg⟩

theorem Defined.mono {Q' : α → Prop} (hx : Defined reg x Q) (hQ : ∀ a, Q a → Q' a) :
    Defined reg x Q' := by
  rcases hx with ⟨a, rfl, h⟩ | hnone
  · exact Or.inl ⟨a, rfl, hQ a h⟩
  · exact Or.inr hnone

theorem Defined.map {g : α → β} (hx : Defined reg x Q) (hg : ∀ a, Q a → R (g a)) :
    Defined reg (x.map g) R := by
  rcases hx with ⟨a, rfl, hQ⟩ | ⟨rfl, hreg⟩
  · exact Defined.some (hg a hQ)
  · exact Or.inr ⟨rfl, hreg⟩

theorem Defined.of_eq_some (hx : Defined reg x Q) {a : α} (ha : x = Option.some a) : Q a := by
  rcases hx with ⟨a', rfl, hQ⟩ | ⟨rfl, -⟩
  · rwa [← Option.some.inj ha]
  · cases ha

theorem Defined.isSome (hx : Defined reg x Q) (hreg : reg) : ∃ a, x = Option.some a ∧ Q a := by
  rcases hx with hsome | ⟨-, hnot⟩
  · exact hsome
  · exact absurd hreg hnot

end Defined

/-- What a call keeps that only takes frames away from unpinned pages. -/
structure Kept (s s' : Store F D) : Prop where
  manager : s'.manager = s.manager
  hdrFrame : s'.hdrFrame = s.hdrFrame
  disposedPages : s'.disposedPages = s.disposedPages
  pinned : ∀ e ∈ s.entries, 0 < (s.frame e.2).pinCount →
    e ∈ s'.entries ∧ 0 < (s'.frame e.2).pinCount

variable {s s' s'' : Store F D}

theorem Kept.refl (s : Store F D) : Kept s s := ⟨rfl, rfl, rfl, fun _ he hpin => ⟨he, hpin⟩⟩

theorem Kept.trans (h : Kept s s') (h' : Kept s' s'') : Kept s s'' where
  manager := h'.manager.trans h.manager
  hdrFrame := h'.hdrFrame.trans h.hdrFrame
  disposedPages := h'.disposedPages.trans h.disposedPages
  pinned e he hpin := by
    obtain ⟨he', hpin'⟩ := h.pinned e he hpin
    exact h'.pinned e he' hpin'

theorem Kept.registered (h : Kept s s') (hreg : Registered s.manager) :
    Registered s'.manager := by
  rw [h.manager]
  exact hreg

variable {seen : F → ℕ → PageData D → Prop} {content : Content F D} {pins : ℕ → ℕ}
  {loose : ℕ → Prop} {e : FrameId × ℕ} {key : FrameId} {id f page : ℕ} {pool : PoolObject F}

theorem openPool_eq_some : s.openPool id = some pool ↔ IsOpen s.manager.pools id pool := by
  unfold Store.openPool BufferPool.IsOpen
  rw [Option.filter_eq_some_iff]
  simp

/-- Looking an entry up keeps everything. -/
theorem Kept.touch (he : e ∈ s.entries) :
    Kept s { s with frameManager := s.frameManager.touch e } :=
  ⟨rfl, rfl, rfl, fun _ he' hpin => ⟨(FrameManager.perm_touch he).mem_iff.mpr he', hpin⟩⟩

/-- The unpinned frame used longest ago is one of the entries. -/
theorem exists_of_beginPurge (hpurge : s.frameManager.beginPurge = some f) :
    ∃ e ∈ s.entries, e.2 = f ∧ (s.frame e.2).pinCount = 0 := by
  unfold FrameManager.beginPurge at hpurge
  rw [Option.map_eq_some_iff] at hpurge
  obtain ⟨e, hfind, rfl⟩ := hpurge
  refine ⟨e, List.mem_reverse.mp (List.mem_of_find?_eq_some hfind), rfl, ?_⟩
  have hpin : (s.frameManager.frame e.2).pinCount = 0 := by simpa using List.find?_some hfind
  exact hpin

/-- Freeing the frame of an entry. -/
theorem FrameManager.Table.free_eq {fm : FrameManager D} (h : fm.Table) (he : e ∈ fm.frames) :
    fm.free e.1 e.2 = (.success,
      { fm with frames := fm.frames.erase e, frees := fm.frees ++ [e.2] }) := by
  unfold FrameManager.free
  rw [h.find_of_mem he]
  simp

/-- The store without an entry. -/
def Store.removed (s : Store F D) (e : FrameId × ℕ) : Store F D :=
  { s with frameManager := { s.frameManager with
    frames := s.frameManager.frames.erase e, frees := s.frameManager.frees ++ [e.2] } }

/-- Removing an unpinned entry keeps the others. -/
theorem Coherent.kept_removed (h : Coherent seen s content pins loose)
    (hpin : (s.frame e.2).pinCount = 0) : Kept s (s.removed e) := by
  refine ⟨rfl, rfl, rfl, fun e' he' hpin' => ⟨h.mem_erase_iff.mpr ⟨?_, he'⟩, hpin'⟩⟩
  rintro rfl
  omega

variable [DecidableEq F] [Inhabited D]

/-- A dirty frame that nobody has pinned is written by the pool that owns it. -/
theorem Coherent.managerFlushPage (h : Coherent seen s content pins loose) (he : e ∈ s.entries)
    (hpin : (s.frame e.2).pinCount = 0) :
    Defined (Registered s.manager) (s.managerFlushPage e.2) fun r =>
      Coherent seen r.2 content pins loose ∧ Kept s r.2 ∧
      (r.1 = .success → r.2.entries = s.entries ∧ r.2.frame e.2 =
        { s.frame e.2 with dirty := false }) := by
  obtain ⟨id, pool, hopen, hdesc, -⟩ := h.cached e he
  have hfd := (h.labels e he).1
  unfold Store.managerFlushPage
  rw [hfd, ← hdesc]
  cases hroute : s.manager.fdBufferPools pool.fileDesc with
  | none => exact Defined.some ⟨h, Kept.refl s, fun hrc => by cases hrc⟩
  | some id' =>
      cases hpool' : s.openPool id' with
      | none =>
          refine Or.inr ⟨by simp [Store.flushPage, hpool'], fun hreg => ?_⟩
          -- an exact registry leads to the owner
          rw [(hreg _ id).mpr ⟨pool, hopen, rfl⟩] at hroute
          obtain rfl := Option.some.inj hroute
          rw [openPool_eq_some.mpr hopen] at hpool'
          cases hpool'
      | some pool' =>
          have hopen' := openPool_eq_some.mp hpool'
          obtain ⟨rfl, rfl⟩ :=
            h.registry.eq_of_desc hopen hopen' (h.registry.route hroute hopen')
          obtain ⟨hflush, hcoh⟩ := h.flush he hopen hdesc
          simp only [hflush, Option.map_some]
          refine Defined.some ⟨hcoh, ⟨rfl, rfl, rfl, fun e' he' hpin' => ⟨he', ?_⟩⟩,
            fun _ => ⟨rfl, ?_⟩⟩
          · have hne : e'.2 ≠ e.2 := by
              intro heq
              rw [heq] at hpin'
              omega
            show 0 < (Function.update s.frameManager.frame e.2 _ e'.2).pinCount
            rw [Function.update_of_ne hne]
            exact hpin'
          · exact Function.update_self _ _ _

/-- What a successful `allocate_frame` has done: it has freed some frames and then put a free one
under the key. -/
structure Allocated (seen : F → ℕ → PageData D → Prop) (s : Store F D) (content : Content F D)
    (pins : ℕ → ℕ) (loose : ℕ → Prop) (key : FrameId) (f : ℕ) (s₁ s' : Store F D)
    (frees : List ℕ) : Prop where
  coherent : Coherent seen s₁ content pins loose
  kept : Kept s s₁
  free : s₁.frameManager.frees = f :: frees
  fresh : ∀ e ∈ s₁.entries, e.1 ≠ key
  eq : s' = { s₁ with frameManager :=
    { s₁.frameManager with frames := (key, f) :: s₁.frameManager.frames, frees := frees } }

omit [DecidableEq F] [Inhabited D] in
/-- `alloc` finds the page, has no free frame, or takes the first free frame. -/
theorem FrameManager.alloc_cases (fm : FrameManager D) (key : FrameId) :
    (∃ e ∈ fm.frames, fm.alloc key = (none, fm.touch e)) ∨ fm.alloc key = (none, fm) ∨
      ∃ f frees, fm.frees = f :: frees ∧ (∀ e ∈ fm.frames, e.1 ≠ key) ∧
        fm.alloc key = (some f, { fm with frames := (key, f) :: fm.frames, frees := frees }) := by
  unfold FrameManager.alloc
  cases hfind : fm.find key with
  | some e => exact Or.inl ⟨e, (FrameManager.find_eq_some hfind).1, rfl⟩
  | none =>
      cases hfrees : fm.frees with
      | nil => exact Or.inr (Or.inl rfl)
      | cons f frees =>
          exact Or.inr (Or.inr ⟨f, frees, rfl, FrameManager.find_eq_none hfind, rfl⟩)

/-- The unpinned frame used longest ago is written and freed. -/
theorem Coherent.freeFrame (h : Coherent seen s content pins loose)
    (hpurge : s.frameManager.beginPurge = some f) :
    Defined (Registered s.manager) (s.freeFrame f) fun r =>
      Coherent seen r.2 content pins loose ∧ Kept s r.2 ∧
        (r.1 = .success → r.2.entries.length < s.entries.length) := by
  obtain ⟨e, he, rfl, hpin⟩ := exists_of_beginPurge hpurge
  have hflush : Defined (Registered s.manager)
      (s.cleanFrame e.2) fun r =>
      Coherent seen r.2 content pins loose ∧ Kept s r.2 ∧ (r.1 = .success →
        r.2.entries = s.entries ∧ r.2.frame e.2 = { s.frame e.2 with dirty := false }) := by
    unfold Store.cleanFrame
    by_cases hdirty : (s.frame e.2).dirty = true
    · rw [if_pos hdirty]
      exact h.managerFlushPage he hpin
    · rw [if_neg hdirty]
      refine Defined.some ⟨h, Kept.refl s, fun _ => ⟨rfl, ?_⟩⟩
      cases hframe : s.frame e.2
      simp_all
  unfold Store.freeFrame
  refine hflush.bind ?_
  rintro ⟨rc, s₁⟩ ⟨hcoh, hkept, hsuccess⟩
  by_cases hrc : rc = .success
  · obtain ⟨hentries, hframe⟩ := hsuccess hrc
    have he₁ : e ∈ s₁.entries := by rw [hentries]; exact he
    have hlabels := hcoh.labels e he₁
    have hpin₁ : (s₁.frame e.2).pinCount = 0 := by rw [hframe]; exact hpin
    have hkey : (⟨(s₁.frame e.2).fileDesc, (s₁.frame e.2).page.pageNum⟩ : FrameId) = e.1 := by
      rw [hlabels.1, hlabels.2]
    simp only [hrc, ne_eq, not_true, if_false, hkey, hcoh.table.free_eq he₁]
    refine Defined.some ⟨hcoh.remove he₁ hpin₁ (by rw [hframe]),
      hkept.trans (hcoh.kept_removed hpin₁), fun _ => ?_⟩
    have hlen : (s₁.entries.erase e).length = s₁.entries.length - 1 :=
      List.length_erase_of_mem he₁
    have hpos : 0 < s₁.entries.length := List.length_pos_of_mem he₁
    have hentries : s₁.entries = s.entries := hentries
    rw [← hentries]
    exact lt_of_eq_of_lt hlen (Nat.sub_lt hpos Nat.one_pos)
  · simp only [ne_eq, hrc, not_false_eq_true, if_true]
    exact Defined.some ⟨hcoh, hkept, fun hs => absurd hs hrc⟩

/-- What `allocate_frame` promises. -/
def AllocateFrame (seen : F → ℕ → PageData D → Prop) (s : Store F D) (content : Content F D)
    (pins : ℕ → ℕ) (loose : ℕ → Prop) (key : FrameId) (r : Except RC ℕ × Store F D) : Prop :=
  match r.1 with
  | .ok f => ∃ s₁ frees, Allocated seen s content pins loose key f s₁ r.2 frees
  | .error rc => rc ≠ .success ∧ Coherent seen r.2 content pins loose ∧ Kept s r.2

omit [DecidableEq F] [Inhabited D] in
theorem AllocateFrame.of_kept (hkept : Kept s s') {r : Except RC ℕ × Store F D}
    (h : AllocateFrame seen s' content pins loose key r) :
    AllocateFrame seen s content pins loose key r := by
  rcases r with ⟨rc | f, s''⟩
  · exact ⟨h.1, h.2.1, hkept.trans h.2.2⟩
  · obtain ⟨s₁, frees, hall⟩ := h
    exact ⟨s₁, frees, { hall with kept := hkept.trans hall.kept }⟩

/-- `allocate_frame` frees frames until it gets one. -/
theorem Coherent.allocateFrame (h : Coherent seen s content pins loose) {fuel : ℕ}
    (hfuel : s.entries.length < fuel) :
    Defined (Registered s.manager) (s.allocateFrame fuel key)
      (AllocateFrame seen s content pins loose key) := by
  induction fuel generalizing s with
  | zero => omega
  | succ fuel ih =>
      have hnomem : RC.nomem ≠ RC.success := by simp
      -- a turn of the loop that gets no frame
      have hturn : ∀ {s₀ : Store F D} {f : ℕ}, Coherent seen s₀ content pins loose → Kept s s₀ →
          s₀.entries.length = s.entries.length → s₀.frameManager.beginPurge = some f →
          Defined (Registered s.manager)
            ((s₀.freeFrame f).bind fun p =>
              if p.1 ≠ .success then some (.error p.1, p.2) else p.2.allocateFrame fuel key)
            (AllocateFrame seen s content pins loose key) := by
        intro s₀ f hcoh hkept hlen hpurge
        have hfree := hcoh.freeFrame hpurge
        rw [hkept.manager] at hfree
        refine hfree.bind ?_
        rintro ⟨rc, s'⟩ ⟨hcoh', hkept', hlt⟩
        have hkept'' : Kept s s' := hkept.trans hkept'
        by_cases hrc : rc = .success
        · have hlt : s'.entries.length < s₀.entries.length := hlt hrc
          simp only [hrc, ne_eq, not_true, if_false]
          have hnext := ih hcoh' (lt_of_lt_of_le hlt (by omega))
          rw [hkept''.manager] at hnext
          exact hnext.mono fun r hr => AllocateFrame.of_kept hkept'' hr
        · simp only [ne_eq, hrc, not_false_eq_true, if_true]
          exact Defined.some ⟨hrc, hcoh', hkept''⟩
      unfold Store.allocateFrame
      rcases s.frameManager.alloc_cases key with ⟨e, he, halloc⟩ | halloc |
        ⟨f, frees, hfrees, hfresh, halloc⟩
      · simp only [halloc]
        split
        · exact Defined.some ⟨hnomem, h.touch he, Kept.touch he⟩
        · rename_i f hpurge
          exact hturn (h.touch he) (Kept.touch he) (FrameManager.perm_touch he).length_eq hpurge
      · simp only [halloc]
        split
        · exact Defined.some ⟨hnomem, h, Kept.refl s⟩
        · rename_i f hpurge
          exact hturn h (Kept.refl s) rfl hpurge
      · simp only [halloc]
        exact Defined.some ⟨s, frees, h, Kept.refl s, hfrees, hfresh, rfl⟩

/-! ## Fetching a page -/

omit [DecidableEq F] [Inhabited D] in
/-- A change of one frame that leaves it pinned. -/
theorem Kept.setFrame {frame : Frame D} (hpin : 0 < (s.frame f).pinCount → 0 < frame.pinCount) :
    Kept s (s.setFrame f frame) := by
  refine ⟨rfl, rfl, rfl, fun e he hpin' => ⟨he, ?_⟩⟩
  show 0 < (Function.update s.frameManager.frame f frame e.2).pinCount
  by_cases hf : e.2 = f
  · rw [hf, Function.update_self]
    rw [hf] at hpin'
    exact hpin hpin'
  · rw [Function.update_of_ne hf]
    exact hpin'

omit [Inhabited D] in
/-- One more pin on the frame of an entry. -/
theorem Coherent.pin (h : Coherent seen s content pins loose) (he : e ∈ s.entries) :
    Coherent seen (s.setFrame e.2 { s.frame e.2 with pinCount := (s.frame e.2).pinCount + 1 })
      content (Function.update pins e.2 (pins e.2 + 1)) loose := by
  obtain ⟨id, pool, hopen, hdesc, hcont, hsame⟩ := h.cached e he
  let frame : Frame D := { s.frame e.2 with pinCount := (s.frame e.2).pinCount + 1 }
  have hlabel : frame.fileDesc = e.1.fileDesc ∧ frame.page.pageNum = e.1.pageNum := h.labels e he
  have hpins : frame.pinCount =
      Function.update pins e.2 (pins e.2 + 1) e.2 + if e.1.pageNum = 0 then 1 else 0 := by
    have := h.pinned e he
    simp only [frame, Function.update_self]
    omega
  have := h.changeFrame he hopen hdesc hlabel hsame (h.header_of_entry he hopen hdesc) hpins
    (fun f hf => Function.update_of_ne hf _ _) (fun _ => by simp) (fun _ _ => Iff.rfl)
    (h.shown _ _ _ hcont)
  rwa [Content.set_eq_self _ _ _ _ hcont] at this

/-- What `get_this_page` promises. -/
def GetThisPage (seen : F → ℕ → PageData D → Prop) (s : Store F D) (content : Content F D)
    (pins : ℕ → ℕ) (loose : ℕ → Prop) (key : FrameId) (r : Except RC ℕ × Store F D) : Prop :=
  Kept s r.2 ∧ match r.1 with
  | .ok f => Coherent seen r.2 content (Function.update pins f (pins f + 1)) loose ∧
      (key, f) ∈ r.2.entries
  | .error _ => Coherent seen r.2 content pins loose

omit [DecidableEq F] [Inhabited D] in
/-- The new entry keeps the others. -/
theorem Allocated.kept_insert {s₁ : Store F D} {frees : List ℕ}
    (hall : Allocated seen s content pins loose key f s₁ s' frees) {frame : Frame D}
    {s₂ : Store F D} (hmanager : s₂.manager = s₁.manager) (hhdr : s₂.hdrFrame = s₁.hdrFrame)
    (hdisposed : s₂.disposedPages = s₁.disposedPages)
    (hfm : s₂.frameManager = ⟨Function.update s₁.frameManager.frame f frame,
      (key, f) :: s₁.frameManager.frames, frees⟩) : Kept s s₂ := by
  refine hall.kept.trans ⟨hmanager, hhdr, hdisposed, fun e he hpin => ?_⟩
  unfold Store.entries Store.frame
  rw [hfm]
  refine ⟨List.mem_cons_of_mem _ he, ?_⟩
  have hne : e.2 ≠ f := hall.coherent.frame_ne_of_free hall.free e he
  simp only [Function.update_of_ne hne]
  exact hpin

omit [DecidableEq F] [Inhabited D] in
/-- A frame that is given back at once. -/
theorem Allocated.release {s₁ : Store F D} {frees : List ℕ}
    (hall : Allocated seen s content pins loose key f s₁ s' frees) :
    Coherent seen { s' with frameManager := (s'.frameManager.free key f).2 } content pins loose ∧
      Kept s { s' with frameManager := (s'.frameManager.free key f).2 } := by
  obtain ⟨hcoh, hkept, hfree, hfresh, rfl⟩ := hall
  have hback : (FrameManager.free { s₁.frameManager with
      frames := (key, f) :: s₁.frameManager.frames, frees := frees } key f).2 =
      { s₁.frameManager with frees := frees ++ [f] } := by
    simp [FrameManager.free, FrameManager.find]
  simp only [hback]
  refine ⟨hcoh.perm (List.Perm.refl _) ?_, hkept.trans ⟨rfl, rfl, rfl, fun e he hpin => ⟨he, hpin⟩⟩⟩
  rw [hfree]
  exact List.perm_append_singleton f frees

/-- A page that is loaded into a new frame. -/
theorem Allocated.load {s₁ : Store F D} {frees : List ℕ}
    (hall : Allocated seen s content pins loose key f s₁ s' frees)
    (hopen : IsOpen s.manager.pools id pool) (hdesc : pool.fileDesc = key.fileDesc) :
    GetThisPage seen s content pins loose key
      (if (s'.loadPage pool.fileName key f).1 = .success then .ok f
        else .error (s'.loadPage pool.fileName key f).1, (s'.loadPage pool.fileName key f).2) := by
  have hopen₁ : IsOpen s₁.manager.pools id pool := by
    rw [hall.kept.manager]
    exact hopen
  have hdisk : s'.disk = s₁.disk := by rw [hall.eq]
  unfold Store.loadPage
  cases hpage : (s'.disk pool.fileName)[key.pageNum]? with
  | none =>
      simp only [reduceCtorEq, if_false]
      exact ⟨hall.release.2, hall.release.1⟩
  | some pg =>
      simp only [if_true]
      rw [hdisk] at hpage
      have hcoh := hall.coherent
      have hun : s₁.Uncached pool.fileName key.pageNum := by
        intro e he id' pool' hopen' hname heq
        obtain ⟨rfl, rfl⟩ := hcoh.registry.eq_of_name hopen₁ hopen' hname
        rw [hdesc] at heq
        exact hall.fresh e he heq
      have hcont : content pool.fileName key.pageNum = some pg.data := by
        rw [hcoh.stored _ _ hun, hpage]
        rfl
      have hnum := hcoh.numbered _ _ pg hpage
      have hlt := (List.getElem?_eq_some_iff.mp hpage).1
      have hins := hcoh.insert hall.free hall.fresh hopen₁ hdesc hnum hlt.le
        (hcoh.shown _ _ _ hcont)
      rw [Content.set_eq_self _ _ _ _ hcont,
        writePage_eq_self (by rw [hnum]; exact hpage), Function.update_eq_self] at hins
      have hidle := hcoh.idle f (hcoh.frame_ne_of_free hall.free)
      have hstore : s'.setFrame f ⟨false, 1, key.fileDesc, pg⟩ = { s₁ with
          frameManager := ⟨Function.update s₁.frameManager.frame f ⟨false, 1, key.fileDesc, pg⟩,
            (key, f) :: s₁.frameManager.frames, frees⟩ } := by
        rw [hall.eq]
        rfl
      rw [hstore]
      refine ⟨hall.kept_insert rfl rfl rfl rfl, ?_, List.mem_cons_self⟩
      rw [hidle]
      exact hins

/-- `get_this_page` hands out the frame of the page. -/
theorem Coherent.getThisPage (h : Coherent seen s content pins loose)
    (hopen : IsOpen s.manager.pools id pool) :
    Defined (Registered s.manager) (s.getThisPage id page)
      (GetThisPage seen s content pins loose ⟨pool.fileDesc, page⟩) := by
  unfold Store.getThisPage
  rw [openPool_eq_some.mpr hopen]
  simp only [Option.bind_eq_bind, Option.bind_some]
  cases hfind : s.frameManager.find ⟨pool.fileDesc, page⟩ with
  | some e =>
      -- the page has a frame
      obtain ⟨he, hkey⟩ := FrameManager.find_eq_some hfind
      have hget : s.frameManager.get ⟨pool.fileDesc, page⟩ =
          (some e.2, s.frameManager.touch e) := by
        unfold FrameManager.get
        rw [hfind]
      simp only [hget]
      have he' : e ∈ Store.entries { s with frameManager := s.frameManager.touch e } :=
        (FrameManager.perm_touch he).mem_iff.mpr he
      refine Defined.some ⟨(Kept.touch he).trans (Kept.setFrame fun _ => Nat.succ_pos _),
        (h.touch he).pin he', ?_⟩
      rw [← hkey]
      exact he'
  | none =>
      have hget : s.frameManager.get ⟨pool.fileDesc, page⟩ = (none, s.frameManager) := by
        unfold FrameManager.get
        rw [hfind]
      simp only [hget]
      refine (h.allocateFrame (Nat.lt_succ_self _)).bind ?_
      rintro ⟨rc | f, s'⟩ hall
      · exact Defined.some ⟨hall.2.2, hall.2.1⟩
      · obtain ⟨s₁, frees, hall⟩ := hall
        exact Defined.some (hall.load hopen rfl)

/-! ## Purging and flushing -/

/-- Writing the frame of an entry. -/
theorem Coherent.flushPage (h : Coherent seen s content pins loose) (he : e ∈ s.entries)
    (hopen : IsOpen s.manager.pools id pool) (hdesc : pool.fileDesc = e.1.fileDesc) :
    ∃ s', s.flushPage id e.2 = some s' ∧ Coherent seen s' content pins loose ∧ Kept s s' ∧
      s'.entries = s.entries ∧ s'.frame e.2 = { s.frame e.2 with dirty := false } := by
  obtain ⟨hflush, hcoh⟩ := h.flush he hopen hdesc
  have hkept : Kept s (s.setFrame e.2 { s.frame e.2 with dirty := false }) :=
    Kept.setFrame fun hpin => hpin
  exact ⟨_, hflush, hcoh, ⟨rfl, rfl, rfl, hkept.pinned⟩, rfl, Function.update_self _ _ _⟩

/-- A page can be purged when nobody has pinned it. -/
def Store.Unpinned (s : Store F D) (key : FrameId) : Prop :=
  ∀ e ∈ s.entries, e.1 = key → (s.frame e.2).pinCount = 0

/-- `purge_frame` writes the frame and frees it. -/
theorem Coherent.purgeFrame (h : Coherent seen s content pins loose)
    (hopen : IsOpen s.manager.pools id pool)
    (he : (⟨pool.fileDesc, page⟩, f) ∈ s.entries) :
    ∃ r, s.purgeFrame id page f = some r ∧ Coherent seen r.2 content pins loose ∧ Kept s r.2 ∧
      (r.1 = .success ↔ (s.frame f).pinCount = 0) ∧
      (r.1 = .success → ∀ e' ∈ r.2.entries, e'.1 ≠ ⟨pool.fileDesc, page⟩) := by
  unfold Store.purgeFrame
  rw [openPool_eq_some.mpr hopen]
  simp only [Option.bind_eq_bind, Option.bind_some]
  by_cases hpin : 0 < (s.frame f).pinCount
  · rw [if_pos hpin]
    refine ⟨_, rfl, h, Kept.refl s, ⟨nofun, fun hz => ?_⟩, nofun⟩
    omega
  · rw [if_neg hpin]
    have hpin : (s.frame f).pinCount = 0 := by omega
    -- the frame is clean before it is freed
    have hclean : ∃ s₁, (bif (s.frame f).dirty then s.flushPage id f else some s) = some s₁ ∧
        Coherent seen s₁ content pins loose ∧ Kept s s₁ ∧ s₁.entries = s.entries ∧
        s₁.frame f = { s.frame f with dirty := false } := by
      cases hdirty : (s.frame f).dirty with
      | true => exact h.flushPage he hopen rfl
      | false =>
          refine ⟨s, rfl, h, Kept.refl s, rfl, ?_⟩
          cases hframe : s.frame f
          simp_all
    obtain ⟨s₁, hflush, hcoh, hkept, hentries, hframe⟩ := hclean
    have he₁ : ((⟨pool.fileDesc, page⟩, f) : FrameId × ℕ) ∈ s₁.entries := by rw [hentries]; exact he
    have hpin₁ : (s₁.frame f).pinCount = 0 := by rw [hframe]; exact hpin
    rw [hflush]
    simp only [Option.bind_some]
    rw [hcoh.table.free_eq he₁]
    refine ⟨_, rfl, hcoh.remove he₁ hpin₁ (by rw [hframe]), hkept.trans (hcoh.kept_removed hpin₁),
      ⟨fun _ => hpin, fun _ => rfl⟩, fun _ e' he' hkey => ?_⟩
    obtain ⟨hne, hin⟩ := hcoh.mem_erase_iff.mp he'
    exact hne (hcoh.table.eq_of_key hin he₁ hkey)

/-- `purge_page` takes the frame of a page away. -/
theorem Coherent.purgePage (h : Coherent seen s content pins loose)
    (hopen : IsOpen s.manager.pools id pool) :
    ∃ r, s.purgePage id page = some r ∧ Coherent seen r.2 content pins loose ∧ Kept s r.2 ∧
      (r.1 = .success ↔ s.Unpinned ⟨pool.fileDesc, page⟩) ∧
      (r.1 = .success → ∀ e' ∈ r.2.entries, e'.1 ≠ ⟨pool.fileDesc, page⟩) := by
  unfold Store.purgePage
  rw [openPool_eq_some.mpr hopen]
  simp only [Option.bind_eq_bind, Option.bind_some]
  unfold FrameManager.get
  cases hfind : s.frameManager.find ⟨pool.fileDesc, page⟩ with
  | none =>
      have hnone := FrameManager.find_eq_none hfind
      refine ⟨_, rfl, h, Kept.refl s, ⟨fun _ e he hkey => ?_, fun _ => rfl⟩, fun _ => hnone⟩
      exact absurd hkey (hnone e he)
  | some e =>
      obtain ⟨he, hkey⟩ := FrameManager.find_eq_some hfind
      have he' : (⟨pool.fileDesc, page⟩, e.2) ∈
          Store.entries { s with frameManager := s.frameManager.touch e } := by
        rw [← hkey]
        exact (FrameManager.perm_touch he).mem_iff.mpr he
      obtain ⟨r, hr, hcoh, hkept, hrc, hgone⟩ := (h.touch he).purgeFrame hopen he'
      refine ⟨r, hr, hcoh, (Kept.touch he).trans hkept, hrc.trans ⟨fun hpin e₁ he₁ hk => ?_,
        fun hun => hun e he hkey⟩, hgone⟩
      rw [h.table.eq_of_key he₁ he (hk.trans hkey.symm)]
      exact hpin

/-- Flushing some frames of a file. -/
theorem Coherent.flushAll (h : Coherent seen s content pins loose)
    (hopen : IsOpen s.manager.pools id pool) {fs : List ℕ}
    (hfs : ∀ f ∈ fs, ∃ e ∈ s.entries, e.2 = f ∧ pool.fileDesc = e.1.fileDesc) :
    ∃ s', fs.foldlM (fun s f => s.flushPage id f) s = some s' ∧
      Coherent seen s' content pins loose ∧ Kept s s' := by
  induction fs generalizing s with
  | nil => exact ⟨s, rfl, h, Kept.refl s⟩
  | cons f fs ih =>
      obtain ⟨e, he, rfl, hdesc⟩ := hfs f List.mem_cons_self
      obtain ⟨s₁, hflush, hcoh, hkept, hentries, -⟩ := h.flushPage he hopen hdesc
      have hopen₁ : IsOpen s₁.manager.pools id pool := by
        rw [hkept.manager]
        exact hopen
      obtain ⟨s', hfold, hcoh', hkept'⟩ := ih hcoh hopen₁ fun f' hf' => by
        rw [hentries]
        exact hfs f' (List.mem_cons_of_mem _ hf')
      refine ⟨s', ?_, hcoh', hkept.trans hkept'⟩
      rw [List.foldlM_cons, hflush]
      exact hfold

/-- `flush_all_pages` writes the frames of a file. -/
theorem Coherent.flushAllPages (h : Coherent seen s content pins loose)
    (hopen : IsOpen s.manager.pools id pool) :
    ∃ s', s.flushAllPages id = some (.success, s') ∧ Coherent seen s' content pins loose ∧
      Kept s s' := by
  have hmem : ∀ f ∈ s.frameManager.findList pool.fileDesc,
      ∃ e ∈ s.entries, e.2 = f ∧ pool.fileDesc = e.1.fileDesc := by
    intro f hf
    unfold FrameManager.findList at hf
    obtain ⟨e, he, rfl⟩ := List.mem_map.mp hf
    obtain ⟨he, hfd⟩ := List.mem_filter.mp he
    exact ⟨e, he, rfl, (of_decide_eq_true hfd).symm⟩
  obtain ⟨s', hfold, hcoh, hkept⟩ := h.flushAll hopen hmem
  refine ⟨s', ?_, hcoh, hkept⟩
  unfold Store.flushAllPages
  rw [openPool_eq_some.mpr hopen]
  simp only [Option.bind_eq_bind, Option.bind_some, hfold]
  rfl

/-! ## The file header -/

omit [DecidableEq F] [Inhabited D] in
/-- The header in the frame is the header of the file. -/
theorem Coherent.fileHeader_eq (h : Coherent seen s content pins loose)
    (hopen : IsOpen s.manager.pools id pool) :
    ∃ hd, s.fileHeader id = some hd ∧ content pool.fileName 0 = some (.header hd) ∧
      hd.pageCount ≤ (s.disk pool.fileName).length := by
  have hcont := (h.cached_of_open (h.hdr hopen) hopen rfl).1
  obtain ⟨hd, hdata, hcount⟩ := h.header_of_entry (h.hdr hopen) hopen rfl rfl
  refine ⟨hd, ?_, ?_, hcount⟩
  · unfold Store.fileHeader
    simp only at hdata
    rw [hdata]
  · rw [← hdata]
    exact hcont

omit [Inhabited D] in
/-- A change of the header. -/
theorem Coherent.setFileHeader (h : Coherent seen s content pins loose)
    (hopen : IsOpen s.manager.pools id pool) {hd : FileHeader}
    (hcount : hd.pageCount ≤ (s.disk pool.fileName).length)
    (hseen : seen pool.fileName 0 (.header hd)) :
    Coherent seen (s.setFileHeader id hd) (content.set pool.fileName 0 (.header hd)) pins loose ∧
      Kept s (s.setFileHeader id hd) := by
  have he := h.hdr hopen
  obtain ⟨hfd, hnum⟩ := h.labels _ he
  refine ⟨?_, Kept.setFrame fun hpin => hpin⟩
  exact h.changeFrame he hopen rfl ⟨hfd, hnum⟩ (fun hdirty => by cases hdirty)
    (fun _ => ⟨hd, rfl, hcount⟩) (h.pinned _ he) (fun _ _ => rfl) (h.loosePinned _)
    (fun _ _ => Iff.rfl) hseen

omit [DecidableEq F] [Inhabited D] in
/-- The pages that wait for their last pin are not part of the pages. -/
theorem Coherent.setDisposed (h : Coherent seen s content pins loose)
    (disposedPages : ℕ → List ℕ) :
    Coherent seen { s with disposedPages := disposedPages } content pins loose :=
  { h with }

/-- `dispose_page` gives an unpinned page back, and remembers a pinned one. -/
theorem Coherent.disposePage (h : Coherent seen s content pins loose)
    (hopen : IsOpen s.manager.pools id pool) {hd : FileHeader}
    (hheader : content pool.fileName 0 = some (.header hd))
    (hseen : s.Unpinned ⟨pool.fileDesc, page⟩ →
      seen pool.fileName 0 (.header (hd.dispose page))) :
    ∃ r s₁, s.disposePage id page = some r ∧ Kept s s₁ ∧
      (r.1 = .success ↔ s.Unpinned ⟨pool.fileDesc, page⟩) ∧
      (r.1 = .success → r.2 = s₁ ∧
        Coherent seen s₁ (content.set pool.fileName 0 (.header (hd.dispose page))) pins loose) ∧
      (r.1 ≠ .success → Coherent seen s₁ content pins loose ∧ r.2 = { s₁ with
        disposedPages := Function.update s.disposedPages id
          ((s.disposedPages id).insert page) }) := by
  obtain ⟨⟨rc, s₁⟩, hpurge, hcoh, hkept, hrc, -⟩ := h.purgePage hopen
  have hopen₁ : IsOpen s₁.manager.pools id pool := by
    rw [hkept.manager]
    exact hopen
  unfold Store.disposePage
  rw [hpurge]
  simp only [Option.bind_eq_bind, Option.bind_some]
  by_cases hsuccess : rc = .success
  · obtain ⟨hd', hfile, hcont, hcount⟩ := hcoh.fileHeader_eq hopen₁
    rw [hheader] at hcont
    obtain rfl : hd = hd' := by
      injection hcont with hcont
      injection hcont
    have hcount : (hd.dispose page).pageCount ≤ (s₁.disk pool.fileName).length := hcount
    obtain ⟨hcoh', hkept'⟩ := hcoh.setFileHeader hopen₁ hcount (hseen (hrc.mp hsuccess))
    simp only [hsuccess, ne_eq, not_true, if_false, hfile]
    refine ⟨_, _, rfl, hkept.trans hkept', ?_, fun _ => ⟨rfl, hcoh'⟩, fun hne => absurd rfl hne⟩
    rw [← hrc]
    simp [hsuccess]
  · simp only [ne_eq, hsuccess, not_false_eq_true, if_true]
    refine ⟨_, s₁, rfl, hkept, hrc, fun hs => absurd hs hsuccess, fun _ => ⟨hcoh, ?_⟩⟩
    rw [hkept.disposedPages]

/-! ## Unpinning -/

omit [Inhabited D] in
/-- One pin less on the frame of an entry. -/
theorem Coherent.unpin (h : Coherent seen s content pins loose) (he : e ∈ s.entries)
    (hpos : 0 < pins e.2) (hloose : loose e.2 → 1 < pins e.2) :
    Coherent seen (s.setFrame e.2 { s.frame e.2 with pinCount := (s.frame e.2).pinCount - 1 })
      content (Function.update pins e.2 (pins e.2 - 1)) loose := by
  obtain ⟨id, pool, hopen, hdesc, hcont, hsame⟩ := h.cached e he
  let frame : Frame D := { s.frame e.2 with pinCount := (s.frame e.2).pinCount - 1 }
  have hlabel : frame.fileDesc = e.1.fileDesc ∧ frame.page.pageNum = e.1.pageNum := h.labels e he
  have hpins : frame.pinCount =
      Function.update pins e.2 (pins e.2 - 1) e.2 + if e.1.pageNum = 0 then 1 else 0 := by
    have := h.pinned e he
    simp only [frame, Function.update_self]
    omega
  have hloose' : loose e.2 → 0 < Function.update pins e.2 (pins e.2 - 1) e.2 := by
    intro hl
    have := hloose hl
    rw [Function.update_self]
    omega
  have := h.changeFrame he hopen hdesc hlabel hsame (h.header_of_entry he hopen hdesc) hpins
    (fun f hf => Function.update_of_ne hf _ _) hloose' (fun _ _ => Iff.rfl) (h.shown _ _ _ hcont)
  rwa [Content.set_eq_self _ _ _ _ hcont] at this

/-- The last pin on a page that is to be given back. -/
def Store.GivesBack (s : Store F D) (id : ℕ) (e : FrameId × ℕ) : Prop :=
  (s.frame e.2).pinCount = 1 ∧ e.1.pageNum ∈ s.disposedPages id

/-- The frames that stay when a pin on `e` goes. -/
def StaysBut (s s' : Store F D) (e : FrameId × ℕ) : Prop :=
  ∀ e' ∈ s.entries, 0 < (s.frame e'.2).pinCount → (e' = e → 1 < (s.frame e.2).pinCount) →
    e' ∈ s'.entries

/-- `unpin_page` takes a pin away, and with the last one gives back a page that is to be. -/
theorem Coherent.unpinPage (h : Coherent seen s content pins loose) (he : e ∈ s.entries)
    (hopen : IsOpen s.manager.pools id pool) (hdesc : pool.fileDesc = e.1.fileDesc)
    (hpos : 0 < pins e.2) (hloose : loose e.2 → 1 < pins e.2) {hd : FileHeader}
    (hheader : content pool.fileName 0 = some (.header hd))
    (hseen : s.GivesBack id e → seen pool.fileName 0 (.header (hd.dispose e.1.pageNum))) :
    ∃ s', s.unpinPage id e.2 = some (.success, s') ∧ s'.manager = s.manager ∧
      s'.hdrFrame = s.hdrFrame ∧ StaysBut s s' e ∧
      (s.GivesBack id e →
        Coherent seen s' (content.set pool.fileName 0 (.header (hd.dispose e.1.pageNum)))
          (Function.update pins e.2 (pins e.2 - 1)) loose ∧
        s'.disposedPages =
          Function.update s.disposedPages id ((s.disposedPages id).erase e.1.pageNum)) ∧
      (¬ s.GivesBack id e →
        Coherent seen s' content (Function.update pins e.2 (pins e.2 - 1)) loose ∧
        s'.disposedPages = s.disposedPages) := by
  have hcoh := h.unpin he hpos hloose
  have hpin := h.pinned e he
  have hnum := (h.labels e he).2
  have hne : (s.frame e.2).pinCount ≠ 0 := by omega
  unfold Store.unpinPage
  rw [openPool_eq_some.mpr hopen]
  simp only [Option.bind_eq_bind, Option.bind_some, hne, if_false]
  -- the pools with one pin less
  obtain ⟨s₀, hs₀⟩ : ∃ s₀, s₀ = s.setFrame e.2
      { s.frame e.2 with pinCount := (s.frame e.2).pinCount - 1 } := ⟨_, rfl⟩
  rw [← hs₀] at hcoh ⊢
  have hmanager : s₀.manager = s.manager := by rw [hs₀]; rfl
  have hhdr : s₀.hdrFrame = s.hdrFrame := by rw [hs₀]; rfl
  have hdisposed : s₀.disposedPages = s.disposedPages := by rw [hs₀]; rfl
  have hentries : s₀.entries = s.entries := by rw [hs₀]; rfl
  have hself : s₀.frame e.2 = { s.frame e.2 with pinCount := (s.frame e.2).pinCount - 1 } := by
    rw [hs₀]
    exact Function.update_self _ _ _
  have hother : ∀ e' ∈ s.entries, e' ≠ e → s₀.frame e'.2 = s.frame e'.2 := by
    intro e' he' heq
    rw [hs₀]
    exact Function.update_of_ne (fun hid => heq (h.table.eq_of_frame he' he hid)) _ _
  have hstays : StaysBut s s₀ e := fun e' he' _ _ => by rwa [hentries]
  simp only [hself, hnum, hdisposed]
  by_cases hgives : s.GivesBack id e
  · obtain ⟨hone, hmem⟩ := hgives
    have hopen₀ : IsOpen s₀.manager.pools id pool := by rw [hmanager]; exact hopen
    obtain ⟨r, s₁, hdispose, hkept, hrc, hsuccess, -⟩ := hcoh.disposePage hopen₀ hheader
      fun _ => hseen ⟨hone, hmem⟩
    have hun : s₀.Unpinned ⟨pool.fileDesc, e.1.pageNum⟩ := by
      intro e' he' hkey
      rw [hentries] at he'
      have heq : e' = e := h.table.eq_of_key he' he (by rw [hkey, hdesc])
      rw [heq, hself]
      show (s.frame e.2).pinCount - 1 = 0
      omega
    obtain ⟨hr, hcoh'⟩ := hsuccess (hrc.mpr hun)
    simp only [hone, Nat.sub_self, ne_eq, not_true, if_false, hmem, hdispose, Option.bind_some, hr]
    refine ⟨_, rfl, hkept.manager.trans hmanager, hkept.hdrFrame.trans hhdr,
      fun e' he' hp hmore => ?_, fun _ => ⟨hcoh'.setDisposed _, ?_⟩,
      fun hno => absurd ⟨hone, hmem⟩ hno⟩
    · have heq : e' ≠ e := fun heq => by
        have := hmore heq
        omega
      refine (hkept.pinned e' (by rwa [hentries]) ?_).1
      rwa [hother e' he' heq]
    · rw [hkept.disposedPages, hdisposed]
  · have hskip : (if (s.frame e.2).pinCount - 1 ≠ 0 then some (RC.success, s₀)
        else if e.1.pageNum ∉ s.disposedPages id then some (RC.success, s₀)
        else (s₀.disposePage id e.1.pageNum).bind fun r => some (RC.success, { r.2 with
          disposedPages := Function.update r.2.disposedPages id
            ((r.2.disposedPages id).erase e.1.pageNum) })) = some (RC.success, s₀) := by
      by_cases hlast : (s.frame e.2).pinCount - 1 = 0
      · have hmem : e.1.pageNum ∉ s.disposedPages id := fun hm => hgives ⟨by omega, hm⟩
        rw [if_neg (not_not_intro hlast), if_pos hmem]
      · rw [if_pos hlast]
    exact ⟨s₀, hskip, hmanager, hhdr, hstays, fun hg => absurd hg hgives,
      fun _ => ⟨hcoh, hdisposed⟩⟩

/-! ## Allocating a page -/

/-- The pages after a page has been added at the end of a file. -/
def Content.extend (content : Content F D) (name : F) (hd : FileHeader) : Content F D :=
  (content.set name hd.pageCount (.bytes default)).set name 0 (.header hd.extend)

/-- A page that is added at the end of its file. -/
theorem Allocated.extend {s₁ : Store F D} {frees : List ℕ} {hd : FileHeader}
    (hall : Allocated seen s content pins loose ⟨pool.fileDesc, hd.pageCount⟩ f s₁ s' frees)
    (hopen : IsOpen s.manager.pools id pool)
    (hcount : hd.pageCount ≤ (s₁.disk pool.fileName).length) :
    ∃ s₂, ((s'.setFileHeader id hd.extend).setFrame f
        ⟨false, 1, pool.fileDesc, ⟨hd.pageCount, .bytes default⟩⟩).flushPage id f = some s₂ ∧
      Kept s s₂ ∧
      Coherent (addSeen seen (content.extend pool.fileName hd)) s₂
        (content.extend pool.fileName hd) (Function.update pins f (pins f + 1)) loose ∧
      (⟨pool.fileDesc, hd.pageCount⟩, f) ∈ s₂.entries := by
  have hopen₁ : IsOpen s₁.manager.pools id pool := by
    rw [hall.kept.manager]
    exact hopen
  have hcoh : Coherent (addSeen seen (content.extend pool.fileName hd)) s₁ content pins loose :=
    hall.coherent.mono fun _ _ _ => Or.inl
  -- page 0 has its frame already
  have hzero : hd.pageCount ≠ 0 := by
    intro hz
    refine hall.fresh _ (hcoh.hdr hopen₁) ?_
    rw [hz]
  have hseen : addSeen seen (content.extend pool.fileName hd) pool.fileName hd.pageCount
      (.bytes default) := by
    refine Or.inr ?_
    unfold Content.extend
    rw [Content.set_of_ne _ _ _ _ fun _ => hzero, Content.set_self]
  have hseen' : addSeen seen (content.extend pool.fileName hd) pool.fileName 0
      (.header hd.extend) := Or.inr (Content.set_self ..)
  have hidle := hcoh.idle f (hcoh.frame_ne_of_free hall.free)
  -- the page in its frame and in the file, and then the header
  let new : Page D := ⟨hd.pageCount, .bytes default⟩
  have hnum : new.pageNum = (⟨pool.fileDesc, hd.pageCount⟩ : FrameId).pageNum := rfl
  have hins := hcoh.insert hall.free hall.fresh hopen₁ rfl hnum hcount hseen
  obtain ⟨s₂, hs₂⟩ : ∃ s₂ : Store F D, s₂ = { s₁ with
      frameManager := ⟨Function.update s₁.frameManager.frame f ⟨false, 1, pool.fileDesc, new⟩,
        (⟨pool.fileDesc, hd.pageCount⟩, f) :: s₁.frameManager.frames, frees⟩
      disk := Function.update s₁.disk pool.fileName
        (writePage (s₁.disk pool.fileName) new) } := ⟨_, rfl⟩
  rw [← hs₂] at hins
  have hopen₂ : IsOpen s₂.manager.pools id pool := by rw [hs₂]; exact hopen₁
  have hlen : hd.extend.pageCount ≤ (s₂.disk pool.fileName).length := by
    have hself : (writePage (s₁.disk pool.fileName) new)[new.pageNum]? = some new :=
      writePage_self hcount
    rw [hs₂]
    simp only [Function.update_self]
    exact (List.getElem?_eq_some_iff.mp hself).1
  obtain ⟨hcoh', hkept'⟩ := hins.setFileHeader hopen₂ hlen hseen'
  have hkept₂ : Kept s s₂ := by
    rw [hs₂]
    exact hall.kept_insert rfl rfl rfl rfl
  have hne : s₁.hdrFrame id ≠ f :=
    hcoh.frame_ne_of_free hall.free _ (hcoh.hdr hopen₁)
  refine ⟨s₂.setFileHeader id hd.extend, ?_, hkept₂.trans hkept', ?_, ?_⟩
  · have hpool' : Store.openPool ((s'.setFileHeader id hd.extend).setFrame f
        ⟨false, 1, pool.fileDesc, new⟩) id = some pool := by
      rw [openPool_eq_some, hall.eq]
      exact hopen₁
    unfold Store.flushPage
    rw [hpool', hall.eq, hs₂]
    simp only [Option.bind_eq_bind, Option.bind_some, Store.setFileHeader, Store.setFrame,
      Store.frame, FrameManager.setFrame, Function.update_self, Function.update_idem,
      Function.update_of_ne hne, Function.update_of_ne hne.symm, Function.update_comm hne]
    rfl
  · rw [hidle]
    exact hcoh'
  · show _ ∈ s₂.entries
    rw [hs₂]
    exact List.mem_cons_self

/-- What `allocate_page` promises, for the header `hd` of the file. -/
def AllocatePage (seen : F → ℕ → PageData D → Prop) (s : Store F D) (content : Content F D)
    (pins : ℕ → ℕ) (loose : ℕ → Prop) (pool : PoolObject F) (hd : FileHeader)
    (r : Except RC (ℕ × ℕ) × Store F D) : Prop :=
  Kept s r.2 ∧ match hd.freePage, r.1 with
  | some page, .ok (page', f) => page' = page ∧
      Coherent (addSeen seen (content.set pool.fileName 0 (.header (hd.reuse page)))) r.2
        (content.set pool.fileName 0 (.header (hd.reuse page)))
        (Function.update pins f (pins f + 1)) loose ∧ (⟨pool.fileDesc, page'⟩, f) ∈ r.2.entries
  | some page, .error _ =>
      Coherent (addSeen seen (content.set pool.fileName 0 (.header (hd.reuse page)))) r.2
        (content.set pool.fileName 0 (.header (hd.reuse page))) pins loose
  | none, .ok (page', f) => page' = hd.pageCount ∧
      Coherent (addSeen seen (content.extend pool.fileName hd)) r.2
        (content.extend pool.fileName hd) (Function.update pins f (pins f + 1)) loose ∧
      (⟨pool.fileDesc, page'⟩, f) ∈ r.2.entries
  | none, .error _ => Coherent seen r.2 content pins loose

/-- `allocate_page` takes a page that has been given back, or adds one. -/
theorem Coherent.allocatePage (h : Coherent seen s content pins loose)
    (hopen : IsOpen s.manager.pools id pool) {hd : FileHeader}
    (hheader : content pool.fileName 0 = some (.header hd)) :
    Defined (Registered s.manager) (s.allocatePage id)
      (AllocatePage seen s content pins loose pool hd) := by
  obtain ⟨hd', hfile, hcont, hcount⟩ := h.fileHeader_eq hopen
  rw [hheader] at hcont
  obtain rfl : hd = hd' := by
    injection hcont with hcont
    injection hcont
  unfold Store.allocatePage
  rw [openPool_eq_some.mpr hopen]
  simp only [Option.bind_eq_bind, Option.bind_some, hfile]
  cases hfree : hd.freePage with
  | some page =>
      have hcount' : (hd.reuse page).pageCount ≤ (s.disk pool.fileName).length := hcount
      have hmore : Coherent (addSeen seen (content.set pool.fileName 0 (.header (hd.reuse page)))) s
        content pins loose := h.mono fun _ _ _ => Or.inl
      obtain ⟨hcoh, hkept⟩ := hmore.setFileHeader hopen hcount' (Or.inr (Content.set_self ..))
      have hget : Defined (Registered s.manager) ((s.setFileHeader id (hd.reuse page)).getThisPage
          id page) _ := hcoh.getThisPage hopen
      refine hget.bind ?_
      rintro ⟨rc | f, s'⟩ ⟨hkept', hgot⟩
      · refine Defined.some ⟨hkept.trans hkept', ?_⟩
        rw [hfree]
        exact hgot
      · refine Defined.some ⟨hkept.trans hkept', ?_⟩
        rw [hfree]
        exact ⟨rfl, hgot⟩
  | none =>
      by_cases hfull : maxPageNum ≤ hd.pageCount
      · simp only [hfull, if_true]
        refine Defined.some ⟨Kept.refl s, ?_⟩
        rw [hfree]
        exact h
      · simp only [hfull, if_false]
        refine (h.allocateFrame (Nat.lt_succ_self _)).bind ?_
        rintro ⟨rc | f, s'⟩ hall
        · refine Defined.some ⟨hall.2.2, ?_⟩
          rw [hfree]
          exact hall.2.1
        · obtain ⟨s₁, frees, hall⟩ := hall
          have hcount₁ : hd.pageCount ≤ (s₁.disk pool.fileName).length := by
            obtain ⟨hd', hd'eq, hle⟩ := hall.coherent.header _ _ hheader
            injection hd'eq with hd'eq
            rw [hd'eq]
            exact hle
          obtain ⟨s₂, hflush, hkept, hcoh, hmem⟩ := hall.extend hopen hcount₁
          simp only [hflush, Option.bind_some]
          refine Defined.some ⟨hkept, ?_⟩
          rw [hfree]
          exact ⟨rfl, hcoh, hmem⟩

/-! ## Opening and closing -/

/-- What a successful `open_file` has done. -/
structure OpensFile (seen : F → ℕ → PageData D → Prop) (s : Store F D) (content : Content F D)
    (pins : ℕ → ℕ) (loose : ℕ → Prop) (name : F) (s' : Store F D) : Prop where
  closed : s.manager.bufferPools name = none
  manager : s'.manager = opened s.manager name
  disposedPages : s'.disposedPages =
    Function.update s.disposedPages s.manager.pools.length []
  coherent : Coherent seen s' content pins loose
  pinned : ∀ e ∈ s.entries, 0 < (s.frame e.2).pinCount → e ∈ s'.entries

omit [Inhabited D] in
/-- The header of the file gets its frame and the pool is registered. -/
theorem Allocated.opensFile {s₁ : Store F D} {frees : List ℕ} {name : F} {pg : Page D}
    (hall : Allocated seen s content pins loose ⟨lowestFree s.manager.used, 0⟩ f s₁ s' frees)
    (hname : s.manager.bufferPools name = none) (hpg : (s₁.disk name)[0]? = some pg) :
    OpensFile seen s content pins loose name
      { s'.setFrame f ⟨false, 1, lowestFree s.manager.used, pg⟩ with
        manager := opened s.manager name
        hdrFrame := Function.update s'.hdrFrame s'.manager.pools.length f
        disposedPages := Function.update s'.disposedPages s'.manager.pools.length [] } := by
  obtain ⟨hcoh, hkept, hfree, hfresh, rfl⟩ := hall
  have hname₁ : s₁.manager.bufferPools name = none := by
    rw [hkept.manager]
    exact hname
  have hnew := hcoh.openHeader hfree hname₁ hpg
    (Function.update s₁.disposedPages s₁.manager.pools.length [])
  rw [hkept.manager] at hnew
  refine ⟨hname, rfl, ?_, ?_, fun e he hpin => ?_⟩
  · simp only [hkept.disposedPages, hkept.manager]
  · simp only [hkept.manager]
    exact hnew
  · exact List.mem_cons_of_mem _ (hkept.pinned e he hpin).1

/-- `open_file` loads the header of the file and registers the pool. -/
theorem Coherent.openFile (h : Coherent seen s content pins loose) (name : F) :
    Defined (Registered s.manager) (s.openFile name) fun r =>
      r.1 = .success ∧ OpensFile seen s content pins loose name r.2 ∨
      r.1 ≠ .success ∧ Coherent seen r.2 content pins loose ∧ Kept s r.2 := by
  unfold Store.openFile
  by_cases hname : (s.manager.bufferPools name).isSome
  · rw [if_pos hname]
    exact Defined.some (Or.inr ⟨nofun, h, Kept.refl s⟩)
  · rw [if_neg hname]
    have hname : s.manager.bufferPools name = none := by simpa using hname
    by_cases hdisk : s.disk name = []
    · rw [if_pos hdisk]
      exact Defined.some (Or.inr ⟨nofun, h, Kept.refl s⟩)
    · rw [if_neg hdisk]
      refine (h.allocateFrame (Nat.lt_succ_self _)).bind ?_
      rintro ⟨rc | f, s'⟩ hall
      · exact Defined.some (Or.inr hall)
      · obtain ⟨s₁, frees, hall⟩ := hall
        have hall : Allocated seen s content pins loose ⟨lowestFree s.manager.used, 0⟩ f s₁ s'
          frees := hall
        -- the header page is in the file
        have hsome : (content name 0).isSome := by
          rw [h.stored name 0 fun e he id pool hopen hn => ?_]
          · cases hd : s.disk name with
            | nil => exact absurd hd hdisk
            | cons pg pages => rfl
          · have := (h.registry.names name id).mpr ⟨pool, hopen, hn⟩
            rw [hname] at this
            cases this
        obtain ⟨pg, hpg⟩ : ∃ pg, (s₁.disk name)[0]? = some pg :=
          ⟨_, List.getElem?_eq_getElem (hall.coherent.length name 0 hsome)⟩
        have hpg' : (s'.disk name)[0]? = some pg := by
          rw [hall.eq]
          exact hpg
        have hmanager : s'.manager = s.manager := by
          rw [hall.eq]
          exact hall.kept.manager
        have hopens := hall.opensFile hname hpg
        unfold Store.loadPage
        simp only [hpg', Store.setFrame, hmanager, openFile_eq hname]
        refine Defined.some (Or.inl ⟨rfl, ?_⟩)
        rw [hmanager] at hopens
        exact hopens

/-- No page of the file has a frame but the header. -/
def Store.HeaderOnly (s : Store F D) (fileDesc : Int) : Prop :=
  ∀ e ∈ s.entries, e.1.fileDesc = fileDesc → e.1.pageNum = 0

/-- What closing a file does: the frame of its header is freed and the pool is dropped. -/
structure ClosesFile (seen : F → ℕ → PageData D → Prop) (s : Store F D) (content : Content F D)
    (pins : ℕ → ℕ) (loose : ℕ → Prop) (id : ℕ) (pool : PoolObject F) (s' : Store F D) : Prop where
  coherent : Coherent seen s' content pins loose
  manager : ∃ fd, s'.manager = s.manager.drop id pool fd
  disposedPages : s'.disposedPages = Function.update s.disposedPages id []
  pinned : ∀ e ∈ s.entries, 0 < (s.frame e.2).pinCount → e.1 ≠ ⟨pool.fileDesc, 0⟩ →
    e ∈ s'.entries

/-- A frame that is written to its file if it is dirty. -/
def Store.cleaned (s : Store F D) (f : ℕ) (name : F) : Store F D :=
  bif (s.frame f).dirty then s.flushed f name else s

section cleaned

variable (s : Store F D) (f : ℕ) (name : F)

theorem cleaned_manager : (s.cleaned f name).manager = s.manager := by
  unfold Store.cleaned
  cases (s.frame f).dirty <;> rfl

theorem cleaned_hdrFrame : (s.cleaned f name).hdrFrame = s.hdrFrame := by
  unfold Store.cleaned
  cases (s.frame f).dirty <;> rfl

theorem cleaned_disposedPages : (s.cleaned f name).disposedPages = s.disposedPages := by
  unfold Store.cleaned
  cases (s.frame f).dirty <;> rfl

theorem cleaned_frames : (s.cleaned f name).frameManager.frames = s.frameManager.frames := by
  unfold Store.cleaned
  cases (s.frame f).dirty <;> rfl

theorem cleaned_frees : (s.cleaned f name).frameManager.frees = s.frameManager.frees := by
  unfold Store.cleaned
  cases (s.frame f).dirty <;> rfl

theorem cleaned_dirty : ((s.cleaned f name).frame f).dirty = false := by
  unfold Store.cleaned
  cases hdirty : (s.frame f).dirty with
  | true => simp [Store.flushed, Store.frame, FrameManager.setFrame]
  | false => exact hdirty

/-- Only the frame itself and the file change. -/
theorem cleaned_frame_of_ne {f' : ℕ} (hne : f' ≠ f) :
    (s.cleaned f name).frameManager.frame f' = s.frameManager.frame f' := by
  unfold Store.cleaned
  cases (s.frame f).dirty with
  | true => exact Function.update_of_ne hne _ _
  | false => rfl

/-- The pins of the frame do not matter for what is written. -/
theorem cleaned_disk_pins (n : ℕ) :
    ((s.setFrame f { s.frame f with pinCount := n }).cleaned f name).disk =
      (s.cleaned f name).disk := by
  have hself : (s.setFrame f { s.frame f with pinCount := n }).frame f =
      { s.frame f with pinCount := n } := Function.update_self _ _ _
  unfold Store.cleaned
  rw [hself]
  cases (s.frame f).dirty with
  | true =>
      simp only [cond_true, Store.flushed, hself]
      rfl
  | false => rfl

end cleaned

theorem flushPage_eq (hopen : IsOpen s.manager.pools id pool) :
    s.flushPage id f = some (s.flushed f pool.fileName) := by
  unfold Store.flushPage
  rw [openPool_eq_some.mpr hopen]
  rfl

/-- `purge_page` for a page whose frame nobody has pinned. -/
theorem purgePage_eq (htable : s.frameManager.Table) (hopen : IsOpen s.manager.pools id pool)
    (he : (⟨pool.fileDesc, page⟩, f) ∈ s.entries) (hpin : (s.frame f).pinCount = 0) :
    s.purgePage id page = some (.success,
      (s.cleaned f pool.fileName).removed (⟨pool.fileDesc, page⟩, f)) := by
  obtain ⟨s₀, hs₀⟩ : ∃ s₀ : Store F D, s₀ = { s with
      frameManager := s.frameManager.touch (⟨pool.fileDesc, page⟩, f) } := ⟨_, rfl⟩
  have hpool : s₀.openPool id = some pool := by
    rw [openPool_eq_some, hs₀]
    exact hopen
  have hframe : s₀.frame f = s.frame f := by rw [hs₀]; rfl
  have hget : s.frameManager.get ⟨pool.fileDesc, page⟩ = (some f, s₀.frameManager) := by
    unfold FrameManager.get
    rw [htable.find_of_mem he, hs₀]
  have hfree : ∀ fm : FrameManager D, fm.frames = s₀.frameManager.frames →
      fm.frees = s.frameManager.frees → fm.free ⟨pool.fileDesc, page⟩ f = (.success,
        ⟨fm.frame, s.frameManager.frames.erase (⟨pool.fileDesc, page⟩, f),
          s.frameManager.frees ++ [f]⟩) := by
    intro fm hframes hfrees
    unfold FrameManager.free FrameManager.find
    rw [hframes, hfrees, hs₀]
    simp [FrameManager.touch]
  unfold Store.purgePage
  rw [openPool_eq_some.mpr hopen]
  simp only [Option.bind_eq_bind, Option.bind_some, hget]
  have hstore : ({ s with frameManager := s₀.frameManager } : Store F D) = s₀ := by rw [hs₀]
  rw [hstore]
  unfold Store.purgeFrame
  rw [hpool]
  simp only [Option.bind_eq_bind, Option.bind_some, hframe, hpin, Nat.lt_irrefl, if_false]
  unfold Store.cleaned
  cases hdirty : (s.frame f).dirty with
  | true =>
      rw [flushPage_eq (openPool_eq_some.mp hpool)]
      simp only [cond_true, Option.bind_some]
      rw [hfree (s₀.flushed f pool.fileName).frameManager rfl (by rw [hs₀]; rfl), hs₀]
      rfl
  | false =>
      simp only [cond_false, Option.bind_some]
      rw [hfree _ rfl (by rw [hs₀]; rfl), hs₀]
      rfl

/-- Writing the frame of an entry if it is dirty. -/
theorem Coherent.cleaned (h : Coherent seen s content pins loose) (he : e ∈ s.entries)
    (hopen : IsOpen s.manager.pools id pool) (hdesc : pool.fileDesc = e.1.fileDesc) :
    Coherent seen (s.cleaned e.2 pool.fileName) content pins loose := by
  unfold Store.cleaned
  cases (s.frame e.2).dirty with
  | true => exact (h.flush he hopen hdesc).2
  | false => exact h

/-- The frame of the header is written and freed. -/
theorem Coherent.purgeHeader (h : Coherent seen s content pins loose)
    (hopen : IsOpen s.manager.pools id pool) (hpins : pins (s.hdrFrame id) = 0)
    (honly : s.HeaderOnly pool.fileDesc) :
    ∃ s', s.purgeHeader id = some (.success, s') ∧ s'.manager = s.manager ∧
      ∀ fd, ClosesFile seen s content pins loose id pool
        { s' with manager := s.manager.drop id pool fd } := by
  have he := h.hdr hopen
  have hpin := h.pinned _ he
  have hone : (s.frame (s.hdrFrame id)).pinCount = 1 := by
    rw [hpin, hpins]
    rfl
  obtain ⟨f, hf⟩ : ∃ f, f = s.hdrFrame id := ⟨_, rfl⟩
  rw [← hf] at he hone hpins
  -- the store with the pin gone, and then the header written and its frame freed
  let s₀ := s.setFrame f { s.frame f with pinCount := 0 }
  have hself : s₀.frame f = { s.frame f with pinCount := 0 } := Function.update_self _ _ _
  have hpurge : s₀.purgePage id 0 = some (.success,
      (s₀.cleaned f pool.fileName).removed (⟨pool.fileDesc, 0⟩, f)) :=
    purgePage_eq ⟨h.table.keys, h.table.ids⟩ hopen he (by rw [hself])
  refine ⟨{ (s₀.cleaned f pool.fileName).removed (⟨pool.fileDesc, 0⟩, f) with
    disposedPages := Function.update s.disposedPages id [] }, ?_, ?_, fun fd => ?_⟩
  · unfold Store.purgeHeader
    simp only [← hf, hone, Nat.sub_self]
    refine (congrArg (Option.bind · _) hpurge).trans ?_
    simp only [Option.bind_some, ne_eq, not_true, if_false]
    have hdisposed : ((s₀.cleaned f pool.fileName).removed
        (⟨pool.fileDesc, 0⟩, f)).disposedPages = s.disposedPages :=
      cleaned_disposedPages s₀ f pool.fileName
    rw [hdisposed]
    rfl
  · exact cleaned_manager s₀ f pool.fileName
  · have hcoh := h.cleaned he hopen rfl
    have hopen₁ : IsOpen (s.cleaned f pool.fileName).manager.pools id pool := by
      rw [cleaned_manager]
      exact hopen
    have hhdr : (s.cleaned f pool.fileName).hdrFrame id = f := by
      rw [cleaned_hdrFrame, hf]
    have hentries : (s.cleaned f pool.fileName).entries = s.entries := cleaned_frames s f _
    have hclose := hcoh.close hopen₁ (by rw [hhdr]; exact cleaned_dirty s f _)
      (by rw [hhdr]; exact hpins) (by rw [hentries]; exact honly) fd
      (Function.update s.disposedPages id [])
    rw [hhdr] at hclose
    have hgone : ∀ e' ∈ (s.cleaned f pool.fileName).frameManager.frames.erase
        (⟨pool.fileDesc, 0⟩, f), e'.2 ≠ f := by
      intro e' he' heq
      obtain ⟨hne, hin⟩ := hcoh.mem_erase_iff.mp he'
      rw [hentries] at hin
      exact hne (h.table.eq_of_frame hin he heq)
    have hdrop := hclose.setFrame_of_free hgone ((s₀.cleaned f pool.fileName).frame f)
    refine ⟨?_, ⟨fd, rfl⟩, rfl, fun e' he' _ hne => ?_⟩
    · convert hdrop using 1
      refine Store.ext ?_ ?_ rfl (FrameManager.ext (funext fun f' => ?_) ?_ ?_) ?_
      · show s.manager.drop id pool fd = (s.cleaned f pool.fileName).manager.drop id pool fd
        rw [cleaned_manager]
      · show (s₀.cleaned f pool.fileName).hdrFrame = (s.cleaned f pool.fileName).hdrFrame
        rw [cleaned_hdrFrame, cleaned_hdrFrame]
        rfl
      · show (s₀.cleaned f pool.fileName).frameManager.frame f' =
          Function.update (s.cleaned f pool.fileName).frameManager.frame f _ f'
        by_cases hff : f' = f
        · rw [hff, Function.update_self]
          rfl
        · rw [Function.update_of_ne hff, cleaned_frame_of_ne _ _ _ hff,
            cleaned_frame_of_ne _ _ _ hff]
          exact Function.update_of_ne hff _ _
      · show (s₀.cleaned f pool.fileName).frameManager.frames.erase _ =
          (s.cleaned f pool.fileName).frameManager.frames.erase _
        rw [cleaned_frames, cleaned_frames]
        rfl
      · show (s₀.cleaned f pool.fileName).frameManager.frees ++ [f] =
          (s.cleaned f pool.fileName).frameManager.frees ++ [f]
        rw [cleaned_frees, cleaned_frees]
        rfl
      · exact cleaned_disk_pins s f pool.fileName 0
    · show e' ∈ (s₀.cleaned f pool.fileName).frameManager.frames.erase (⟨pool.fileDesc, 0⟩, f)
      rw [cleaned_frames]
      refine (List.mem_erase_of_ne ?_).mpr he'
      rintro rfl
      exact hne rfl

/-- Closing a file from the side of its pool. -/
theorem Coherent.poolCloseFile (h : Coherent seen s content pins loose)
    (hopen : IsOpen s.manager.pools id pool) (hpins : pins (s.hdrFrame id) = 0)
    (honly : s.HeaderOnly pool.fileDesc) :
    ∃ s', s.poolCloseFile id = some (.success, s') ∧
      ClosesFile seen s content pins loose id pool s' := by
  obtain ⟨s', hpurge, hmanager, hclose⟩ := h.purgeHeader hopen hpins honly
  have hname := (h.registry.names _ id).mpr ⟨pool, hopen, rfl⟩
  refine ⟨_, ?_, hclose (-1)⟩
  unfold Store.poolCloseFile
  rw [openPool_eq_some.mpr hopen]
  simp only [Option.bind_eq_bind, Option.bind_some, hpurge, ne_eq, not_true, if_false, hmanager,
    Manager.poolCloseFile_eq hname hopen]
  rfl

/-- Closing a file by its name. -/
theorem Coherent.closeFile (h : Coherent seen s content pins loose)
    (hopen : IsOpen s.manager.pools id pool) (hpins : pins (s.hdrFrame id) = 0)
    (honly : s.HeaderOnly pool.fileDesc) :
    ∃ s', s.closeFile pool.fileName = some (.success, s') ∧
      ClosesFile seen s content pins loose id pool s' := by
  obtain ⟨s', hpurge, hmanager, hclose⟩ := h.purgeHeader hopen hpins honly
  have hname := (h.registry.names _ id).mpr ⟨pool, hopen, rfl⟩
  refine ⟨_, ?_, hclose pool.fileDesc⟩
  unfold Store.closeFile
  simp only [hname, Option.bind_eq_bind, hpurge, Option.bind_some, ne_eq, not_true, if_false,
    hmanager, Manager.closeFile_eq hname hopen]
  rfl

end Miniob.Storage.DiskBufferPool
