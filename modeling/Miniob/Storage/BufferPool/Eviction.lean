import Miniob.Storage.BufferPool.Calls

/-!
# Frames that can be evicted

`CachedPool` keeps pages in frames over a disk. A frame that nobody has pinned can be dropped at
any time; it is written to disk only if it is marked dirty. `evicting` runs a program with
evictions before every call, as a schedule says.

`tracked` runs a program on the flat pool and keeps books about it: which pages are pinned, which
have been marked dirty since, and which have been changed and not marked (`Marks`). A page whose
last pin goes while it is changed and not marked is a *lost* update.

* `run_evicting`: a run without lost updates, in which every page is pinned while it is changed,
  gives the same answers and the same pages under every schedule of evictions.
* `Marks.Holds`: the pins of a program as a list of handles, each with what has been done through
  it. Handles need not be of distinct pages: a page that is let go through its last handle is
  never lost when each change through a handle is marked through the same handle.
-/

namespace Miniob.Storage.BufferPool

open Miniob.Lib

variable {N : Type}

/-! ## The pool with evictions -/

/-- A frame of the pool. Source: `disk_buffer_pool.h`, `class Frame` -/
structure Frame (N : Type) where
  /-- The data of the page. -/
  data : N
  /-- `dirty_` -/
  dirty : Bool
  /-- `pin_count_` -/
  pinCount : ℕ

/-- The pages of one file, on disk and in frames. The file header lives in a frame that is always
pinned, so its fields are kept apart. -/
structure CachedPool (N : Type) where
  /-- The frames of the pages that are in memory. -/
  frames : Int → Option (Frame N)
  /-- The pages on disk. -/
  disk : Int → N
  /-- The number of pages of the file. -/
  pageCount : ℕ
  /-- The allocation bitmap. -/
  bitmap : ℕ → Bool
  /-- Pages to be disposed of when they are unpinned. -/
  disposedPages : List Int

namespace CachedPool

/-- What a client that fetches the page sees. -/
def content (c : CachedPool N) (p : Int) : N := ((c.frames p).map Frame.data).getD (c.disk p)

/-- The pin count of a page, zero for a page that is in no frame. -/
def pins (c : CachedPool N) (p : Int) : ℕ := ((c.frames p).map Frame.pinCount).getD 0

/-- Write a frame to disk if it is dirty, and drop it. -/
def drop (c : CachedPool N) (p : Int) (f : Frame N) : CachedPool N :=
  { c with
    frames := Function.update c.frames p none
    disk := if f.dirty then Function.update c.disk p f.data else c.disk }

/-- The victim of `allocate_frame`: an unpinned frame goes, written to disk only if it is dirty.
Source: `disk_buffer_pool.cpp`, `DiskBufferPool::allocate_frame` -/
def evict (c : CachedPool N) (p : Int) : CachedPool N :=
  match c.frames p with
  | some f => if f.pinCount = 0 then c.drop p f else c
  | none => c

/-- Change the frame of a page. -/
def modifyFrame (c : CachedPool N) (p : Int) (g : Frame N → Frame N) : CachedPool N :=
  { c with frames := Function.update c.frames p ((c.frames p).map g) }

/-- Source: `disk_buffer_pool.cpp`, `DiskBufferPool::get_this_page` -/
def getThisPage (c : CachedPool N) (p : Int) : CachedPool N :=
  match c.frames p with
  | some f =>
    { c with frames := Function.update c.frames p (some { f with pinCount := f.pinCount + 1 }) }
  | none => { c with frames := Function.update c.frames p (some ⟨c.disk p, false, 1⟩) }

/-- The allocation part of the file header. -/
def header (c : CachedPool N) : FlatPool N := ⟨c.disk, c.pageCount, c.bitmap⟩

/-- Source: `disk_buffer_pool.cpp`, `DiskBufferPool::allocate_page` -/
def allocatePage [Inhabited N] (c : CachedPool N) : CachedPool N :=
  let q := c.header.freePage
  if q < c.pageCount then
    getThisPage { c with bitmap := Function.update c.bitmap q true } q
  else
    -- a cleared frame, written at once to extend the file
    let c := { c with
      disk := Function.update c.disk q default
      pageCount := q + 1
      bitmap := Function.update c.bitmap q true }
    (getThisPage c q).modifyFrame q fun f => { f with data := default }

/-- Source: `disk_buffer_pool.cpp`, `DiskBufferPool::dispose_page`, `purge_page` -/
def disposePage (c : CachedPool N) (p : Int) : RC × CachedPool N :=
  match c.frames p with
  | some f =>
    if f.pinCount > 0 then (.lockedUnlock, { c with disposedPages := p :: c.disposedPages })
    else (.success, { c.drop p f with bitmap := Function.update c.bitmap p.toNat false })
  | none => (.success, { c with bitmap := Function.update c.bitmap p.toNat false })

/-- Source: `disk_buffer_pool.cpp`, `DiskBufferPool::unpin_page` -/
def unpinPage (c : CachedPool N) (p : Int) : CachedPool N :=
  let c := c.modifyFrame p fun f => { f with pinCount := f.pinCount - 1 }
  if ((c.frames p).map Frame.pinCount) = some 0 ∧ p ∈ c.disposedPages then
    { (c.disposePage p).2 with disposedPages := c.disposedPages.erase p }
  else c

/-- Source: `disk_buffer_pool.cpp`, `DiskBufferPool::flush_all_pages` -/
def flushAllPages (c : CachedPool N) : CachedPool N :=
  { c with
    frames := fun p => (c.frames p).map fun f => { f with dirty := false }
    disk := c.content }

/-- The calls on the pool. The data of a page that is in no frame is that of the disk. -/
def step [Inhabited N] : Handler (PoolCall N) (CachedPool N) := fun _ call c =>
  match call with
  | .getThisPage p => (.success, c.getThisPage p)
  | .data p => (c.content p, c)
  | .setData p n => ((), c.modifyFrame p fun f => { f with data := n })
  | .markDirty p => ((), c.modifyFrame p fun f => { f with dirty := true })
  | .unpinPage p => (.success, c.unpinPage p)
  | .allocatePage => ((.success, (c.header.freePage : Int)), c.allocatePage)
  | .disposePage p => c.disposePage p
  | .flushAllPages => (.success, c.flushAllPages)

end CachedPool

/-- The pool with evictions: before the `k`-th call, the pages of `schedule k` are evicted. -/
def evicting [Inhabited N] (schedule : ℕ → List Int) : Handler (PoolCall N) (CachedPool N × ℕ) :=
  fun _ call c =>
    let r := CachedPool.step _ call ((schedule c.2).foldl CachedPool.evict c.1)
    (r.1, r.2, c.2 + 1)

/-! ## Books about a run -/

/-- What a run has done to the pages so far. -/
structure Marks where
  /-- The pinned pages, once for each pin. -/
  pinned : List Int
  /-- The pinned pages that have been marked dirty. -/
  marked : List Int
  /-- The pinned pages that have been changed and not marked dirty. -/
  touched : List Int
  /-- The pages whose last pin went while they were changed and not marked. -/
  lost : List Int
  /-- Pages have only been changed, marked and unpinned while they were pinned, and only been
  disposed of while they were not. -/
  sound : Bool
  deriving DecidableEq, Repr

namespace Marks

/-- Nothing is pinned and nothing was lost. -/
def quiet : Marks := ⟨[], [], [], [], true⟩

/-- No update was lost and no page was used without a pin. -/
def Clean (t : Marks) : Prop := t.lost = [] ∧ t.sound = true

/-- `get_this_page` and `allocate_page` -/
def pin (t : Marks) (p : Int) : Marks := { t with pinned := p :: t.pinned }

/-- Writing a page. -/
def setData (t : Marks) (p : Int) : Marks :=
  { t with
    touched := if p ∈ t.marked then t.touched else p :: t.touched
    sound := t.sound && p ∈ t.pinned }

/-- `mark_dirty` -/
def markDirty (t : Marks) (p : Int) : Marks :=
  { t with
    marked := p :: t.marked
    touched := t.touched.filter (· ≠ p)
    sound := t.sound && p ∈ t.pinned }

/-- `unpin_page` -/
def unpinPage (t : Marks) (p : Int) : Marks :=
  if p ∈ t.pinned.erase p then { t with pinned := t.pinned.erase p }
  else
    { pinned := t.pinned.erase p
      marked := t.marked.filter (· ≠ p)
      touched := t.touched.filter (· ≠ p)
      lost := if p ∈ t.touched then p :: t.lost else t.lost
      sound := t.sound && p ∈ t.pinned }

/-- `dispose_page` -/
def disposePage (t : Marks) (p : Int) : Marks := { t with sound := t.sound && p ∉ t.pinned }

/-- `flush_all_pages` -/
def flushAllPages (t : Marks) : Marks := { t with marked := [], touched := [] }

/-- The books after a call. -/
def step (s : FlatPool N) {β : Type} (call : PoolCall N β) (t : Marks) : Marks :=
  match call with
  | .getThisPage p => t.pin p
  | .data _ => t
  | .setData p _ => t.setData p
  | .markDirty p => t.markDirty p
  | .unpinPage p => t.unpinPage p
  | .allocatePage => t.pin s.freePage
  | .disposePage p => t.disposePage p
  | .flushAllPages => t.flushAllPages

/-- What was lost stays lost. -/
theorem clean_of_step {s : FlatPool N} {β : Type} (call : PoolCall N β) {t : Marks}
    (h : (t.step s call).Clean) : t.Clean := by
  cases call <;> simp only [step, pin, setData, markDirty, disposePage, flushAllPages, Clean,
    Bool.and_eq_true] at h ⊢
  case unpinPage p =>
    unfold unpinPage at h
    split at h
    · exact h
    · simp only [Bool.and_eq_true] at h
      split at h <;> simp_all
  all_goals tauto

end Marks

/-- The flat pool with books. -/
def tracked [Inhabited N] : Handler (PoolCall N) (FlatPool N × Marks) := fun _ call st =>
  let r := flat _ call st.1
  (r.1, r.2, st.2.step st.1 call)

/-- Keeping books changes no answer and no page. -/
theorem run_tracked_flat [Inhabited N] {α : Type} (x : PoolProg N α) (s : FlatPool N) (t : Marks) :
    (Prog.run tracked x (s, t)).map (fun r => (r.1, r.2.1)) = Prog.run flat x s := by
  have hstep : ∀ (δ : Type) (call : PoolCall N δ) (st : FlatPool N × Marks) (s : FlatPool N),
      st.1 = s → (tracked δ call st).1 = (flat δ call s).1 ∧
        (tracked δ call st).2.1 = (flat δ call s).2 := by
    rintro δ call st s rfl
    exact ⟨rfl, rfl⟩
  have hrel := Prog.run_rel (R := fun st s => st.1 = s) hstep x (s := (s, t)) (t := s) rfl
  rcases hrel with ⟨h₁, h₂⟩ | ⟨a, st, s', h₁, h₂, h⟩
  · rw [h₁, h₂]
    rfl
  · rw [h₁, h₂]
    simp only [Option.map_some, h]

/-! ## Runs without lost updates -/

/-- The pool with evictions holds the pages of the flat pool. -/
structure Agrees (s : FlatPool N) (t : Marks) (c : CachedPool N) : Prop where
  /-- The file header is the same. -/
  pageCount : c.pageCount = s.pageCount
  /-- The file header is the same. -/
  bitmap : c.bitmap = s.bitmap
  /-- No page waits to be disposed of. -/
  disposed : c.disposedPages = []
  /-- Every page reads the same. -/
  content : ∀ p, c.content p = s.page p
  /-- The pin counts are those of the books. -/
  pins : ∀ p, c.pins p = t.pinned.count p
  /-- A frame that is not dirty is the page on disk, unless it has been changed and not marked. -/
  synced : ∀ p f, c.frames p = some f → f.dirty = false → p ∉ t.touched → f.data = c.disk p
  /-- A marked page is in a dirty frame. -/
  dirty : ∀ p ∈ t.marked, ∃ f, c.frames p = some f ∧ f.dirty = true
  /-- Only pinned pages are changed and not marked. -/
  touched : ∀ p ∈ t.touched, p ∈ t.pinned
  /-- Only pinned pages count as marked. -/
  marked : ∀ p ∈ t.marked, p ∈ t.pinned

section agrees

variable {s : FlatPool N} {t : Marks} {c : CachedPool N}

/-- The frame of a pinned page. -/
theorem Agrees.frame (h : Agrees s t c) {p : Int} (hp : p ∈ t.pinned) :
    ∃ f, c.frames p = some f ∧ f.data = s.page p ∧ f.pinCount = t.pinned.count p := by
  have hpins := h.pins p
  have hcontent := h.content p
  have hpos := List.count_pos_iff.mpr hp
  unfold CachedPool.pins at hpins
  unfold CachedPool.content at hcontent
  cases hf : c.frames p with
  | none =>
      rw [hf] at hpins
      simp only [Option.map_none, Option.getD_none] at hpins
      omega
  | some f =>
      rw [hf] at hpins hcontent
      exact ⟨f, rfl, hcontent, hpins⟩

/-- Dropping a frame that nobody has pinned loses nothing. -/
theorem Agrees.drop (h : Agrees s t c) {p : Int} {f : Frame N} (hf : c.frames p = some f)
    (hpin : f.pinCount = 0) : Agrees s t (c.drop p f) := by
  have hcount : t.pinned.count p = 0 := by
    rw [← h.pins p, CachedPool.pins, hf]
    exact hpin
  have hnot : p ∉ t.pinned := List.count_eq_zero.mp hcount
  have hdata : f.data = s.page p := by
    rw [← h.content p, CachedPool.content, hf]
    rfl
  have hdisk : (c.drop p f).disk p = s.page p := by
    unfold CachedPool.drop
    cases hd : f.dirty with
    | true => simp [hdata]
    | false =>
        have := h.synced p f hf hd fun ht => hnot (h.touched p ht)
        simp [← this, hdata]
  have hframe : ∀ {q : Int}, q ≠ p → (c.drop p f).frames q = c.frames q := fun hq => by
    simp [CachedPool.drop, Function.update_of_ne hq]
  have hother : ∀ {q : Int}, q ≠ p → (c.drop p f).disk q = c.disk q := fun hq => by
    unfold CachedPool.drop
    simp only
    split
    · exact Function.update_of_ne hq _ _
    · rfl
  have hself : (c.drop p f).frames p = none := Function.update_self _ _ _
  refine ⟨h.pageCount, h.bitmap, h.disposed, ?_, ?_, ?_, ?_, h.touched, h.marked⟩
  · intro q
    by_cases hq : q = p
    · subst hq
      rw [CachedPool.content, hself]
      exact hdisk
    · rw [← h.content q, CachedPool.content, CachedPool.content, hframe hq, hother hq]
  · intro q
    by_cases hq : q = p
    · subst hq
      rw [CachedPool.pins, hself, hcount]
      rfl
    · rw [← h.pins q, CachedPool.pins, CachedPool.pins, hframe hq]
  · intro q g hg hd ht
    by_cases hq : q = p
    · subst hq
      rw [hself] at hg
      cases hg
    · rw [hframe hq] at hg
      rw [hother hq]
      exact h.synced q g hg hd ht
  · intro q hmem
    have hq : q ≠ p := fun hq => hnot (hq ▸ h.marked q hmem)
    rw [hframe hq]
    exact h.dirty q hmem

/-- An eviction loses nothing. -/
theorem Agrees.evict (h : Agrees s t c) (p : Int) : Agrees s t (c.evict p) := by
  unfold CachedPool.evict
  split
  case h_1 f hf =>
    split
    case isTrue hpin => exact h.drop hf hpin
    case isFalse => exact h
  case h_2 => exact h

/-- Several evictions lose nothing. -/
theorem Agrees.evictAll (h : Agrees s t c) (victims : List Int) :
    Agrees s t (victims.foldl CachedPool.evict c) := by
  induction victims generalizing c with
  | nil => exact h
  | cons p victims ih => exact ih (h.evict p)

/-- A call that only concerns the frame of one page. -/
theorem Agrees.frame_changed (h : Agrees s t c) {s' : FlatPool N} {t' : Marks} {c' : CachedPool N}
    {p : Int} {f : Frame N} (hcount : c'.pageCount = s'.pageCount) (hbitmap : c'.bitmap = s'.bitmap)
    (hdisposed : c'.disposedPages = []) (hf : c'.frames p = some f) (hdata : f.data = s'.page p)
    (hpin : f.pinCount = t'.pinned.count p)
    (hsynced : f.dirty = false → p ∉ t'.touched → f.data = c'.disk p)
    (hdirty : p ∈ t'.marked → f.dirty = true)
    (hused : p ∈ t'.touched ∨ p ∈ t'.marked → p ∈ t'.pinned)
    (hpage : ∀ q, q ≠ p → s'.page q = s.page q) (hframes : ∀ q, q ≠ p → c'.frames q = c.frames q)
    (hdisk : ∀ q, q ≠ p → c'.disk q = c.disk q)
    (hpins : ∀ q, q ≠ p → t'.pinned.count q = t.pinned.count q)
    (htouched : ∀ q, q ≠ p → (q ∈ t'.touched ↔ q ∈ t.touched))
    (hmarked : ∀ q, q ≠ p → (q ∈ t'.marked ↔ q ∈ t.marked)) : Agrees s' t' c' := by
  have hpinned : ∀ q, q ≠ p → q ∈ t.pinned → q ∈ t'.pinned := fun q hq hmem => by
    rw [← List.count_pos_iff, hpins q hq]
    exact List.count_pos_iff.mpr hmem
  refine ⟨hcount, hbitmap, hdisposed, ?_, ?_, ?_, ?_, ?_, ?_⟩
  · intro q
    by_cases hq : q = p
    · subst hq
      simpa [CachedPool.content, hf] using hdata
    · rw [hpage q hq, ← h.content q, CachedPool.content, CachedPool.content, hframes q hq,
        hdisk q hq]
  · intro q
    by_cases hq : q = p
    · subst hq
      simpa [CachedPool.pins, hf] using hpin
    · rw [hpins q hq, ← h.pins q, CachedPool.pins, CachedPool.pins, hframes q hq]
  · intro q g hg hd ht
    by_cases hq : q = p
    · subst hq
      rw [hf, Option.some.injEq] at hg
      subst hg
      exact hsynced hd ht
    · rw [hframes q hq] at hg
      rw [hdisk q hq]
      exact h.synced q g hg hd fun hmem => ht ((htouched q hq).mpr hmem)
  · intro q hmem
    by_cases hq : q = p
    · subst hq
      exact ⟨f, hf, hdirty hmem⟩
    · rw [hframes q hq]
      exact h.dirty q ((hmarked q hq).mp hmem)
  · intro q hmem
    by_cases hq : q = p
    · subst hq
      exact hused (Or.inl hmem)
    · exact hpinned q hq (h.touched q ((htouched q hq).mp hmem))
  · intro q hmem
    by_cases hq : q = p
    · subst hq
      exact hused (Or.inr hmem)
    · exact hpinned q hq (h.marked q ((hmarked q hq).mp hmem))

theorem Agrees.getThisPage (h : Agrees s t c) (p : Int) :
    Agrees s (t.pin p) (c.getThisPage p) := by
  have hpins := h.pins p
  have hcontent := h.content p
  cases hf : c.frames p with
  | some f =>
      rw [CachedPool.pins, hf] at hpins
      rw [CachedPool.content, hf] at hcontent
      have hc : c.getThisPage p = { c with
          frames := Function.update c.frames p (some { f with pinCount := f.pinCount + 1 }) } := by
        simp only [CachedPool.getThisPage, hf]
      rw [hc]
      refine h.frame_changed h.pageCount h.bitmap h.disposed (Function.update_self ..) hcontent
        ?_ (h.synced p f hf) ?_ ?_ ?_ ?_ ?_ ?_ ?_ ?_
      · simpa [Marks.pin] using hpins
      · intro hmem
        obtain ⟨g, hg, hd⟩ := h.dirty p hmem
        rw [hf, Option.some.injEq] at hg
        exact hg ▸ hd
      all_goals simp +contextual [Marks.pin, eq_comm]
  | none =>
      rw [CachedPool.pins, hf] at hpins
      rw [CachedPool.content, hf] at hcontent
      have hc : c.getThisPage p = { c with
          frames := Function.update c.frames p (some ⟨c.disk p, false, 1⟩) } := by
        simp only [CachedPool.getThisPage, hf]
      rw [hc]
      refine h.frame_changed h.pageCount h.bitmap h.disposed (Function.update_self ..) hcontent
        ?_ (fun _ _ => rfl) ?_ ?_ ?_ ?_ ?_ ?_ ?_ ?_
      · simpa [Marks.pin, eq_comm] using hpins
      · intro hmem
        obtain ⟨g, hg, -⟩ := h.dirty p hmem
        rw [hf] at hg
        cases hg
      all_goals simp +contextual [Marks.pin, eq_comm]

/-- The dirty flag of a marked page. -/
theorem Agrees.dirty_of_marked (h : Agrees s t c) {p : Int} {f : Frame N}
    (hf : c.frames p = some f) (hmem : p ∈ t.marked) : f.dirty = true := by
  obtain ⟨g, hg, hd⟩ := h.dirty p hmem
  rw [hf, Option.some.injEq] at hg
  exact hg ▸ hd

theorem Agrees.setData (h : Agrees s t c) {p : Int} (hp : p ∈ t.pinned) (n : N) :
    Agrees (s.set p n) (t.setData p) (c.modifyFrame p fun f => { f with data := n }) := by
  obtain ⟨f, hf, -, hpin⟩ := h.frame hp
  have hframe : (c.modifyFrame p fun f => { f with data := n }).frames p =
      some { f with data := n } := by
    simp [CachedPool.modifyFrame, hf]
  refine h.frame_changed h.pageCount h.bitmap h.disposed hframe ?_ hpin ?_
    (fun hmem => h.dirty_of_marked (f := f) hf hmem) (fun _ => hp) ?_ ?_ (fun _ _ => rfl)
    (fun _ _ => rfl) ?_ (fun _ _ => Iff.rfl)
  · simp
  · intro hd ht
    -- a page that is not marked counts as changed from here on
    have hmem : p ∈ t.marked := by
      by_contra hmem
      simp [Marks.setData, hmem] at ht
    have hdirty := h.dirty_of_marked hf hmem
    simp [hdirty] at hd
  · simp +contextual
  · simp +contextual [CachedPool.modifyFrame]
  · intro q hq
    unfold Marks.setData
    simp only
    split <;> simp [hq]

theorem Agrees.markDirty (h : Agrees s t c) {p : Int} (hp : p ∈ t.pinned) :
    Agrees s (t.markDirty p) (c.modifyFrame p fun f => { f with dirty := true }) := by
  obtain ⟨f, hf, hdata, hpin⟩ := h.frame hp
  have hframe : (c.modifyFrame p fun f => { f with dirty := true }).frames p =
      some { f with dirty := true } := by
    simp [CachedPool.modifyFrame, hf]
  refine h.frame_changed h.pageCount h.bitmap h.disposed hframe hdata hpin (by simp) (by simp)
    (fun _ => hp) (fun _ _ => rfl) ?_ (fun _ _ => rfl) (fun _ _ => rfl) ?_ ?_
  · simp +contextual [CachedPool.modifyFrame]
  · simp +contextual [Marks.markDirty]
  · simp +contextual [Marks.markDirty]

theorem Agrees.unpinPage (h : Agrees s t c) {p : Int} (ht : (t.unpinPage p).Clean)
    (hp : p ∈ t.pinned) : Agrees s (t.unpinPage p) (c.unpinPage p) := by
  obtain ⟨f, hf, hdata, hpin⟩ := h.frame hp
  have hframe : (c.modifyFrame p fun f => { f with pinCount := f.pinCount - 1 }).frames p =
      some { f with pinCount := f.pinCount - 1 } := by
    simp [CachedPool.modifyFrame, hf]
  have hunpin : c.unpinPage p = c.modifyFrame p fun f => { f with pinCount := f.pinCount - 1 } := by
    unfold CachedPool.unpinPage
    rw [if_neg]
    rintro ⟨-, hmem⟩
    simp [CachedPool.modifyFrame, h.disposed] at hmem
  have hothers : ∀ q, q ≠ p →
      (c.modifyFrame p fun f => { f with pinCount := f.pinCount - 1 }).frames q = c.frames q := by
    simp +contextual [CachedPool.modifyFrame]
  have hcount : ∀ q, q ≠ p → (t.pinned.erase p).count q = t.pinned.count q :=
    fun q hq => List.count_erase_of_ne hq
  rw [hunpin]
  unfold Marks.unpinPage at ht ⊢
  split at ht
  case isTrue hmem =>
    rw [if_pos hmem]
    exact h.frame_changed h.pageCount h.bitmap h.disposed hframe hdata (by simp [hpin])
      (h.synced p f hf) (fun hm => h.dirty_of_marked (f := f) hf hm) (fun _ => hmem)
      (fun _ _ => rfl)
      hothers (fun _ _ => rfl) hcount (fun _ _ => Iff.rfl) (fun _ _ => Iff.rfl)
  case isFalse hmem =>
    rw [if_neg hmem]
    have htouched : p ∉ t.touched := by
      intro hmem
      have := ht.1
      simp [hmem] at this
    exact h.frame_changed h.pageCount h.bitmap h.disposed hframe hdata (by simp [hpin])
      (fun hd _ => h.synced p f hf hd htouched) (by simp) (by simp) (fun _ _ => rfl) hothers
      (fun _ _ => rfl) hcount (by simp +contextual) (by simp +contextual)

/-- The search for a free page reads the file header only. -/
theorem Agrees.freePage (h : Agrees s t c) : c.header.freePage = s.freePage := by
  unfold FlatPool.freePage CachedPool.header
  rw [h.pageCount, h.bitmap]

/-- Taking a free page below the end of the file. -/
theorem Agrees.reusePage [Inhabited N] (h : Agrees s t c) (hlt : s.freePage < s.pageCount) :
    Agrees s.allocate (t.pin s.freePage)
      (({ c with bitmap := Function.update c.bitmap s.freePage true } : CachedPool N).getThisPage
        s.freePage) := by
  have hmarks : Agrees { s with bitmap := Function.update s.bitmap s.freePage true } t
      { c with bitmap := Function.update c.bitmap s.freePage true } :=
    ⟨h.pageCount, by simp only [h.bitmap], h.disposed, h.content, h.pins, h.synced, h.dirty,
      h.touched, h.marked⟩
  have hs : s.allocate = { s with bitmap := Function.update s.bitmap s.freePage true } := by
    unfold FlatPool.allocate
    rw [if_pos hlt, max_eq_left (by omega)]
  rw [hs]
  exact hmarks.getThisPage s.freePage

/-- Extending the file. -/
theorem Agrees.extendFile [Inhabited N] (h : Agrees s t c) (hge : ¬ s.freePage < s.pageCount)
    {f : Frame N} (hpin : f.pinCount = (t.pin s.freePage).pinned.count (s.freePage : Int))
    (hdirty : (s.freePage : Int) ∈ t.marked → f.dirty = true) (hdata : f.data = default) :
    Agrees s.allocate (t.pin s.freePage)
      { c with
        frames := Function.update c.frames s.freePage (some f)
        disk := Function.update c.disk s.freePage default
        pageCount := s.freePage + 1
        bitmap := Function.update c.bitmap s.freePage true } := by
  have hpage : s.allocate.page = Function.update s.page s.freePage default := if_neg hge
  have hcount : s.freePage + 1 = s.allocate.pageCount := (max_eq_right (by omega)).symm
  have hbitmap : Function.update c.bitmap s.freePage true = s.allocate.bitmap := by
    rw [h.bitmap]
    rfl
  refine h.frame_changed hcount hbitmap h.disposed (Function.update_self ..) ?_ hpin ?_ hdirty
    ?_ ?_ ?_ ?_ ?_ (fun _ _ => Iff.rfl) (fun _ _ => Iff.rfl)
  · rw [hpage, Function.update_self, hdata]
  · simp [hdata]
  · simp [Marks.pin]
  · intro q hq
    rw [hpage, Function.update_of_ne hq]
  · exact fun q hq => Function.update_of_ne hq _ _
  · exact fun q hq => Function.update_of_ne hq _ _
  · exact fun q hq => List.count_cons_of_ne (Ne.symm hq)

theorem Agrees.allocatePage [Inhabited N] (h : Agrees s t c) :
    Agrees s.allocate (t.pin s.freePage) c.allocatePage := by
  have hpins := h.pins s.freePage
  unfold CachedPool.pins at hpins
  unfold CachedPool.allocatePage
  simp only [h.freePage]
  split
  case isTrue hlt => exact h.reusePage (h.pageCount ▸ hlt)
  case isFalse hge =>
    rw [h.pageCount] at hge
    cases hf : c.frames s.freePage with
    | some f =>
        rw [hf] at hpins
        have hpin : f.pinCount + 1 = (t.pin s.freePage).pinned.count (s.freePage : Int) := by
          simpa [Marks.pin] using hpins
        have hext := h.extendFile hge (f := ⟨default, f.dirty, f.pinCount + 1⟩) hpin
          (fun hmem => h.dirty_of_marked (f := f) hf hmem) rfl
        simpa [CachedPool.getThisPage, CachedPool.modifyFrame, hf] using hext
    | none =>
        rw [hf] at hpins
        have hpin : 1 = (t.pin s.freePage).pinned.count (s.freePage : Int) := by
          simpa [Marks.pin, eq_comm] using hpins
        have hmarked : (s.freePage : Int) ∉ t.marked := by
          intro hmem
          obtain ⟨g, hg, -⟩ := h.dirty _ hmem
          rw [hf] at hg
          cases hg
        have hext := h.extendFile hge (f := ⟨default, false, 1⟩) hpin
          (fun hmem => absurd hmem hmarked) rfl
        simpa [CachedPool.getThisPage, CachedPool.modifyFrame, hf] using hext

theorem Agrees.disposePage (h : Agrees s t c) {p : Int} (hp : p ∉ t.pinned) :
    (c.disposePage p).1 = .success ∧
      Agrees (s.dispose p) (t.disposePage p) (c.disposePage p).2 := by
  have hbit : ∀ {c : CachedPool N}, Agrees s t c →
      Agrees (s.dispose p) (t.disposePage p)
        { c with bitmap := Function.update c.bitmap p.toNat false } :=
    fun h => ⟨h.pageCount, by simp only [h.bitmap, FlatPool.dispose], h.disposed, h.content, h.pins,
      h.synced, h.dirty, h.touched, h.marked⟩
  have hpins := h.pins p
  rw [List.count_eq_zero.mpr hp, CachedPool.pins] at hpins
  unfold CachedPool.disposePage
  cases hf : c.frames p with
  | some f =>
      rw [hf] at hpins
      have hzero : f.pinCount = 0 := hpins
      simp only [hzero, lt_irrefl, if_false]
      exact ⟨trivial, hbit (h.drop hf hzero)⟩
  | none => exact ⟨rfl, hbit h⟩

theorem Agrees.flushAllPages (h : Agrees s t c) :
    Agrees s t.flushAllPages c.flushAllPages := by
  have hframes : ∀ p, c.flushAllPages.frames p =
      (c.frames p).map fun f => { f with dirty := false } := fun _ => rfl
  refine ⟨h.pageCount, h.bitmap, h.disposed, ?_, ?_, ?_, by simp [Marks.flushAllPages],
    by simp [Marks.flushAllPages], by simp [Marks.flushAllPages]⟩
  · intro p
    rw [← h.content p]
    unfold CachedPool.content
    rw [hframes]
    cases hf : c.frames p <;> simp [CachedPool.flushAllPages, CachedPool.content, hf]
  · intro p
    rw [Marks.flushAllPages, ← h.pins p, CachedPool.pins, CachedPool.pins, hframes]
    cases c.frames p <;> rfl
  · intro p f hf hd ht
    rw [hframes] at hf
    cases hc : c.frames p with
    | none => simp [hc] at hf
    | some g =>
        simp only [hc, Option.map_some, Option.some.injEq] at hf
        simp [CachedPool.flushAllPages, CachedPool.content, hc, ← hf]

variable [Inhabited N]

/-- A call that loses nothing answers alike. -/
theorem Agrees.step (h : Agrees s t c) {β : Type} (call : PoolCall N β)
    (ht : (t.step s call).Clean) :
    (CachedPool.step _ call c).1 = (flat _ call s).1 ∧
      Agrees (flat _ call s).2 (t.step s call) (CachedPool.step _ call c).2 := by
  cases call with
  | getThisPage p => exact ⟨rfl, h.getThisPage p⟩
  | data p => exact ⟨h.content p, h⟩
  | setData p n =>
      have hp : p ∈ t.pinned := by
        have := ht.2
        simp [Marks.step, Marks.setData] at this
        exact this.2
      exact ⟨rfl, h.setData hp n⟩
  | markDirty p =>
      have hp : p ∈ t.pinned := by
        have := ht.2
        simp [Marks.step, Marks.markDirty] at this
        exact this.2
      exact ⟨rfl, h.markDirty hp⟩
  | unpinPage p =>
      have hp : p ∈ t.pinned := by
        have := ht.2
        simp only [Marks.step, Marks.unpinPage] at this
        split at this
        case isTrue hmem => exact List.mem_of_mem_erase hmem
        case isFalse =>
          simp only [Bool.and_eq_true, decide_eq_true_eq] at this
          exact this.2
      exact ⟨rfl, h.unpinPage ht hp⟩
  | allocatePage => exact ⟨by simp [CachedPool.step, flat, h.freePage], h.allocatePage⟩
  | disposePage p =>
      have hp : p ∉ t.pinned := by
        have := ht.2
        simp [Marks.step, Marks.disposePage] at this
        exact this.2
      exact h.disposePage hp
  | flushAllPages => exact ⟨rfl, h.flushAllPages⟩

end agrees

/-- A new file of which no page is in memory. -/
def CachedPool.created [Inhabited N] : CachedPool N :=
  ⟨fun _ => none, fun _ => default, 1, fun i => i = 0, []⟩

theorem agrees_created [Inhabited N] :
    Agrees (FlatPool.created : FlatPool N) Marks.quiet CachedPool.created where
  pageCount := rfl
  bitmap := rfl
  disposed := rfl
  content _ := rfl
  pins _ := rfl
  synced _ _ h := nomatch h
  dirty _ h := nomatch h
  touched _ h := nomatch h
  marked _ h := nomatch h

/-- What was lost in a run stays lost. -/
theorem clean_of_run_tracked [Inhabited N] {α : Type} (x : PoolProg N α) {s s' : FlatPool N}
    {t t' : Marks} {a : α} (h : Prog.run tracked x (s, t) = some (a, s', t')) (ht : t'.Clean) :
    t.Clean := by
  induction x generalizing s t with
  | ret b =>
      simp only [Prog.run, Option.some.injEq, Prod.mk.injEq] at h
      rw [h.2.2]
      exact ht
  | call c k ih => exact Marks.clean_of_step c (ih _ h)
  | stop => cases h

/-- **Evictions are invisible to a run without lost updates.** -/
theorem run_evicting [Inhabited N] {α : Type} (schedule : ℕ → List Int) (x : PoolProg N α)
    {s s' : FlatPool N} {t t' : Marks} {c : CachedPool N} {a : α} (k : ℕ)
    (h : Prog.run tracked x (s, t) = some (a, s', t')) (ht : t'.Clean) (hagree : Agrees s t c) :
    ∃ c' k', Prog.run (evicting schedule) x (c, k) = some (a, c', k') ∧ Agrees s' t' c' := by
  induction x generalizing s t c k with
  | ret b =>
      simp only [Prog.run, Option.some.injEq, Prod.mk.injEq] at h
      obtain ⟨rfl, rfl, rfl⟩ := h
      exact ⟨c, k, rfl, hagree⟩
  | call call next ih =>
      have hclean : (t.step s call).Clean := clean_of_run_tracked (next (flat _ call s).1) h ht
      obtain ⟨heq, hnext⟩ := (hagree.evictAll (schedule k)).step call hclean
      simp only [Prog.run, evicting]
      rw [heq]
      exact ih _ _ h hnext
  | stop => cases h

/-! ## Handles -/

/-- What has been done through a pinned frame. -/
inductive HandleState
  /-- Nothing. -/
  | clean
  /-- It has been changed and not marked dirty since. -/
  | touched
  /-- It has been marked dirty, and the flag stays while the frame is pinned. -/
  | marked
  deriving DecidableEq, Repr

/-- A change through a handle. -/
def HandleState.touch : HandleState → HandleState
  | .clean => .touched
  | .touched => .touched
  | .marked => .marked

/-- The pins of a program. -/
abbrev Handles := List (Int × HandleState)

/-- The books are those of a program with these pins. -/
structure Marks.Holds (t : Marks) (L : Handles) : Prop where
  /-- One pin for each handle. -/
  pinned : t.pinned.Perm (L.map Prod.fst)
  /-- What is changed and not marked was changed through a handle that has not been marked. -/
  touched : ∀ p ∈ t.touched, (p, HandleState.touched) ∈ L
  /-- What has been marked through a handle is marked. -/
  marked : ∀ p, (p, HandleState.marked) ∈ L → p ∈ t.marked
  /-- Nothing was lost so far. -/
  clean : t.Clean

theorem Marks.holds_quiet : Marks.quiet.Holds [] :=
  ⟨List.Perm.nil, by simp [Marks.quiet], by simp, rfl, rfl⟩

section handles

variable {t : Marks} {L : Handles} {p : Int} {st : HandleState} {i : ℕ}

/-- The page of a handle is pinned. -/
theorem Marks.Holds.mem_pinned (h : t.Holds L) (hi : L[i]? = some (p, st)) : p ∈ t.pinned := by
  rw [h.pinned.mem_iff]
  exact List.mem_map_of_mem (List.mem_of_getElem? hi)

/-- The order of the handles does not matter. -/
theorem Marks.Holds.perm (h : t.Holds L) {L' : Handles} (hperm : L.Perm L') : t.Holds L' where
  pinned := h.pinned.trans (hperm.map Prod.fst)
  touched q hq := hperm.mem_iff.mp (h.touched q hq)
  marked q hq := h.marked q (hperm.mem_iff.mpr hq)
  clean := h.clean

/-- Changing what a handle stands for keeps the other handles. -/
theorem mem_set_of_mem {e e' x : Int × HandleState} (hi : L[i]? = some e) (hx : x ∈ L) :
    x ∈ L.set i e' ∨ x = e := by
  obtain ⟨j, hj⟩ := List.getElem?_of_mem hx
  by_cases hij : i = j
  · subst hij
    rw [hi, Option.some.injEq] at hj
    exact Or.inr hj.symm
  · refine Or.inl (List.mem_of_getElem? (i := j) ?_)
    rw [List.getElem?_set_ne hij]
    exact hj

theorem mem_set_self {e e' : Int × HandleState} (hi : L[i]? = some e) : e' ∈ L.set i e' := by
  obtain ⟨hlt, -⟩ := List.getElem?_eq_some_iff.mp hi
  exact List.mem_set hlt e'

theorem map_fst_set {st' : HandleState} (hi : L[i]? = some (p, st)) :
    (L.set i (p, st')).map Prod.fst = L.map Prod.fst := by
  apply List.ext_getElem?
  intro j
  by_cases hij : i = j
  · subst hij
    obtain ⟨hlt, he⟩ := List.getElem?_eq_some_iff.mp hi
    simp [hlt, he]
  · simp [List.getElem?_set_ne hij]

theorem Marks.Holds.pin (h : t.Holds L) (p : Int) : (t.pin p).Holds ((p, .clean) :: L) where
  pinned := h.pinned.cons p
  touched q hq := List.mem_cons_of_mem _ (h.touched q hq)
  marked q hq := h.marked q (by simpa using hq)
  clean := h.clean

theorem Marks.Holds.setData (h : t.Holds L) (hi : L[i]? = some (p, st)) :
    (t.setData p).Holds (L.set i (p, st.touch)) := by
  have hpin := h.mem_pinned hi
  refine ⟨?_, ?_, ?_, ?_⟩
  · rw [map_fst_set hi]
    exact h.pinned
  · intro q hq
    unfold Marks.setData at hq
    simp only at hq
    cases st with
    | marked =>
        rw [if_pos (h.marked p (List.mem_of_getElem? hi))] at hq
        exact (mem_set_of_mem hi (h.touched q hq)).resolve_right (by simp)
    | clean =>
        split at hq
        · exact (mem_set_of_mem hi (h.touched q hq)).resolve_right (by simp)
        · rcases List.mem_cons.mp hq with rfl | hq
          · exact mem_set_self hi
          · exact (mem_set_of_mem hi (h.touched q hq)).resolve_right (by simp)
    | touched =>
        have hself : ∀ {q : Int}, (q, HandleState.touched) = (p, HandleState.touched) →
            (q, HandleState.touched) ∈ L.set i (p, HandleState.touched) := fun heq => by
          rw [heq]
          exact mem_set_self hi
        split at hq
        · exact (mem_set_of_mem hi (h.touched q hq)).elim id hself
        · rcases List.mem_cons.mp hq with rfl | hq
          · exact hself rfl
          · exact (mem_set_of_mem hi (h.touched q hq)).elim id hself
  · intro q hq
    rcases List.mem_or_eq_of_mem_set hq with hq | hq
    · exact h.marked q hq
    · cases st with
      | marked =>
          simp only [HandleState.touch, Prod.mk.injEq] at hq
          rw [hq.1]
          exact h.marked p (List.mem_of_getElem? hi)
      | clean => simp [HandleState.touch] at hq
      | touched => simp [HandleState.touch] at hq
  · exact ⟨h.clean.1, by simp [Marks.setData, h.clean.2, hpin]⟩

theorem Marks.Holds.markDirty (h : t.Holds L) (hi : L[i]? = some (p, st)) :
    (t.markDirty p).Holds (L.set i (p, .marked)) := by
  have hpin := h.mem_pinned hi
  refine ⟨?_, ?_, ?_, ?_⟩
  · rw [map_fst_set hi]
    exact h.pinned
  · intro q hq
    simp only [Marks.markDirty, List.mem_filter, decide_eq_true_eq] at hq
    refine (mem_set_of_mem hi (h.touched q hq.1)).resolve_right fun heq => hq.2 ?_
    exact (Prod.mk.injEq .. ▸ heq).1
  · intro q hq
    rcases List.mem_or_eq_of_mem_set hq with hq | hq
    · exact List.mem_cons_of_mem _ (h.marked q hq)
    · simp only [Prod.mk.injEq] at hq
      rw [hq.1]
      exact List.mem_cons_self
  · exact ⟨h.clean.1, by simp [Marks.markDirty, h.clean.2, hpin]⟩

/-- A handle that has not been changed, or has been marked, can be let go. -/
theorem Marks.Holds.unpinPage (h : t.Holds L) (hi : L[i]? = some (p, st)) (hst : st ≠ .touched) :
    (t.unpinPage p).Holds (L.eraseIdx i) := by
  obtain ⟨hlt, he⟩ := List.getElem?_eq_some_iff.mp hi
  have hpin := h.mem_pinned hi
  have hperm : L.Perm ((p, st) :: L.eraseIdx i) := 
    he ▸ (List.perm_cons_erase (List.getElem_mem hlt)).trans ((List.erase_getElem hlt).cons _)
  have hpinned : (t.pinned.erase p).Perm ((L.eraseIdx i).map Prod.fst) := by
    have := (h.pinned.trans (hperm.map Prod.fst)).erase p
    simpa using this
  have htouched : ∀ q ∈ t.touched, (q, HandleState.touched) ∈ L.eraseIdx i := by
    intro q hq
    rcases List.mem_cons.mp (hperm.mem_iff.mp (h.touched q hq)) with heq | hmem
    · simp only [Prod.mk.injEq] at heq
      exact absurd heq.2.symm hst
    · exact hmem
  have hmarked : ∀ q, (q, HandleState.marked) ∈ L.eraseIdx i → q ∈ t.marked :=
    fun q hq => h.marked q (List.mem_of_mem_eraseIdx hq)
  have hmem : ∀ {q : Int} {st' : HandleState}, (q, st') ∈ L.eraseIdx i → q ∈ t.pinned.erase p :=
    fun hq => by
      rw [hpinned.mem_iff]
      exact List.mem_map_of_mem hq
  unfold Marks.unpinPage
  split
  case isTrue hp => exact ⟨hpinned, htouched, hmarked, h.clean⟩
  case isFalse hp =>
    refine ⟨hpinned, ?_, ?_, ?_⟩
    · exact fun q hq => htouched q (List.mem_of_mem_filter hq)
    · intro q hq
      refine List.mem_filter.mpr ⟨hmarked q hq, ?_⟩
      simp only [ne_eq, decide_not, Bool.not_eq_true', decide_eq_false_iff_not]
      exact fun heq => hp (heq ▸ hmem hq)
    · refine ⟨?_, by simp [h.clean.2, hpin]⟩
      rw [if_neg fun ht => hp (hmem (htouched p ht))]
      exact h.clean.1

theorem Marks.Holds.disposePage (h : t.Holds L) (hp : p ∉ L.map Prod.fst) :
    (t.disposePage p).Holds L where
  pinned := h.pinned
  touched := h.touched
  marked := h.marked
  clean := ⟨h.clean.1, by simp [Marks.disposePage, h.clean.2, h.pinned.mem_iff, hp]⟩

theorem Marks.Holds.flushAllPages (h : t.Holds []) : t.flushAllPages.Holds [] where
  pinned := h.pinned
  touched := by simp [Marks.flushAllPages]
  marked := by simp
  clean := h.clean

end handles

end Miniob.Storage.BufferPool
