import Miniob.Storage.Record.RecordPointers

/-!
# When records stay valid

A record is valid as long as somebody holds its page. The scanner leaves a page only for another
one, and the pins of the others stay as they are when it does.

* `PooledScanner.Pins`: the scanner has its page pinned, and what the others have pinned.
* `PooledScanner.Pins.fetchNextRecord`: fetching a record keeps the pins of the others, and all pins
  if the scanner does not leave its page.
* `records_stay_valid`: the records stay valid in every run that keeps the pins.
* `records_go_stale`: without another pin they do not.
-/

namespace Miniob.Storage.Record

open Miniob.Common Miniob.Storage.BufferPool Miniob.Storage.DiskBufferPool

variable {F R : Type} [DecidableEq F] [Inhabited R]

/-! ## The pools -/

/-- The pools simulate an array of pages. -/
def Sound (σ : Session F (RecordPage R)) : Prop := ∃ seen r, Simulates seen σ r

section Sound

variable {σ σ' : Session F (RecordPage R)} {op : PoolOp F (RecordPage R)} {a : PoolAnswer}
  {h h' : Handle} {pool page slot : ℕ} {record : PageRecord}

theorem Sound.step (hs : Sound σ) (hstep : op.step σ = some (a, σ')) (hop : ¬ op.Closes) :
    Sound σ' := by
  obtain ⟨seen, r, hs⟩ := hs
  have hok := hs.step (allowed_of_step hstep) (leavesNothing_of_not_closes hop)
  exact ⟨_, _, (hok.of_eq_some hstep).simulates⟩

omit [DecidableEq F] [Inhabited R] in
/-- A page that is held has one frame. -/
theorem Sound.handle_unique (hs : Sound σ) (hmem : h ∈ σ.held) (hmem' : h' ∈ σ.held)
    (hpool : h'.pool = h.pool) (hpage : h'.page = h.page) : h' = h := by
  obtain ⟨seen, r, hs⟩ := hs
  obtain ⟨p, hopen, he⟩ := hs.handles h hmem
  have hframe := (hs.handle_iff he hopen rfl hmem').mpr ⟨hpool, hpage⟩
  obtain ⟨_, _, _⟩ := h
  obtain ⟨_, _, _⟩ := h'
  simp only at hpool hpage hframe
  rw [hpool, hpage, hframe]

omit [DecidableEq F] [Inhabited R] in
/-- The frame of a page that is held. -/
theorem Sound.pageNum_eq (hs : Sound σ) (hmem : h ∈ σ.held) :
    (σ.store.frame h.frame).page.pageNum = h.page := by
  obtain ⟨seen, r, hs⟩ := hs
  obtain ⟨p, hopen, he⟩ := hs.handles h hmem
  exact (hs.coherent.labels _ he).2

omit [DecidableEq F] [Inhabited R] in
/-- A record on a page that is held is valid. -/
theorem Sound.isValid (hs : Sound σ) (hmem : record.handle ∈ σ.held)
    (hrid : record.rid.pageNum = record.handle.page) : record.IsValid σ := by
  have hpage := hs.pageNum_eq hmem
  obtain ⟨seen, r, hs⟩ := hs
  obtain ⟨p, hopen, he⟩ := hs.handles record.handle hmem
  exact ⟨p, record.handle.page, hopen, hrid, he, hpage, hs.pinCount_pos hmem he rfl⟩

/-- `unpin_page` takes one pin. -/
theorem held_unpinPage (hstep : (PoolOp.unpinPage h).step σ = some (a, σ')) :
    h ∈ σ.held ∧ σ'.held = σ.held.erase h := by
  have hallowed := allowed_of_step hstep
  unfold PoolOp.step at hstep
  rw [if_pos hallowed] at hstep
  obtain ⟨r, -, heq⟩ := Option.map_eq_some_iff.mp hstep
  cases heq
  exact ⟨hallowed.1, rfl⟩

/-- `get_this_page` adds one, unless it fails. -/
theorem held_getThisPage (hstep : (PoolOp.getThisPage pool page).step σ = some (a, σ')) :
    (a.handle = none ∧ σ'.held = σ.held) ∨
      ∃ f, a.handle = some ⟨pool, page, f⟩ ∧ σ'.held = ⟨pool, page, f⟩ :: σ.held := by
  have hallowed := allowed_of_step hstep
  unfold PoolOp.step at hstep
  rw [if_pos hallowed] at hstep
  obtain ⟨⟨rc | f, s⟩, -, heq⟩ := Option.map_eq_some_iff.mp hstep
  · cases heq
    exact Or.inl ⟨rfl, rfl⟩
  · cases heq
    exact Or.inr ⟨f, rfl, rfl⟩

/-- The other calls take none. -/
theorem held_of_ne (hstep : op.step σ = some (a, σ')) (hne : ∀ h, op ≠ .unpinPage h) :
    ∀ h ∈ σ.held, h ∈ σ'.held := by
  have hand : ∀ {got : Except RC Handle} {s : Store F (RecordPage R)},
      σ.handOut got s = (a, σ') → ∀ h ∈ σ.held, h ∈ σ'.held := by
    intro got s heq h hmem
    cases got with
    | error rc =>
      cases heq
      exact hmem
    | ok h' =>
      cases heq
      exact List.mem_cons_of_mem _ hmem
  have hanswer : ∀ {x : Option (RC × Store F (RecordPage R))},
      x.map σ.answer = some (a, σ') → ∀ h ∈ σ.held, h ∈ σ'.held := by
    intro x heq h hmem
    obtain ⟨r, -, heq⟩ := Option.map_eq_some_iff.mp heq
    cases heq
    exact hmem
  have hallowed := allowed_of_step hstep
  unfold PoolOp.step at hstep
  rw [if_pos hallowed] at hstep
  cases op with
  | getThisPage pool page =>
    obtain ⟨r, -, heq⟩ := Option.map_eq_some_iff.mp hstep
    exact hand heq
  | allocatePage pool =>
    obtain ⟨r, -, heq⟩ := Option.map_eq_some_iff.mp hstep
    exact hand heq
  | write h d | markDirty h =>
    cases hstep
    exact fun h hmem => hmem
  | unpinPage h => exact absurd rfl (hne h)
  | openFile name | disposePage pool page | purgePage pool page | flushAllPages pool
  | poolCloseFile pool | closeFile name => exact hanswer hstep

omit [DecidableEq F] [Inhabited R] in
/-- What the array says that a page holds is in its frame or in its file. -/
theorem pageOf_eq {seen : F → ℕ → PageData (RecordPage R) → Prop} {r : PageArray F (RecordPage R)}
    (hs : Simulates seen σ r) {p : PoolObject F} (hopen : IsOpen σ.store.manager.pools pool p) :
    pageOf σ pool page = (r.content p.fileName page).bind PageData.bytes? := by
  unfold pageOf
  rw [openPool_eq_some.mpr hopen]
  simp only [Option.bind_eq_bind, Option.bind_some]
  cases hfind : σ.store.frameManager.find ⟨p.fileDesc, page⟩ with
  | some e =>
    obtain ⟨he, hkey⟩ := FrameManager.find_eq_some hfind
    have hcached := (hs.coherent.cached_of_open he hopen (by rw [hkey])).1
    rw [hkey] at hcached
    rw [hcached]
    rfl
  | none =>
    have huncached : σ.store.Uncached p.fileName page := by
      intro e he id p' hopen' hname
      obtain ⟨-, rfl⟩ := hs.coherent.registry.eq_of_name hopen hopen' hname
      exact FrameManager.find_eq_none hfind e he
    rw [hs.coherent.stored _ _ huncached]
    cases (σ.store.disk p.fileName)[page]? with
    | none => rfl
    | some pg => rfl

/-- `get_this_page` hands out what the page holds. -/
theorem Sound.recordPage_eq (hs : Sound σ)
    (hstep : (PoolOp.getThisPage pool page).step σ = some (a, σ')) (hh : a.handle = some h) :
    recordPage σ' h = pageOf σ pool page := by
  obtain ⟨seen, r, hs⟩ := hs
  have hop : ¬ (PoolOp.getThisPage pool page : PoolOp F (RecordPage R)).Closes := not_false
  have hok := (hs.step (allowed_of_step hstep) (leavesNothing_of_not_closes hop)).of_eq_some hstep
  have hallowed : (σ.store.openPool pool).isSome := allowed_of_step hstep
  obtain ⟨p, hpool⟩ := Option.isSome_iff_exists.mp hallowed
  obtain ⟨hmem, rfl, rfl⟩ := hok.returned h hh
  obtain ⟨p', hopen', -, hcontent⟩ := hok.simulates.frame_eq hmem
  have hhold : r.step (.getThisPage h.pool h.page) a = { r with held := h :: r.held } := by
    show r.hold a = _
    unfold PageArray.hold
    rw [hh]
  have hname : some p'.fileName = some p.fileName := by
    rw [← hok.simulates.files_eq hopen', ← hs.files_eq (openPool_eq_some.mp hpool), hhold]
  rw [hhold, Option.some.inj hname] at hcontent
  rw [pageOf_eq hs (openPool_eq_some.mp hpool), hcontent]
  rfl

/-- Without a frame for the page `get_this_page` fails. -/
theorem handle_of_noFrame (hno : NoFrame σ pool page)
    (hstep : (PoolOp.getThisPage pool page).step σ = some (a, σ')) : a.handle = none := by
  have hallowed : (σ.store.openPool pool).isSome := allowed_of_step hstep
  obtain ⟨p, hpool⟩ := Option.isSome_iff_exists.mp hallowed
  obtain ⟨hfresh, hfrees, hpinned⟩ := hno p hpool
  have hfind : σ.store.frameManager.find ⟨p.fileDesc, page⟩ = none :=
    List.find?_eq_none.mpr fun e he => by simpa using hfresh e he
  have hpurge : σ.store.frameManager.beginPurge = none := by
    unfold FrameManager.beginPurge
    rw [List.find?_eq_none.mpr fun e he => ?_]
    · rfl
    · have hpin := hpinned e (List.mem_reverse.mp he)
      unfold Store.frame at hpin
      simpa using hpin
  have hget : σ.store.getThisPage pool page = some (.error .nomem, σ.store) := by
    unfold Store.getThisPage FrameManager.get Store.allocateFuel Store.allocateFrame
      FrameManager.alloc
    rw [hpool]
    simp only [Option.bind_eq_bind, Option.bind_some, hfind, hfrees, hpurge]
    rfl
  have hallowed : (PoolOp.getThisPage pool page).Allowed σ := hallowed
  unfold PoolOp.step at hstep
  rw [if_pos hallowed] at hstep
  simp only [hget] at hstep
  cases hstep
  rfl

end Sound

/-! ## The scanner -/

namespace PooledScanner

variable {σ σ' : Session F (RecordPage R)} {sc sc' : PooledScanner R} {others : List Handle}
  {rc : RC} {pool p : ℕ}

/-- What the scanner knows of its page is of that page. -/
structure Named (sc : PooledScanner R) : Prop where
  iterator : ∀ h it, sc.recordPageIterator = some (h, it) → it.pageNum = h.page
  record : ∀ record ∈ sc.nextRecord, record.rid.pageNum = record.handle.page

/-- **The pins of the scanner and of the others.** -/
structure Pins (sc : PooledScanner R) (σ : Session F (RecordPage R)) (others : List Handle) :
    Prop where
  sound : Sound σ
  named : sc.Named
  pinned : ∀ h ∈ sc.recordPageHandler, h ∈ σ.held
  others : sc.others σ.held = others

omit [DecidableEq F] [Inhabited R] in
/-- What the others have pinned stays pinned. -/
theorem Pins.mem_held (h : sc.Pins σ others) {h' : Handle} (hmem : h' ∈ others) :
    h' ∈ σ.held := by
  rw [← h.others] at hmem
  unfold PooledScanner.others at hmem
  split at hmem
  · exact hmem
  · exact List.mem_of_mem_erase hmem

omit [Inhabited R] in
/-- A record that is fetched is on the page of the iterator. -/
theorem fetch_pageNum (accept : RID × R → Bool) (page : RecordPage R) (fuel : ℕ) :
    ∀ {it it' : RecordPageIterator} {record : Option (RID × R)},
      it.fetch accept page fuel = some (record, it') → it'.pageNum = it.pageNum ∧
        ∀ x ∈ record, x.1.pageNum = it.pageNum := by
  induction fuel with
  | zero => exact nofun
  | succ fuel ih =>
    intro it it' record hfetch
    unfold RecordPageIterator.fetch at hfetch
    split at hfetch
    · cases hfetch
      exact ⟨rfl, nofun⟩
    · dsimp only at hfetch
      split at hfetch
      · cases hfetch
        refine ⟨rfl, fun x hx => ?_⟩
        cases hx
        rfl
      · have hrest := ih hfetch
        exact hrest

omit [DecidableEq F] [Inhabited R] in
/-- Going on in the page moves nothing but the iterator. -/
theorem fetchNextRecordInPage_named (hnamed : sc.Named)
    (hfetch : sc.fetchNextRecordInPage σ = some sc') : sc'.Named ∧
      sc' = { sc with
        nextRecord := sc'.nextRecord
        recordPageIterator := sc'.recordPageIterator } := by
  obtain ⟨⟨h, it⟩, hiter, hfetch⟩ := Option.bind_eq_some_iff.mp hfetch
  dsimp only at hfetch
  split at hfetch
  · cases hfetch
    exact ⟨⟨hnamed.iterator, nofun⟩, rfl⟩
  · obtain ⟨page, -, hfetch⟩ := Option.bind_eq_some_iff.mp hfetch
    obtain ⟨⟨record, it'⟩, hfetched, heq⟩ := Option.map_eq_some_iff.mp hfetch
    cases heq
    obtain ⟨hit, hrecord⟩ := fetch_pageNum _ _ _ hfetched
    have hpage := hnamed.iterator h it hiter
    refine ⟨⟨fun h' it'' heq => ?_, fun x hx => ?_⟩, rfl⟩
    · cases heq
      exact hit.trans hpage
    · obtain ⟨y, hy, rfl⟩ := Option.map_eq_some_iff.mp (Option.mem_def.mp hx)
      show y.1.pageNum = h.page
      rw [hrecord y hy, hpage]

omit [DecidableEq F] [Inhabited R] in
theorem Pins.fetchNextRecordInPage (h : sc.Pins σ others)
    (hfetch : sc.fetchNextRecordInPage σ = some sc') : sc'.Pins σ others := by
  obtain ⟨hnamed, heq⟩ := fetchNextRecordInPage_named h.named hfetch
  rw [heq] at hnamed ⊢
  exact ⟨h.sound, hnamed, h.pinned, h.others⟩

/-- The scanner leaves its page. -/
theorem Pins.cleanup (h : sc.Pins σ others) (hclean : sc.cleanup σ = some σ') :
    Sound σ' ∧ σ'.held = others := by
  have hothers := h.others
  unfold PooledScanner.cleanup at hclean
  unfold PooledScanner.others at hothers
  cases hhandler : sc.recordPageHandler with
  | none =>
    rw [hhandler] at hclean hothers
    cases hclean
    exact ⟨h.sound, hothers⟩
  | some h' =>
    simp only [hhandler] at hclean hothers
    obtain ⟨⟨a, σ₁⟩, hstep, heq⟩ := Option.map_eq_some_iff.mp hclean
    cases heq
    exact ⟨h.sound.step hstep not_false, (held_unpinPage hstep).2.trans hothers⟩

/-- The scanner moves on to another page. -/
theorem Pins.openPage (h : sc.Pins σ others)
    (hopen : sc.openPage σ pool p = some (rc, sc', σ')) : sc'.Pins σ' others := by
  obtain ⟨σ₁, hclean, hopen⟩ := Option.bind_eq_some_iff.mp hopen
  obtain ⟨hsound, hheld⟩ := h.cleanup hclean
  obtain ⟨⟨a, σ₂⟩, hstep, hopen⟩ := Option.bind_eq_some_iff.mp hopen
  have hsound₂ := hsound.step hstep not_false
  rcases held_getThisPage hstep with ⟨hnone, hsame⟩ | ⟨f, hsome, hmore⟩
  · simp only [hnone] at hopen
    cases hopen
    exact ⟨hsound₂, ⟨h.named.iterator, h.named.record⟩, nofun, hsame.trans hheld⟩
  · simp only [hsome] at hopen
    obtain ⟨page, -, hopen⟩ := Option.bind_eq_some_iff.mp hopen
    obtain rfl : σ₂ = σ' := congrArg (fun x => x.2.2) (Option.some.inj hopen)
    cases hopen
    have hmem : (⟨pool, p, f⟩ : Handle) ∈ σ₂.held := hmore ▸ List.mem_cons_self
    refine ⟨hsound₂, ⟨fun h' it heq => ?_, h.named.record⟩, fun h' heq => ?_, ?_⟩
    · cases heq
      exact hsound₂.pageNum_eq hmem
    · cases heq
      exact hmem
    · show σ₂.held.erase ⟨pool, p, f⟩ = others
      rw [hmore, List.erase_cons_head, hheld]

/-- The scanner goes through pages. -/
theorem Pins.fetchPages (fuel : ℕ) (h : sc.Pins σ others)
    (hfetch : PooledScanner.fetchPages fuel sc σ = some (rc, sc', σ')) : sc'.Pins σ' others := by
  induction fuel generalizing sc σ with
  | zero => cases hfetch
  | succ fuel ih =>
    obtain ⟨hd, -, hfetch⟩ := Option.bind_eq_some_iff.mp hfetch
    dsimp only at hfetch
    split at hfetch
    · cases hfetch
      exact ⟨h.sound, ⟨h.named.iterator, nofun⟩, h.pinned, h.others⟩
    · obtain ⟨pool, -, hfetch⟩ := Option.bind_eq_some_iff.mp hfetch
      obtain ⟨⟨rc₁, sc₁, σ₁⟩, hopen, hfetch⟩ := Option.bind_eq_some_iff.mp hfetch
      have h₁ := h.openPage hopen
      dsimp only at hfetch
      split at hfetch
      · cases hfetch
        exact h₁
      · obtain ⟨sc₂, hpage, hfetch⟩ := Option.bind_eq_some_iff.mp hfetch
        have h₂ := h₁.fetchNextRecordInPage hpage
        split at hfetch
        · cases hfetch
          exact h₂
        · exact ih h₂ hfetch

/-- Without another page the loop over the pages does nothing. -/
theorem fetchPages_of_none {fuel : ℕ}
    (hno : ∀ hd ∈ σ.store.fileHeader sc.bpIterator.pool, sc.nextPage hd = none)
    (hfetch : PooledScanner.fetchPages fuel sc σ = some (rc, sc', σ')) : σ' = σ := by
  cases fuel with
  | zero => cases hfetch
  | succ fuel =>
    obtain ⟨hd, hhd, hfetch⟩ := Option.bind_eq_some_iff.mp hfetch
    rw [hno hd hhd] at hfetch
    cases hfetch
    rfl

/-- **Fetching a record** keeps the pins of the others, and all of them if the scanner does not leave
its page. -/
theorem Pins.fetchNextRecord (h : sc.Pins σ others)
    (hfetch : sc.fetchNextRecord σ = some (rc, sc', σ')) :
    sc'.Pins σ' others ∧ (¬ sc.LeavesPage σ → σ' = σ) := by
  unfold PooledScanner.fetchNextRecord at hfetch
  cases hiter : sc.recordPageIterator with
  | none =>
    rw [hiter] at hfetch
    refine ⟨h.fetchPages _ hfetch, fun hstays => fetchPages_of_none (fun hd hhd => ?_) hfetch⟩
    have hnone : sc.fetchNextRecordInPage σ = none := by
      unfold PooledScanner.fetchNextRecordInPage
      rw [hiter]
      rfl
    by_contra hnext
    refine hstays ⟨?_, hd, hhd, Option.isSome_iff_ne_none.mpr hnext⟩
    rw [hnone]
    exact nofun
  | some it =>
    rw [hiter] at hfetch
    obtain ⟨sc₁, hpage, hfetch⟩ := Option.bind_eq_some_iff.mp hfetch
    have h₁ := h.fetchNextRecordInPage hpage
    have heq := (fetchNextRecordInPage_named h.named hpage).2
    split at hfetch
    · cases hfetch
      exact ⟨h₁, fun _ => rfl⟩
    · rename_i hlast
      refine ⟨h₁.fetchPages _ hfetch, fun hstays => fetchPages_of_none (fun hd hhd => ?_) hfetch⟩
      rw [heq] at hhd ⊢
      by_contra hnext
      refine hstays ⟨fun sc₂ hsc₂ => ?_, hd, hhd, Option.isSome_iff_ne_none.mpr hnext⟩
      obtain rfl := Option.some.inj (hpage.symm.trans hsc₂)
      simpa using hlast

end PooledScanner

/-! ## Runs -/

section Runs

variable {τ τ' : Readers F R} {op : ReaderOp F R} {ops : List (ReaderOp F R)} {rc : RC}
  {pool page slot : ℕ} {filter : Option (RID × R → Bool)}

/-- **The records that are used are held.** -/
structure Readers.Held (τ : Readers F R) : Prop where
  pins : τ.scanner.Pins τ.session τ.othersHeld
  used : ∀ record ∈ τ.used, record.handle ∈ τ.session.held ∧
    record.rid.pageNum = record.handle.page

namespace Readers.Held

omit [DecidableEq F] [Inhabited R] in
theorem isValid (h : τ.Held) : ∀ record ∈ τ.used, record.IsValid τ.session := fun record hmem =>
  h.pins.sound.isValid (h.used record hmem).1 (h.used record hmem).2

/-- After a record has been fetched: what is held by others, or held while the scanner stays. -/
theorem mem_of_fetch {sc sc' : PooledScanner R} {σ σ' : Session F (RecordPage R)}
    {others : List Handle} {h' : Handle} (hpins : sc.Pins σ others)
    (hfetch : sc.fetchNextRecord σ = some (rc, sc', σ')) (hheld : h' ∈ σ.held)
    (hleaves : sc.LeavesPage σ → h' ∈ others) : h' ∈ σ'.held := by
  obtain ⟨hpins', hstays⟩ := hpins.fetchNextRecord hfetch
  by_cases hleave : sc.LeavesPage σ
  · exact hpins'.mem_held (hleaves hleave)
  · rw [hstays hleave]
    exact hheld

/-- `open_scan` -/
theorem openScan (h : τ.Held) (hkeeps : (ReaderOp.openScan pool filter).KeepsPins τ)
    (hstep : τ.openScan pool filter = some (rc, τ')) : τ'.Held := by
  obtain ⟨_, -, hstep⟩ := Option.bind_eq_some_iff.mp hstep
  obtain ⟨hd, hhd, hstep⟩ := Option.bind_eq_some_iff.mp hstep
  obtain ⟨⟨rc₁, sc, σ⟩, hfetch, hstep⟩ := Option.bind_eq_some_iff.mp hstep
  cases hstep
  have hopened : (τ.scanner.opened pool hd.pageCount filter).Pins τ.session τ.othersHeld :=
    ⟨h.pins.sound, ⟨h.pins.named.iterator, h.pins.named.record⟩, h.pins.pinned, rfl⟩
  have hpins := (hopened.fetchNextRecord hfetch).1
  refine ⟨⟨hpins.sound, hpins.named, hpins.pinned, rfl⟩, fun record hmem => ?_⟩
  obtain ⟨hheld, hrid⟩ := h.used record hmem
  exact ⟨mem_of_fetch hopened hfetch hheld fun hleave => hkeeps hd hhd hleave record hmem, hrid⟩

/-- `next` -/
theorem next (h : τ.Held) (hkeeps : ReaderOp.next.KeepsPins τ)
    (hstep : τ.next = some (rc, τ')) : τ'.Held := by
  obtain ⟨⟨rc₁, sc, σ⟩, hfetch, hstep⟩ := Option.bind_eq_some_iff.mp hstep
  cases hstep
  have hpins := (h.pins.fetchNextRecord hfetch).1
  refine ⟨⟨hpins.sound, hpins.named, hpins.pinned, rfl⟩, fun record hmem => ?_⟩
  have hmem : record ∈ τ.scanner.nextRecord.toList ++ τ.fetched := by
    rcases List.mem_append.mp hmem with hmem | hmem
    · have hmem := (Option.mem_ite_none_right.mp (Option.mem_toList.mp hmem)).2
      exact List.mem_append_left _ (Option.mem_toList.mpr hmem)
    · exact List.mem_append_right _ hmem
  obtain ⟨hheld, hleaves⟩ := hkeeps record hmem
  refine ⟨mem_of_fetch h.pins hfetch hheld hleaves, ?_⟩
  rcases List.mem_append.mp hmem with hnext | hfetched
  · exact h.pins.named.record record (Option.mem_toList.mp hnext)
  · exact (h.used record (List.mem_append_right _ hfetched)).2

/-- `get_record` -/
theorem getRecord (h : τ.Held) (hkeeps : (ReaderOp.getRecord pool page slot).KeepsPins τ)
    (hstep : τ.getRecord pool page slot = some (rc, τ')) : τ'.Held := by
  obtain ⟨⟨a, σ₁⟩, hget, hstep⟩ := Option.bind_eq_some_iff.mp hstep
  have hsound₁ := h.pins.sound.step hget not_false
  have hother : ∀ {σ : Session F (RecordPage R)}, Sound σ → σ.held = τ.session.held →
      ∀ fetched : List PageRecord, (∀ record ∈ fetched, record.handle ∈ τ.session.held ∧
        record.rid.pageNum = record.handle.page) →
      Readers.Held { τ with session := σ, fetched := fetched } := by
    intro σ hsound hheld fetched hfetched
    refine ⟨⟨hsound, h.pins.named, fun h' hh' => ?_, rfl⟩, fun record hmem => ?_⟩
    · rw [hheld]
      exact h.pins.pinned h' hh'
    · rw [hheld]
      rcases List.mem_append.mp hmem with hmem | hmem
      · exact h.used record (List.mem_append_left _ hmem)
      · exact hfetched record hmem
  have hold : ∀ record ∈ τ.fetched, record.handle ∈ τ.session.held ∧
      record.rid.pageNum = record.handle.page := fun record hmem =>
    h.used record (List.mem_append_right _ hmem)
  rcases held_getThisPage hget with ⟨hnone, hsame⟩ | ⟨f, hsome, hmore⟩
  · simp only [hnone] at hstep
    cases hstep
    exact hother hsound₁ hsame τ.fetched hold
  · simp only [hsome] at hstep
    obtain ⟨data, hdata, hstep⟩ := Option.bind_eq_some_iff.mp hstep
    obtain ⟨⟨a', σ₂⟩, hunpin, hstep⟩ := Option.bind_eq_some_iff.mp hstep
    have hsound₂ := hsound₁.step hunpin not_false
    have hheld : σ₂.held = τ.session.held := by
      rw [(held_unpinPage hunpin).2, hmore, List.erase_cons_head]
    cases hrecord : data.getRecord slot with
    | error rc' =>
      simp only [hrecord] at hstep
      cases hstep
      exact hother hsound₂ hheld τ.fetched hold
    | ok x =>
      simp only [hrecord] at hstep
      cases hstep
      refine hother hsound₂ hheld _ fun record hmem => ?_
      rcases List.mem_cons.mp hmem with rfl | hmem
      · refine ⟨?_, rfl⟩
        rcases hkeeps with ⟨h', hmem', hpool, hpage⟩ | hunused | hno
        · -- the page has the frame that the other pin is on
          have hin : h' ∈ σ₁.held := hmore ▸ List.mem_cons_of_mem _ hmem'
          have hnew : (⟨pool, page, f⟩ : Handle) ∈ σ₁.held := hmore ▸ List.mem_cons_self
          rw [← hsound₁.handle_unique hnew hin hpool hpage]
          exact hmem'
        · -- the slot is not in use
          rw [h.pins.sound.recordPage_eq hget hsome] at hdata
          refine absurd ?_ (hunused data hdata)
          unfold RecordPage.getRecord at hrecord
          split at hrecord
          · cases hrecord
          · rename_i hlt
            split at hrecord
            · cases hrecord
            · rename_i hbit
              exact ⟨not_le.mp hlt, not_not.mp hbit⟩
        · rw [handle_of_noFrame hno hget] at hsome
          cases hsome
      · exact hold record hmem

/-- Calls of other clients. -/
theorem request {op : PoolOp F (RecordPage R)} (h : τ.Held)
    (hkeeps : (ReaderOp.request op).KeepsPins τ) (hstep : τ.request op = some (rc, τ')) :
    τ'.Held := by
  -- a call that takes no pin
  have hcall : ¬ op.Closes → (∀ h, op ≠ .unpinPage h) →
      (op.step τ.session).map (fun p => (p.1.rc, { τ with session := p.2 })) = some (rc, τ') →
      τ'.Held := by
    intro hop hne hstep
    obtain ⟨⟨a, σ⟩, hcalled, heq⟩ := Option.map_eq_some_iff.mp hstep
    cases heq
    have hheld := held_of_ne hcalled hne
    refine ⟨⟨h.pins.sound.step hcalled hop, h.pins.named, fun h' hh' => ?_, rfl⟩,
      fun record hmem => ?_⟩
    · exact hheld h' (h.pins.pinned h' hh')
    · exact ⟨hheld _ (h.used record hmem).1, (h.used record hmem).2⟩
  unfold Readers.request at hstep
  cases op with
  | poolCloseFile id | closeFile name => cases hstep
  | unpinPage h' =>
    dsimp only at hstep
    split at hstep
    case isFalse => cases hstep
    case isTrue hothers =>
      obtain ⟨⟨a, σ⟩, hcalled, heq⟩ := Option.map_eq_some_iff.mp hstep
      cases heq
      have hheld : σ.held = τ.session.held.erase h' := (held_unpinPage hcalled).2
      refine ⟨⟨h.pins.sound.step hcalled not_false, h.pins.named, fun hs hhs => ?_, rfl⟩,
        fun record hmem => ⟨?_, (h.used record hmem).2⟩⟩
      · rw [hheld]
        by_cases hsame : hs = h'
        · unfold Readers.othersHeld PooledScanner.others at hothers
          rw [Option.mem_def.mp hhs] at hothers
          rw [hsame] at hothers ⊢
          exact hothers
        · exact (List.mem_erase_of_ne hsame).mpr (h.pins.pinned hs hhs)
      · show record.handle ∈ σ.held
        rw [hheld]
        exact hkeeps record hmem
  | openFile name | getThisPage pool page | write h' d | markDirty h' | allocatePage pool
  | disposePage pool page | purgePage pool page | flushAllPages pool =>
    refine hcall not_false (fun h' heq => ?_) hstep
    cases heq

/-- Every call that keeps the pins keeps the records held. -/
theorem step (h : τ.Held) (hkeeps : op.KeepsPins τ) (hstep : op.step τ = some (rc, τ')) :
    τ'.Held := by
  cases op with
  | openScan pool filter => exact h.openScan hkeeps hstep
  | next => exact h.next hkeeps hstep
  | closeScan =>
    cases hstep
    exact ⟨⟨h.pins.sound, ⟨h.pins.named.iterator, h.pins.named.record⟩, h.pins.pinned, rfl⟩, h.used⟩
  | destroyScan =>
    obtain ⟨σ, hclean, heq⟩ := Option.map_eq_some_iff.mp hstep
    cases heq
    obtain ⟨hsound, hheld⟩ := h.pins.cleanup hclean
    refine ⟨⟨hsound, ⟨nofun, nofun⟩, nofun, rfl⟩, fun record hmem => ⟨?_, ?_⟩⟩
    · show record.handle ∈ σ.held
      rw [hheld]
      exact hkeeps record hmem
    · exact (h.used record (List.mem_append_right _ hmem)).2
  | getRecord pool page slot => exact h.getRecord hkeeps hstep
  | done record =>
    cases hstep
    refine ⟨⟨h.pins.sound, h.pins.named, h.pins.pinned, rfl⟩, fun record' hmem => ?_⟩
    rcases List.mem_append.mp hmem with hmem | hmem
    · exact h.used _ (List.mem_append_left _ hmem)
    · exact h.used _ (List.mem_append_right _ (List.mem_of_mem_erase hmem))
  | request op => exact h.request hkeeps hstep

end Readers.Held

/-- The records are held along every run that keeps the pins. -/
theorem held_runReaders (h : τ.Held) (hkeeps : KeepsPinsInRun ops τ)
    (hrun : runReaders ops τ = some τ') : τ'.Held := by
  induction ops generalizing τ with
  | nil =>
    cases hrun
    exact h
  | cons op ops ih =>
    obtain ⟨⟨rc, τ₁⟩, hstep, hrest⟩ := Option.bind_eq_some_iff.mp hrun
    obtain ⟨hop, hkeeps⟩ := hkeeps
    exact ih (h.step hop hstep) (hkeeps _ hstep) hrest

/-- **Records that are handed out stay valid** in every run in which every record that is used keeps
a pin when the scanner, `get_record` or another client takes one from its page. -/
theorem records_stay_valid {used : List ℕ} {n : ℕ} {disk : F → List (Page (RecordPage R))}
    (hdisk : ∀ name, WellFormed (disk name))
    (hkeeps : KeepsPinsInRun ops (Readers.init used n disk))
    (hrun : runReaders ops (Readers.init used n disk) = some τ) :
    ∀ record ∈ τ.used, record.IsValid τ.session := by
  have hinit : (Readers.init used n disk).Held := by
    refine ⟨⟨⟨_, _, simulates_init hdisk fun name page d hd => hd⟩, ⟨nofun, nofun⟩, nofun, rfl⟩, ?_⟩
    exact nofun
  exact (held_runReaders hinit hkeeps hrun).isValid

/-- A page with one record. -/
def oneSlot (data : ℕ) : RecordPage ℕ := ⟨1, 1, fun i => i = 0, fun _ => data⟩

/-- A file with three such pages. -/
def threeSlots : List (Page (RecordPage ℕ)) :=
  [⟨0, .header ⟨4, 4, fun i => i < 4⟩⟩, ⟨1, .bytes (oneSlot 5)⟩, ⟨2, .bytes (oneSlot 6)⟩,
    ⟨3, .bytes (oneSlot 7)⟩]

theorem wellFormed_threeSlots : WellFormed threeSlots := by
  refine ⟨fun n page hpage => ?_, fun page hpage => ?_⟩
  · match n, hpage with
    | 0, hpage | 1, hpage | 2, hpage | 3, hpage =>
      cases hpage
      rfl
  · cases hpage
    exact ⟨_, rfl, le_rfl⟩

/-- Three frames and such files. -/
def threeFrames : Readers ℕ ℕ := Readers.init [0, 1, 2] 3 fun _ => threeSlots

/-- Another client has page 1 pinned. The scanner returns its record and moves on to page 2, and
`get_record` returns it too. -/
theorem records_stay_valid_run : ∃ τ, runReaders [.request (.openFile 0),
      .request (.getThisPage 0 1), .openScan 0 none, .next, .getRecord 0 1 0] threeFrames = some τ ∧
    τ.used.length = 2 ∧ ∀ record ∈ τ.used, record.IsValid τ.session := by
  have hall : ((runReaders [.request (.openFile 0), .request (.getThisPage 0 1), .openScan 0 none,
      .next, .getRecord 0 1 0] threeFrames).any fun τ => τ.used.length = 2) = true := by
    decide
  obtain ⟨τ, hrun, hlength⟩ := (Option.any_eq_true _ _).mp hall
  exact ⟨τ, hrun, of_decide_eq_true hlength,
    records_stay_valid (fun _ => wellFormed_threeSlots) (by decide) hrun⟩

/-- A frame with another page makes a record invalid. -/
theorem PageRecord.not_isValid {record : PageRecord} {σ : Session ℕ (RecordPage ℕ)}
    (hpage : ((σ.store.frame record.handle.frame).page.pageNum : Int) ≠ record.rid.pageNum) :
    ¬ record.IsValid σ := by
  rintro ⟨pool, page, -, hrid, -, hnum, -⟩
  rw [hnum, hrid] at hpage
  exact hpage rfl

/-- The scanner returns the record of page 1 and moves on to page 2. Page 3 gets the frame of page
1 while the record is used. The same happens to a record of `get_record` when two other pages are
asked for. -/
theorem records_go_stale : ∃ τ τ',
    runReaders [.request (.openFile 0), .openScan 0 none, .next, .request (.getThisPage 0 3)]
      threeFrames = some τ ∧
    (∃ record ∈ τ.used, record.rid = ⟨1, 0⟩ ∧ ¬ record.IsValid τ.session) ∧
    runReaders [.request (.openFile 0), .getRecord 0 1 0, .request (.getThisPage 0 2),
      .request (.getThisPage 0 3)] threeFrames = some τ' ∧
    ∃ record ∈ τ'.used, record.rid = ⟨1, 0⟩ ∧ ¬ record.IsValid τ'.session := by
  have hscan : ((runReaders [.request (.openFile 0), .openScan 0 none, .next,
      .request (.getThisPage 0 3)] threeFrames).any fun τ => ∃ record ∈ τ.used,
        record.rid = ⟨1, 0⟩ ∧ ((τ.session.store.frame record.handle.frame).page.pageNum : Int) ≠
          record.rid.pageNum) = true := by
    decide
  have hget : ((runReaders [.request (.openFile 0), .getRecord 0 1 0, .request (.getThisPage 0 2),
      .request (.getThisPage 0 3)] threeFrames).any fun τ => ∃ record ∈ τ.used,
        record.rid = ⟨1, 0⟩ ∧ ((τ.session.store.frame record.handle.frame).page.pageNum : Int) ≠
          record.rid.pageNum) = true := by
    decide
  obtain ⟨τ, hrun, hstale⟩ := (Option.any_eq_true _ _).mp hscan
  obtain ⟨τ', hrun', hstale'⟩ := (Option.any_eq_true _ _).mp hget
  obtain ⟨record, hmem, hrid, hpage⟩ := of_decide_eq_true hstale
  obtain ⟨record', hmem', hrid', hpage'⟩ := of_decide_eq_true hstale'
  exact ⟨τ, τ', hrun, ⟨record, hmem, hrid, PageRecord.not_isValid hpage⟩, hrun',
    record', hmem', hrid', PageRecord.not_isValid hpage'⟩

end Runs

end Miniob.Storage.Record
