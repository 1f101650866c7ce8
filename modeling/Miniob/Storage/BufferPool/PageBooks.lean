import Miniob.Storage.BufferPool.FileHeader
import Miniob.Storage.BufferPool.PageArray

/-!
# Allocating pages and giving them back

A page that is given back while it is pinned waits in `disposed_pages` for its last `unpin_page`.
The callers give back allocated pages only and close no file (`KeepsBooks`).

* `PageArray.Books`: every header counts its pages, and a page that waits is allocated and pinned.
  Each call keeps it (`Books.step`).
* `page_allocation_books`: what the headers hold after any run; `allocate_page` hands out a page
  that was not allocated, and a page that is given back while pinned stays allocated until its last
  pin goes, which frees it.
-/

namespace Miniob.Storage.DiskBufferPool

open Miniob.Storage.BufferPool

variable {F D : Type}

/-- The callers give back only an allocated page other than 0, which may wait already, and close no
file. -/
def PoolOp.KeepsBooks (σ : Session F D) : PoolOp F D → Prop
  | .disposePage pool page => page ≠ 0 ∧ ∃ hd ∈ σ.store.fileHeader pool, hd.bitmap page = true
  | .poolCloseFile _ | .closeFile _ => False
  | _ => True

instance (σ : Session F D) : (op : PoolOp F D) → Decidable (op.KeepsBooks σ)
  | .disposePage pool page => inferInstanceAs (Decidable (page ≠ 0 ∧
      ∃ hd ∈ σ.store.fileHeader pool, hd.bitmap page = true))
  | .poolCloseFile _ | .closeFile _ => inferInstanceAs (Decidable False)
  | .openFile _ | .getThisPage _ _ | .write _ _ | .markDirty _ | .unpinPage _ | .allocatePage _
  | .purgePage _ _ | .flushAllPages _ => inferInstanceAs (Decidable True)

theorem PoolOp.KeepsBooks.not_closes {σ : Session F D} {op : PoolOp F D}
    (hkeeps : op.KeepsBooks σ) : ¬ op.Closes := by
  cases op <;> first | exact hkeeps.elim | exact id

namespace PageArray

/-- **The books of the files.** -/
structure Books (r : PageArray F D) : Prop where
  /-- No file is open twice. -/
  names : r.files.Nodup
  /-- The headers count their pages, and their own page is allocated. -/
  counted : ∀ name hd, r.content name 0 = some (.header hd) → hd.Counted ∧ hd.bitmap 0 = true
  /-- No page waits twice. -/
  once : ∀ id, (r.deferred id).Nodup
  /-- A page that waits is an allocated page of a client, and pinned. -/
  waiting : ∀ {id name hd}, r.header id = some (name, hd) → ∀ p ∈ r.deferred id,
    p ≠ 0 ∧ hd.bitmap p = true ∧ r.Pinned id p

variable {r r' : PageArray F D} {id id' page p : ℕ} {name name' : F} {hd hd' : FileHeader}

/-- The header of a pool is in page 0 of its file. -/
theorem header_eq_some : r.header id = some (name, hd) ↔
    r.files[id]? = some name ∧ r.content name 0 = some (.header hd) := by
  unfold header
  cases hfile : r.files[id]? with
  | none => simp
  | some name₀ =>
    simp only [Option.some.injEq]
    constructor
    · intro heq
      split at heq
      · rename_i hd₀ hcont
        obtain ⟨rfl, rfl⟩ := Prod.mk.inj (Option.some.inj heq)
        exact ⟨rfl, hcont⟩
      · cases heq
    · rintro ⟨rfl, hcont⟩
      rw [hcont]

/-- More pins. -/
theorem Pinned.mono (hheld : ∀ h ∈ r.held, h ∈ r'.held) (hp : r.Pinned id p) : r'.Pinned id p := by
  rcases hp with hzero | ⟨h, hmem, hpool, hpage⟩
  · exact Or.inl hzero
  · exact Or.inr ⟨h, hheld h hmem, hpool, hpage⟩

/-- The files and the headers stay, the pins stay and no page waits that did not. -/
theorem Books.of_headers (hb : r.Books) (hfiles : r'.files = r.files)
    (hzero : ∀ name, r'.content name 0 = r.content name 0)
    (hheld : ∀ id p, p ∈ r'.deferred id → r.Pinned id p → r'.Pinned id p)
    (honce : ∀ id, (r'.deferred id).Nodup) (hsub : ∀ id p, p ∈ r'.deferred id → p ∈ r.deferred id) :
    r'.Books where
  names := hfiles ▸ hb.names
  counted name hd hcont := hb.counted name hd (hzero name ▸ hcont)
  once := honce
  waiting {id name hd} hheader p hp := by
    obtain ⟨hfile, hcont⟩ := header_eq_some.mp hheader
    have hheader' : r.header id = some (name, hd) :=
      header_eq_some.mpr ⟨hfiles ▸ hfile, hzero name ▸ hcont⟩
    obtain ⟨hne, hbit, hpin⟩ := hb.waiting hheader' p (hsub id p hp)
    exact ⟨hne, hbit, hheld id p hp hpin⟩

/-- A frame that is handed out keeps the books. -/
theorem Books.hold (hb : r.Books) (a : PoolAnswer) : (r.hold a).Books := by
  unfold PageArray.hold
  split
  · refine hb.of_headers rfl (fun _ => rfl) (fun id p _ hpin => ?_) hb.once fun _ _ hp => hp
    exact hpin.mono fun h hmem => List.mem_cons_of_mem _ hmem
  · exact hb

variable [DecidableEq F]

/-- The header of one file changes. Its pages that wait stay allocated. -/
theorem Books.setHeader (hb : r.Books) (hheader : r.header id = some (name, hd))
    (hcounted : hd'.Counted) (hbit : hd'.bitmap 0 = true) {content : Content F D}
    (hself : content name 0 = some (.header hd'))
    (hother : ∀ name', name' ≠ name → content name' 0 = r.content name' 0)
    {deferred : ℕ → List ℕ} (honce : ∀ id, (deferred id).Nodup)
    (hsub : ∀ id' p, p ∈ deferred id' → p ∈ r.deferred id')
    (hwait : ∀ p ∈ deferred id, hd.bitmap p = true → hd'.bitmap p = true) :
    Books { r with content := content, deferred := deferred } where
  names := hb.names
  counted name' hd₀ hcont := by
    by_cases hname : name' = name
    · subst hname
      have hcont : content name' 0 = some (.header hd₀) := hcont
      rw [hself] at hcont
      injection hcont with hcont
      injection hcont with hcont
      exact hcont ▸ ⟨hcounted, hbit⟩
    · exact hb.counted name' hd₀ (hother name' hname ▸ hcont)
  once := honce
  waiting {id' name' hd₀} hheader' p hp := by
    obtain ⟨hfile', hcont'⟩ := header_eq_some.mp hheader'
    obtain ⟨hfile, -⟩ := header_eq_some.mp hheader
    have hcont' : content name' 0 = some (.header hd₀) := hcont'
    have hfile' : r.files[id']? = some name' := hfile'
    by_cases hname : name' = name
    · -- a file has one pool
      subst hname
      obtain ⟨hlt, -⟩ := List.getElem?_eq_some_iff.mp hfile
      obtain rfl : id = id' := (List.getElem?_inj hlt hb.names).mp (hfile.trans hfile'.symm)
      rw [hself] at hcont'
      injection hcont' with hcont'
      injection hcont' with hcont'
      obtain ⟨hne, hset, hpin⟩ := hb.waiting hheader p (hsub id p hp)
      exact ⟨hne, hcont' ▸ hwait p hp hset, hpin⟩
    · exact hb.waiting (header_eq_some.mpr ⟨hfile', hother name' hname ▸ hcont'⟩) p
        (hsub id' p hp)

/-- What the callers keep to, on the pages. -/
def Keeps (r : PageArray F D) : PoolOp F D → Prop
  | .disposePage id page => page ≠ 0 ∧
      ∃ name hd, r.header id = some (name, hd) ∧ hd.bitmap page = true
  | .write h _ => h.page ≠ 0
  | _ => True

variable {h : Handle} {a : PoolAnswer}

/-- Giving a page back does not depend on the pages that wait. -/
theorem dispose_deferred (deferred : ℕ → List ℕ) :
    dispose { r with deferred := deferred } id page =
      { r.dispose id page with deferred := deferred } := by
  have hheader : header { r with deferred := deferred } id = r.header id := rfl
  unfold dispose
  rw [hheader]
  cases r.header id with
  | none => rfl
  | some q => rfl

/-- The header after a page has been given back. -/
theorem header_dispose (hheader : r.header id = some (name, hd)) :
    (r.dispose id page).header id = some (name, hd.dispose page) := by
  obtain ⟨hfile, -⟩ := header_eq_some.mp hheader
  unfold dispose
  rw [hheader]
  exact header_eq_some.mpr ⟨hfile, Content.set_self ..⟩

@[simp] theorem deferred_dispose : (r.dispose id page).deferred = r.deferred := by
  unfold dispose
  split
  · rfl
  · rfl

omit [DecidableEq F] in
@[simp] theorem deferred_hold : (r.hold a).deferred = r.deferred := by
  unfold PageArray.hold
  split
  · rfl
  · rfl

@[simp] theorem deferred_allocate [Inhabited D] : (r.allocate id a).deferred = r.deferred := by
  unfold PageArray.allocate
  split
  · rfl
  · split
    · exact deferred_hold
    · exact deferred_hold
    · rfl

/-- A page is given back that waits no longer. -/
theorem Books.dispose (hb : r.Books) (hpage : page ≠ 0) (hnot : page ∉ r.deferred id)
    (hbit : ∀ name hd, r.header id = some (name, hd) → hd.bitmap page = true) :
    (r.dispose id page).Books := by
  unfold PageArray.dispose
  split
  · rename_i name hd hheader
    obtain ⟨-, hcont⟩ := header_eq_some.mp hheader
    obtain ⟨hcounted, hzero⟩ := hb.counted name hd hcont
    refine hb.setHeader hheader (hcounted.dispose (hbit name hd hheader)) ?_
      (Content.set_self ..) (fun name' hname => Content.set_of_ne _ _ _ _ (absurd · hname))
      hb.once (fun _ _ hp => hp) fun p hp hset => ?_
    · exact (Function.update_of_ne hpage.symm _ _).trans hzero
    · have hne : p ≠ page := fun heq => hnot (heq ▸ hp)
      exact (Function.update_of_ne hne _ _).trans hset
  · exact hb

/-- A page is taken again or added. -/
theorem Books.allocate [Inhabited D] (hb : r.Books) (a : PoolAnswer) : (r.allocate id a).Books := by
  unfold PageArray.allocate
  split
  · exact hb
  · rename_i name hd hheader
    obtain ⟨-, hcont⟩ := header_eq_some.mp hheader
    obtain ⟨hcounted, hzero⟩ := hb.counted name hd hcont
    split
    · rename_i page hfree
      obtain ⟨hlt, hclear⟩ := FileHeader.freePage_eq_some hfree
      refine Books.hold ?_ a
      refine hb.setHeader hheader (hcounted.reuse hlt hclear) ?_ (Content.set_self ..)
        (fun name' hname => Content.set_of_ne _ _ _ _ (absurd · hname)) hb.once
        (fun _ _ hp => hp) fun p _ hset => ?_
      · exact FileHeader.bitmap_update_of_set hzero
      · exact FileHeader.bitmap_update_of_set hset
    · refine Books.hold ?_ a
      refine hb.setHeader hheader hcounted.extend ?_ (Content.set_self ..) (fun name' hname => ?_)
        hb.once (fun _ _ hp => hp) fun p _ hset => ?_
      · exact FileHeader.bitmap_update_of_set hzero
      · rw [Content.set_of_ne _ _ _ _ (absurd · hname), Content.set_of_ne _ _ _ _ (absurd · hname)]
      · exact FileHeader.bitmap_update_of_set hset
    · exact hb

omit [DecidableEq F] in
/-- A pin goes. A page that was pinned by it alone must not wait any longer. -/
theorem Books.unpin (hb : r.Books) {deferred : ℕ → List ℕ} (honce : ∀ id, (deferred id).Nodup)
    (hsub : ∀ id p, p ∈ deferred id → p ∈ r.deferred id)
    (hlast : h.page ∈ deferred h.pool →
      PageArray.Pinned { r with held := r.held.erase h } h.pool h.page) :
    Books { r with held := r.held.erase h, deferred := deferred } := by
  refine hb.of_headers rfl (fun _ => rfl) (fun id p hp hpin => ?_) honce hsub
  by_cases hsame : h.pool = id ∧ h.page = p
  · obtain ⟨rfl, rfl⟩ := hsame
    exact hlast hp
  · rcases hpin with hzero | ⟨h', hmem, hpool, hpage⟩
    · exact Or.inl hzero
    · refine Or.inr ⟨h', (List.mem_erase_of_ne ?_).mpr hmem, hpool, hpage⟩
      rintro rfl
      exact hsame ⟨hpool, hpage⟩

omit [DecidableEq F] in
/-- A file is opened that was not open. -/
theorem Books.openFile (hb : r.Books) (hname : name ∉ r.files) :
    Books { r with
      files := r.files ++ [name], deferred := Function.update r.deferred r.files.length [] } := by
  refine ⟨?_, hb.counted, fun id => ?_, fun {id name' hd} hheader p hp => ?_⟩
  · refine List.nodup_append.mpr ⟨hb.names, List.nodup_singleton _, fun x hx y hy => ?_⟩
    rintro rfl
    exact hname (List.mem_singleton.mp hy ▸ hx)
  · show (Function.update r.deferred r.files.length [] id).Nodup
    by_cases hid : id = r.files.length
    · rw [hid, Function.update_self]
      exact List.nodup_nil
    · rw [Function.update_of_ne hid]
      exact hb.once id
  · have hp : p ∈ Function.update r.deferred r.files.length [] id := hp
    by_cases hid : id = r.files.length
    · rw [hid, Function.update_self] at hp
      cases hp
    · rw [Function.update_of_ne hid] at hp
      obtain ⟨hfile, hcont⟩ := header_eq_some.mp hheader
      have hfile : (r.files ++ [name])[id]? = some name' := hfile
      have hlt : id < r.files.length := by
        have hlt := (List.getElem?_eq_some_iff.mp hfile).1
        rw [List.length_append, List.length_singleton] at hlt
        omega
      rw [List.getElem?_append_left hlt] at hfile
      exact hb.waiting (header_eq_some.mpr ⟨hfile, hcont⟩) p hp

/-- The last pin of a page that waits goes, and the page is given back. -/
theorem Books.giveBack (hb : r.Books) (hwait : h.page ∈ r.deferred h.pool)
    (hlast : ¬ PageArray.Pinned { r with held := r.held.erase h } h.pool h.page) :
    Books { PageArray.dispose { r with held := r.held.erase h } h.pool h.page with
      deferred := Function.update r.deferred h.pool ((r.deferred h.pool).erase h.page) } := by
  have honce : ∀ id, (Function.update r.deferred h.pool
      ((r.deferred h.pool).erase h.page) id).Nodup := by
    intro id
    by_cases hid : id = h.pool
    · rw [hid, Function.update_self]
      exact (hb.once h.pool).erase _
    · rw [Function.update_of_ne hid]
      exact hb.once id
  have hsub : ∀ id p, p ∈ Function.update r.deferred h.pool
      ((r.deferred h.pool).erase h.page) id → p ∈ r.deferred id := by
    intro id p hp
    by_cases hid : id = h.pool
    · rw [hid, Function.update_self] at hp
      exact hid ▸ List.mem_of_mem_erase hp
    · rwa [Function.update_of_ne hid] at hp
  have hgone : h.page ∉ Function.update r.deferred h.pool
      ((r.deferred h.pool).erase h.page) h.pool := by
    rw [Function.update_self]
    exact (hb.once h.pool).not_mem_erase
  -- the page no longer waits, and is then given back
  have hb' := hb.unpin honce hsub fun hp => absurd hp hgone
  have hpage : h.page ≠ 0 := fun hzero => hlast (Or.inl hzero)
  have hdone := hb'.dispose hpage hgone fun name hd hheader =>
    (hb.waiting hheader h.page hwait).2.1
  exact (dispose_deferred (r := { r with held := r.held.erase h }) _) ▸ hdone

omit [DecidableEq F] in
/-- A pinned page that is given back waits. -/
theorem Books.defer (hb : r.Books) (hpage : page ≠ 0) (hheader : r.header id = some (name, hd))
    (hbit : hd.bitmap page = true) (hpin : r.Pinned id page) :
    Books { r with
      deferred := Function.update r.deferred id ((r.deferred id).insert page) } := by
  refine ⟨hb.names, hb.counted, fun id' => ?_, fun {id' name' hd'} hheader' p hp => ?_⟩
  · show (Function.update r.deferred id _ id').Nodup
    by_cases hid : id' = id
    · rw [hid, Function.update_self]
      exact (hb.once id).insert
    · rw [Function.update_of_ne hid]
      exact hb.once id'
  · have hheader' : r.header id' = some (name', hd') := hheader'
    have hp : p ∈ Function.update r.deferred id ((r.deferred id).insert page) id' := hp
    by_cases hid : id' = id
    · subst hid
      rw [Function.update_self] at hp
      rcases List.mem_insert_iff.mp hp with rfl | hp
      · obtain ⟨-, rfl⟩ := Prod.mk.inj (Option.some.inj (hheader.symm.trans hheader'))
        exact ⟨hpage, hbit, hpin⟩
      · exact hb.waiting hheader' p hp
    · rw [Function.update_of_ne hid] at hp
      exact hb.waiting hheader' p hp

/-- **Every call keeps the books.** -/
theorem Books.step [Inhabited D] {op : PoolOp F D} (hb : r.Books) (hkeeps : r.Keeps op)
    (hname : ∀ name, op = .openFile name → a.rc = .success → name ∉ r.files) :
    (r.step op a).Books := by
  cases op with
  | openFile name =>
    show Books (if a.rc = .success then _ else r)
    split
    · rename_i hrc
      exact hb.openFile (hname name rfl hrc)
    · exact hb
  | getThisPage id page => exact hb.hold a
  | write h d =>
    unfold PageArray.step
    dsimp only
    split
    · refine hb.of_headers rfl (fun name' => ?_) (fun id p _ hpin => ?_) hb.once fun _ _ hp => hp
      · exact Content.set_of_ne _ _ _ _ fun _ => Ne.symm hkeeps
      · exact hpin.mono fun _ hmem => hmem
    · exact hb
  | unpinPage h =>
    show Books (if _ then _ else _)
    split
    · rename_i hgives
      exact hb.giveBack hgives.1 hgives.2
    · rename_i hstays
      refine hb.unpin hb.once (fun _ _ hp => hp) fun hp => ?_
      by_contra hpin
      exact hstays ⟨hp, hpin⟩
  | allocatePage id => exact hb.allocate a
  | disposePage id page =>
    obtain ⟨hpage, name, hd, hheader, hbit⟩ := hkeeps
    show Books (if _ then _ else _)
    split
    · rename_i hpin
      exact hb.defer hpage hheader hbit hpin
    · rename_i hpin
      refine hb.dispose hpage (fun hp => hpin (hb.waiting hheader page hp).2.2) ?_
      intro name' hd' hheader'
      obtain ⟨-, rfl⟩ := Prod.mk.inj (Option.some.inj (hheader.symm.trans hheader'))
      exact hbit
  | markDirty h => exact hb
  | purgePage id page => exact hb
  | flushAllPages id => exact hb
  | poolCloseFile id => exact hb
  | closeFile name => exact hb

omit [DecidableEq F] in
@[simp] theorem header_hold : (r.hold a).header id = r.header id := by
  unfold PageArray.hold
  split
  · rfl
  · rfl

/-- `allocate_page` hands out a page that is not allocated, and allocates it. -/
theorem allocated_of_hands [Inhabited D] (hheader : r.header id = some (name, hd))
    (hcounted : hd.Counted) (hh : a.handle = some h) (hands : r.Hands (.allocatePage id) h) :
    hd.bitmap h.page = false ∧ ∃ hd', (r.step (.allocatePage id) a).header id = some (name, hd') ∧
      hd'.bitmap h.page = true := by
  obtain ⟨hfile, -⟩ := header_eq_some.mp hheader
  obtain ⟨-, name', hd₀, hheader', hpage⟩ := hands
  obtain ⟨-, rfl⟩ := Prod.mk.inj (Option.some.inj (hheader.symm.trans hheader'))
  cases hfree : hd.freePage with
  | some page =>
    rw [hfree, Option.getD_some] at hpage
    rw [hpage]
    refine ⟨(FileHeader.freePage_eq_some hfree).2, hd.reuse page, ?_, Function.update_self ..⟩
    simp only [step, PageArray.allocate, hheader, hfree, header_hold]
    exact header_eq_some.mpr ⟨hfile, Content.set_self ..⟩
  | none =>
    rw [hfree, Option.getD_none] at hpage
    rw [hpage]
    refine ⟨Bool.eq_false_iff.mpr fun hbit => absurd (hcounted.below _ hbit) (Nat.lt_irrefl _),
      hd.extend, ?_, Function.update_self ..⟩
    simp only [step, PageArray.allocate, hheader, hfree, hh, header_hold]
    exact header_eq_some.mpr ⟨hfile, Content.set_self ..⟩

/-- A page that waits goes on waiting until its last pin goes, which gives it back. -/
theorem Books.waits_step [Inhabited D] (op : PoolOp F D) (a : PoolAnswer) (hb : r.Books)
    (hheader : r.header id = some (name, hd)) (hp : p ∈ r.deferred id) :
    p ∈ (r.step op a).deferred id ∨ ∃ h, op = .unpinPage h ∧ h.pool = id ∧ h.page = p ∧
      ¬ PageArray.Pinned { r with held := r.held.erase h } id p ∧
      (r.step op a).header id = some (name, hd.dispose p) ∧ p ∉ (r.step op a).deferred id := by
  cases op with
  | openFile name' =>
    refine Or.inl ?_
    show p ∈ PageArray.deferred (if a.rc = .success then _ else r) id
    split
    · have hlt := (List.getElem?_eq_some_iff.mp (header_eq_some.mp hheader).1).1
      show p ∈ Function.update r.deferred r.files.length [] id
      rwa [Function.update_of_ne hlt.ne]
    · exact hp
  | write h d =>
    refine Or.inl ?_
    unfold PageArray.step
    dsimp only
    split
    · exact hp
    · exact hp
  | unpinPage h =>
    by_cases hgives : h.page ∈ r.deferred h.pool ∧
        ¬ PageArray.Pinned { r with held := r.held.erase h } h.pool h.page
    · have hstep : r.step (.unpinPage h) a =
          { PageArray.dispose { r with held := r.held.erase h } h.pool h.page with
            deferred := Function.update r.deferred h.pool ((r.deferred h.pool).erase h.page) } :=
        if_pos hgives
      rw [hstep]
      by_cases hsame : h.pool = id ∧ h.page = p
      · obtain ⟨rfl, rfl⟩ := hsame
        refine Or.inr ⟨h, rfl, rfl, rfl, hgives.2, ?_, ?_⟩
        · exact header_dispose (r := { r with held := r.held.erase h }) hheader
        · show h.page ∉ Function.update r.deferred h.pool _ h.pool
          rw [Function.update_self]
          exact (hb.once h.pool).not_mem_erase
      · refine Or.inl ?_
        show p ∈ Function.update r.deferred h.pool _ id
        by_cases hid : id = h.pool
        · subst hid
          rw [Function.update_self]
          exact (List.mem_erase_of_ne fun heq => hsame ⟨rfl, heq.symm⟩).mpr hp
        · rwa [Function.update_of_ne hid]
    · have hstep : r.step (.unpinPage h) a = { r with held := r.held.erase h } := if_neg hgives
      exact Or.inl (hstep ▸ hp)
  | disposePage id' page =>
    refine Or.inl ?_
    show p ∈ PageArray.deferred (if r.Pinned id' page then _ else _) id
    split
    · show p ∈ Function.update r.deferred id' _ id
      by_cases hid : id = id'
      · subst hid
        rw [Function.update_self]
        exact List.mem_insert_of_mem hp
      · rwa [Function.update_of_ne hid]
    · rwa [deferred_dispose]
  | getThisPage id' page => exact Or.inl (by rwa [PageArray.step, deferred_hold])
  | allocatePage id' => exact Or.inl (by rwa [PageArray.step, deferred_allocate])
  | markDirty h => exact Or.inl hp
  | purgePage id' page => exact Or.inl hp
  | flushAllPages id' => exact Or.inl hp
  | poolCloseFile id' => exact Or.inl hp
  | closeFile name' => exact Or.inl hp

end PageArray

variable [DecidableEq F] [Inhabited D]

namespace Simulates

variable {seen : F → ℕ → PageData D → Prop} {σ σ' : Session F D} {r : PageArray F D} {id p : ℕ}
  {pool : PoolObject F} {op : PoolOp F D} {a : PoolAnswer} {hd : FileHeader}

/-- A call that closes no file leaves the registry alone, but for a file that it opens. -/
theorem manager_of_step (hs : Simulates seen σ r) (hstep : op.step σ = some (a, σ'))
    (hclose : ¬ op.Closes) :
    σ'.store.manager = σ.store.manager ∨ ∃ name, op = .openFile name ∧ a.rc = .success ∧
      σ.store.manager.bufferPools name = none ∧
      σ'.store.manager = opened σ.store.manager name := by
  have hallowed := allowed_of_step hstep
  have hs : Simulates (fun _ _ _ => True) σ r := hs.mono fun _ _ _ _ => trivial
  have hpool : ∀ {id}, (σ.store.openPool id).isSome = true →
      ∃ pool, IsOpen σ.store.manager.pools id pool := by
    intro id hsome
    obtain ⟨pool, hpool⟩ := Option.isSome_iff_exists.mp hsome
    exact ⟨pool, openPool_eq_some.mp hpool⟩
  unfold PoolOp.step at hstep
  rw [if_pos hallowed] at hstep
  cases op with
  | openFile name =>
    obtain ⟨⟨rc, s'⟩, hcall, heq⟩ := Option.map_eq_some_iff.mp hstep
    obtain ⟨rfl, rfl⟩ := Prod.mk.inj heq
    rcases (hs.coherent.openFile name).of_eq_some hcall with ⟨hrc, hopens⟩ | ⟨-, -, hkept⟩
    · exact Or.inr ⟨name, rfl, hrc, hopens.closed, hopens.manager⟩
    · exact Or.inl hkept.manager
  | getThisPage id page =>
    obtain ⟨pool, hopen⟩ := hpool hallowed
    obtain ⟨⟨got, s'⟩, hcall, heq⟩ := Option.map_eq_some_iff.mp hstep
    obtain ⟨hkept, -⟩ := (hs.coherent.getThisPage hopen).of_eq_some hcall
    refine Or.inl ?_
    cases got <;> (obtain ⟨-, rfl⟩ := Prod.mk.inj heq; exact hkept.manager)
  | write h d =>
    obtain ⟨-, rfl⟩ := Prod.mk.inj (Option.some.inj hstep)
    exact Or.inl rfl
  | markDirty h =>
    obtain ⟨-, rfl⟩ := Prod.mk.inj (Option.some.inj hstep)
    exact Or.inl rfl
  | unpinPage h =>
    obtain ⟨hmem, hmarked⟩ := hallowed
    obtain ⟨pool, hopen, he⟩ := hs.handles h hmem
    obtain ⟨hd, -, hcont⟩ := hs.header_eq hopen
    have hloose : h.frame ∈ σ.unmarked → 1 < pinsOf σ.held h.frame := by
      intro hl
      have hrest := pinsOf_pos.mpr (hmarked hl)
      rw [pinsOf_erase hmem, Function.update_self] at hrest
      omega
    obtain ⟨s', hcall, hmanager, -⟩ := hs.coherent.unpinPage he hopen rfl
      (pinsOf_pos.mpr ⟨h, hmem, rfl⟩) hloose hcont fun _ => trivial
    obtain ⟨called, hcall', heq⟩ := Option.map_eq_some_iff.mp hstep
    obtain rfl := Option.some.inj (hcall.symm.trans hcall')
    obtain ⟨-, rfl⟩ := Prod.mk.inj heq
    exact Or.inl hmanager
  | allocatePage id =>
    obtain ⟨pool, hopen⟩ := hpool hallowed
    obtain ⟨hd, -, hcont⟩ := hs.header_eq hopen
    obtain ⟨⟨got, s'⟩, hcall, heq⟩ := Option.map_eq_some_iff.mp hstep
    obtain ⟨hkept, -⟩ := (hs.coherent.allocatePage hopen hcont).of_eq_some hcall
    refine Or.inl ?_
    cases got <;> (obtain ⟨-, rfl⟩ := Prod.mk.inj heq; exact hkept.manager)
  | disposePage id page =>
    obtain ⟨pool, hopen⟩ := hpool hallowed
    obtain ⟨hd, -, hcont⟩ := hs.header_eq hopen
    obtain ⟨⟨rc, s'⟩, s₁, hcall, hkept, -, hsuccess, hfail⟩ :=
      (hs.coherent.disposePage hopen hcont fun _ => trivial :
        ∃ r s₁, σ.store.disposePage id page = some r ∧ Kept σ.store s₁ ∧ _)
    obtain ⟨called, hcall', heq⟩ := Option.map_eq_some_iff.mp hstep
    obtain rfl := Option.some.inj (hcall.symm.trans hcall')
    obtain ⟨-, rfl⟩ := Prod.mk.inj heq
    refine Or.inl ?_
    by_cases hrc : rc = .success
    · exact (hsuccess hrc).1 ▸ hkept.manager
    · exact (hfail hrc).2 ▸ hkept.manager
  | purgePage id page =>
    obtain ⟨pool, hopen⟩ := hpool hallowed
    obtain ⟨r', hcall, -, hkept, -⟩ :=
      (hs.coherent.purgePage hopen : ∃ r, σ.store.purgePage id page = some r ∧ _)
    obtain ⟨called, hcall', heq⟩ := Option.map_eq_some_iff.mp hstep
    obtain rfl := Option.some.inj (hcall.symm.trans hcall')
    obtain ⟨-, rfl⟩ := Prod.mk.inj heq
    exact Or.inl hkept.manager
  | flushAllPages id =>
    obtain ⟨pool, hopen⟩ := hpool hallowed
    obtain ⟨s', hcall, -, hkept⟩ := hs.coherent.flushAllPages hopen
    obtain ⟨called, hcall', heq⟩ := Option.map_eq_some_iff.mp hstep
    obtain rfl := Option.some.inj (hcall.symm.trans hcall')
    obtain ⟨-, rfl⟩ := Prod.mk.inj heq
    exact Or.inl hkept.manager
  | poolCloseFile id => exact absurd trivial hclose
  | closeFile name => exact absurd trivial hclose

omit [DecidableEq F] [Inhabited D] in
/-- The header of a pool is what the array says. -/
theorem header_iff (hs : Simulates seen σ r) (hopen : IsOpen σ.store.manager.pools id pool) :
    r.header id = some (pool.fileName, hd) ↔ σ.store.fileHeader id = some hd := by
  obtain ⟨hd₀, hfile, hcont, -⟩ := hs.coherent.fileHeader_eq hopen
  have hheader : r.header id = some (pool.fileName, hd₀) :=
    PageArray.header_eq_some.mpr ⟨hs.files_eq hopen, hcont⟩
  rw [hheader, hfile]
  simp

end Simulates

/-! ## Runs -/

/-- Every call of the run keeps the books. -/
def KeepsBooksInRun : List (PoolOp F D) → Session F D → Prop
  | [], _ => True
  | op :: ops, σ => op.KeepsBooks σ ∧ ∀ p ∈ op.step σ, KeepsBooksInRun ops p.2

instance : (ops : List (PoolOp F D)) → (σ : Session F D) → Decidable (KeepsBooksInRun ops σ)
  | [], _ => inferInstanceAs (Decidable True)
  | op :: ops, σ =>
    have : ∀ σ, Decidable (KeepsBooksInRun ops σ) := fun σ => instDecidableKeepsBooksInRun ops σ
    inferInstanceAs (Decidable (op.KeepsBooks σ ∧ ∀ p ∈ op.step σ, KeepsBooksInRun ops p.2))

/-- The page waits for its last pin: it is allocated, and a client has it pinned. -/
def Waits (σ : Session F D) (id p : ℕ) : Prop :=
  p ∈ σ.store.disposedPages id ∧ (∃ hd ∈ σ.store.fileHeader id, hd.bitmap p = true) ∧
    ∃ h ∈ σ.held, h.pool = id ∧ h.page = p

/-- The call takes the last pin of the page and gives the page back. -/
def Frees (σ : Session F D) (op : PoolOp F D) (σ' : Session F D) (id p : ℕ) : Prop :=
  ∃ h hd, op = .unpinPage h ∧ h.pool = id ∧ h.page = p ∧
    (∀ h' ∈ σ.held.erase h, ¬ (h'.pool = id ∧ h'.page = p)) ∧
    σ.store.fileHeader id = some hd ∧ σ'.store.fileHeader id = some (hd.dispose p) ∧
    p ∉ σ'.store.disposedPages id

/-- The page waits in every state of the run up to a call that frees it. -/
def WaitsUntilFreed (id p : ℕ) : List (PoolOp F D) → Session F D → Prop
  | [], σ => Waits σ id p
  | op :: ops, σ => Waits σ id p ∧
      ∀ q ∈ op.step σ, Frees σ op q.2 id p ∨ WaitsUntilFreed id p ops q.2

/-- **The books of the pools**: the pools simulate an array whose books are kept, and no file has
been closed. -/
structure BooksKept (seen : F → ℕ → PageData D → Prop) (σ : Session F D) (r : PageArray F D) :
    Prop where
  simulates : Simulates seen σ r
  books : r.Books
  allOpen : ∀ {id pool}, σ.store.manager.pools[id]? = some pool →
    IsOpen σ.store.manager.pools id pool

namespace BooksKept

variable {seen : F → ℕ → PageData D → Prop} {σ σ' : Session F D} {r : PageArray F D}
  {id p : ℕ} {pool : PoolObject F} {op : PoolOp F D} {a : PoolAnswer} {hd : FileHeader}

/-- A pool stays open. -/
theorem isOpen_step (hb : BooksKept seen σ r) (hkeeps : op.KeepsBooks σ)
    (hstep : op.step σ = some (a, σ')) (hopen : IsOpen σ.store.manager.pools id pool) :
    IsOpen σ'.store.manager.pools id pool := by
  have hclose := hkeeps.not_closes
  rcases hb.simulates.manager_of_step hstep hclose with heq | ⟨name, -, -, -, heq⟩
  · exact heq ▸ hopen
  · exact heq ▸ isOpen_opened.mpr (Or.inl hopen)

/-- Every call keeps the books. -/
theorem step (hb : BooksKept seen σ r) (hkeeps : op.KeepsBooks σ)
    (hstep : op.step σ = some (a, σ')) :
    BooksKept (addSeen seen (r.step op a).content) σ' (r.step op a) := by
  have hs := hb.simulates
  have hallowed := allowed_of_step hstep
  have hclose := hkeeps.not_closes
  have hok := (hs.step hallowed (leavesNothing_of_not_closes hclose)).of_eq_some hstep
  have hmanager := hs.manager_of_step hstep hclose
  refine ⟨hok.simulates, hb.books.step ?_ ?_, fun {id pool} hpool => ?_⟩
  · cases op with
    | disposePage id page =>
      obtain ⟨hpage, hd, hfile, hbit⟩ := hkeeps
      obtain ⟨pool, hpool⟩ := Option.isSome_iff_exists.mp hallowed
      have hopen := openPool_eq_some.mp hpool
      exact ⟨hpage, pool.fileName, hd, (hs.header_iff hopen).mpr hfile, hbit⟩
    | write h d => exact hallowed.2
    | _ => trivial
  · rintro name rfl hrc hin
    rcases hmanager with heq | ⟨name', heq, -, hname, -⟩
    · -- the pool that is opened is a new one
      have hfiles : (r.step (.openFile name) a).files = r.files ++ [name] := by
        simp only [PageArray.step, hrc, if_true]
      have hlen := congrArg List.length (hok.simulates.files.symm.trans hfiles)
      simp only [heq, hs.files, List.length_map, List.length_append, List.length_singleton] at hlen
      omega
    · obtain rfl : name = name' := by injection heq
      rw [hs.files] at hin
      obtain ⟨pool, hmem, hn⟩ := List.mem_map.mp hin
      obtain ⟨id, hid⟩ := List.getElem?_of_mem hmem
      have hsome := (hs.coherent.registry.names name id).mpr ⟨pool, hb.allOpen hid, hn⟩
      rw [hname] at hsome
      cases hsome
  · rcases hmanager with heq | ⟨name, -, -, -, heq⟩
    · exact heq ▸ hb.allOpen (heq ▸ hpool)
    · rw [heq] at hpool ⊢
      rcases (getElem?_concat_iff _).mp hpool with hold | ⟨rfl, rfl⟩
      · exact isOpen_opened.mpr (Or.inl (hb.allOpen hold))
      · exact isOpen_opened.mpr (Or.inr ⟨rfl, rfl⟩)

/-- The books are kept along a run. -/
theorem run (hb : BooksKept seen σ r) {ops : List (PoolOp F D)} {as : List PoolAnswer}
    (hkeeps : KeepsBooksInRun ops σ) (hrun : runPool ops σ = some (as, σ')) :
    ∃ seen' r', BooksKept seen' σ' r' := by
  induction ops generalizing seen σ r as with
  | nil =>
    cases hrun
    exact ⟨seen, r, hb⟩
  | cons op ops ih =>
    simp only [runPool, Option.bind_eq_bind, Option.bind_eq_some_iff] at hrun
    obtain ⟨⟨a, σ₁⟩, hstep, ⟨as₁, σ₂⟩, hrest, heq⟩ := hrun
    cases heq
    exact ih (hb.step hkeeps.1 hstep) (hkeeps.2 _ hstep) hrest

omit [DecidableEq F] [Inhabited D] in
/-- The header of an open file. -/
theorem header (hb : BooksKept seen σ r) (hopen : IsOpen σ.store.manager.pools id pool) :
    ∃ hd, σ.store.fileHeader id = some hd ∧ r.header id = some (pool.fileName, hd) ∧
      hd.Counted ∧ hd.bitmap 0 = true := by
  obtain ⟨hd, hfile, hcont, -⟩ := hb.simulates.coherent.fileHeader_eq hopen
  exact ⟨hd, hfile, (hb.simulates.header_iff hopen).mpr hfile, hb.books.counted _ hd hcont⟩

omit [DecidableEq F] [Inhabited D] in
/-- A page in `disposed_pages` is allocated and pinned. -/
theorem waits (hb : BooksKept seen σ r) (hopen : IsOpen σ.store.manager.pools id pool)
    (hp : p ∈ σ.store.disposedPages id) : Waits σ id p := by
  obtain ⟨hd, hfile, hheader, -⟩ := hb.header hopen
  rw [← hb.simulates.deferred hopen] at hp
  obtain ⟨hne, hbit, hpin⟩ := hb.books.waiting hheader p hp
  refine ⟨hb.simulates.deferred hopen ▸ hp, ⟨hd, hfile, hbit⟩, ?_⟩
  rw [← hb.simulates.held]
  exact hpin.resolve_left hne

/-- A page that waits is freed by its last unpin. -/
theorem waitsUntilFreed (hb : BooksKept seen σ r) {ops : List (PoolOp F D)}
    (hopen : IsOpen σ.store.manager.pools id pool) (hp : p ∈ σ.store.disposedPages id)
    (hkeeps : KeepsBooksInRun ops σ) : WaitsUntilFreed id p ops σ := by
  induction ops generalizing seen σ r with
  | nil => exact hb.waits hopen hp
  | cons op ops ih =>
    refine ⟨hb.waits hopen hp, ?_⟩
    rintro ⟨a, σ'⟩ hstep
    have hb' := hb.step hkeeps.1 hstep
    have hopen' := hb.isOpen_step hkeeps.1 hstep hopen
    obtain ⟨hd, hfile, hheader, -⟩ := hb.header hopen
    have hp' := hb.simulates.deferred hopen ▸ hp
    rcases hb.books.waits_step op a hheader hp' with
      hstill | ⟨h, rfl, hpool, hpage, hlast, hheader', hgone⟩
    · rw [hb'.simulates.deferred hopen'] at hstill
      exact Or.inr (ih hb' hopen' hstill (hkeeps.2 _ hstep))
    · rw [hb'.simulates.deferred hopen'] at hgone
      refine Or.inl ⟨h, hd, rfl, hpool, hpage, fun h' hmem hsame => hlast (Or.inr ⟨h', ?_, hsame⟩),
        hfile, (hb'.simulates.header_iff hopen').mp hheader', hgone⟩
      rwa [hb.simulates.held]

end BooksKept

section Created

variable {used : List ℕ} {frames : ℕ} {disk : F → List (Page D)} {ops : List (PoolOp F D)}
  {as : List PoolAnswer} {σ : Session F D}

omit [DecidableEq F] in
/-- The books of files that have just been created. -/
theorem booksKept_init (hdisk : ∀ name, disk name = [] ∨ disk name = createdFile) :
    BooksKept (fun _ _ _ => True) (Session.init used frames disk) (PageArray.init disk) := by
  have hheader : ∀ name hd, (PageArray.init disk).content name 0 = some (.header hd) →
      hd = createdHeader := by
    intro name hd hcont
    have hcont : (disk name)[0]?.map (·.data) = some (.header hd) := hcont
    rcases hdisk name with hnone | hcreated
    · rw [hnone] at hcont
      cases hcont
    · rw [hcreated] at hcont
      injection hcont with hcont
      injection hcont with hcont
      exact hcont.symm
  have hformed : ∀ name, WellFormed (disk name) := by
    intro name
    rcases hdisk name with hnone | hcreated
    · rw [hnone]
      exact ⟨nofun, nofun⟩
    · rw [hcreated]
      refine ⟨fun n page hpage => ?_, fun page hpage => ?_⟩
      · obtain ⟨hlt, rfl⟩ := List.getElem?_eq_some_iff.mp hpage
        obtain rfl : n = 0 := Nat.lt_one_iff.mp hlt
        rfl
      · cases hpage
        exact ⟨createdHeader, rfl, le_rfl⟩
  refine ⟨simulates_init hformed fun _ _ _ _ => trivial,
    ⟨List.nodup_nil, ?_, fun _ => List.nodup_nil, nofun⟩, nofun⟩
  intro name hd hcont
  exact hheader name hd hcont ▸ ⟨createdHeader_counted, rfl⟩

/-- **The page allocation books.** After any run on created files in which only allocated pages are
given back and no file is closed, the header of every open file counts its pages, with none set
behind the end and its own page allocated. `allocate_page` hands out a page that was not allocated.
A page that is given back while it is pinned stays allocated up to its last `unpin_page`, and that
call frees it; any other page is freed at once. -/
theorem page_allocation_books (hdisk : ∀ name, disk name = [] ∨ disk name = createdFile)
    (hrun : runPool ops (Session.init used frames disk) = some (as, σ))
    (hkeeps : KeepsBooksInRun ops (Session.init used frames disk)) :
    (∀ id, (σ.store.openPool id).isSome → ∃ hd, σ.store.fileHeader id = some hd ∧
      hd.Counted ∧ hd.bitmap 0 = true) ∧
    (∀ id a σ' h, (PoolOp.allocatePage id).step σ = some (a, σ') → a.handle = some h →
      ∃ hd hd', σ.store.fileHeader id = some hd ∧ hd.bitmap h.page = false ∧
        σ'.store.fileHeader id = some hd' ∧ hd'.bitmap h.page = true) ∧
    ∀ id p a σ', (PoolOp.disposePage id p).KeepsBooks σ →
      (PoolOp.disposePage id p).step σ = some (a, σ') →
      ∃ hd, σ.store.fileHeader id = some hd ∧
        if ∃ h ∈ σ.held, h.pool = id ∧ h.page = p then
          σ'.store.fileHeader id = some hd ∧
            ∀ more, KeepsBooksInRun more σ' → WaitsUntilFreed id p more σ'
        else
          σ'.store.fileHeader id = some (hd.dispose p) ∧ p ∉ σ'.store.disposedPages id := by
  obtain ⟨seen, r, hb⟩ := (booksKept_init hdisk).run hkeeps hrun
  refine ⟨fun id hsome => ?_, fun id a σ' h hstep hh => ?_, fun id p a σ' hkeep hstep => ?_⟩
  · obtain ⟨pool, hpool⟩ := Option.isSome_iff_exists.mp hsome
    obtain ⟨hd, hfile, -, hcounted⟩ := hb.header (openPool_eq_some.mp hpool)
    exact ⟨hd, hfile, hcounted⟩
  · obtain ⟨pool, hpool⟩ := Option.isSome_iff_exists.mp (allowed_of_step hstep)
    have hopen := openPool_eq_some.mp hpool
    obtain ⟨hd, hfile, hheader, hcounted, -⟩ := hb.header hopen
    have hkeep : (PoolOp.allocatePage id).KeepsBooks σ := trivial
    have hb' := hb.step hkeep hstep
    have hopen' := hb.isOpen_step hkeep hstep hopen
    have hok := (hb.simulates.step (allowed_of_step hstep) trivial).of_eq_some hstep
    obtain ⟨hclear, hd', hheader', hset⟩ :=
      PageArray.allocated_of_hands hheader hcounted hh (hok.returned h hh).2
    exact ⟨hd, hd', hfile, hclear, (hb'.simulates.header_iff hopen').mp hheader', hset⟩
  · obtain ⟨pool, hpool⟩ := Option.isSome_iff_exists.mp (allowed_of_step hstep)
    have hopen := openPool_eq_some.mp hpool
    obtain ⟨hd, hfile, hheader, -⟩ := hb.header hopen
    have hb' := hb.step hkeep hstep
    have hopen' := hb.isOpen_step hkeep hstep hopen
    have hpinned : r.Pinned id p ↔ ∃ h ∈ σ.held, h.pool = id ∧ h.page = p := by
      unfold PageArray.Pinned
      rw [hb.simulates.held]
      exact or_iff_right hkeep.1
    refine ⟨hd, hfile, ?_⟩
    split
    · rename_i hpin
      have hstep' : r.step (.disposePage id p) a = { r with
          deferred := Function.update r.deferred id ((r.deferred id).insert p) } :=
        if_pos (hpinned.mpr hpin)
      rw [hstep'] at hb'
      refine ⟨(hb'.simulates.header_iff hopen').mp hheader, fun more hmore => ?_⟩
      refine hb'.waitsUntilFreed hopen' ?_ hmore
      rw [← hb'.simulates.deferred hopen']
      show p ∈ Function.update r.deferred id _ id
      rw [Function.update_self]
      exact List.mem_insert_self
    · rename_i hpin
      have hpin : ¬ r.Pinned id p := fun hp => hpin (hpinned.mp hp)
      have hstep' : r.step (.disposePage id p) a = r.dispose id p := if_neg hpin
      rw [hstep'] at hb'
      refine ⟨(hb'.simulates.header_iff hopen').mp (PageArray.header_dispose hheader), ?_⟩
      rw [← hb'.simulates.deferred hopen', PageArray.deferred_dispose]
      exact fun hp => hpin (hb.books.waiting hheader p hp).2.2

/-- Page 1 is given back while it is pinned twice, freed by the second unpin and taken again. -/
theorem page_allocation_books_run : ∃ as σ,
    runPool [.openFile 0, .allocatePage 0, .getThisPage 0 1, .disposePage 0 1,
      .unpinPage ⟨0, 1, 1⟩, .unpinPage ⟨0, 1, 1⟩, .allocatePage 0]
      (Session.init [0, 1, 2] 2 fun _ : ℕ => (createdFile : List (Page ℕ))) = some (as, σ) ∧
    ∃ hd, σ.store.fileHeader 0 = some hd ∧ hd.Counted ∧ hd.bitmap 0 = true := by
  have hopen : ((runPool [.openFile 0, .allocatePage 0, .getThisPage 0 1, .disposePage 0 1,
      .unpinPage ⟨0, 1, 1⟩, .unpinPage ⟨0, 1, 1⟩, .allocatePage 0]
      (Session.init [0, 1, 2] 2 fun _ : ℕ => (createdFile : List (Page ℕ)))).any fun p =>
        (p.2.store.openPool 0).isSome) = true := by decide
  obtain ⟨⟨as, σ⟩, hrun, hsome⟩ := (Option.any_eq_true _ _).mp hopen
  have hbooks := page_allocation_books (fun _ => Or.inr rfl) hrun (by decide)
  exact ⟨as, σ, hrun, hbooks.1 0 hsome⟩

end Created

end Miniob.Storage.DiskBufferPool
