import Miniob.Storage.Record.RecordManager
import Mathlib.Data.Finset.Insert

/-!
# What the operations on a record report

`RecordFileHandler` fetches the page of a record, lets a `RecordPageHandler` work on it, and the
handler unpins the page when it is destroyed. `delete_record`, `get_record` and
`update_record_in_place` compare the return code of the fetch with their own instead of assigning
it, and so report a page that cannot be fetched as a success. None of the operations asks whether
the page is allocated.

* `PinnedFile`: a data file with the pins on its pages; `Outcomes`: what the calls of the buffer
  pool answer.
* `RecordOp.run`: the four operations.
* `Reports`: a success means that the operation has been performed on a live record, and a failure
  changes nothing.
* `reports_iff`: this is so if and only if `RecordOp.Meets` holds.

A page that waits to be given back is given back by the call that takes its last pin. A slot number
is not negative.
-/

namespace Miniob.Storage.Record

open Miniob.Storage.DiskBufferPool

variable {R : Type}

/-! ## The pages and their pins -/

/-- A data file, as the buffer pool and the file handler see it. -/
structure PinnedFile (R : Type) where
  /-- The pages. What page 0 has is read as a page of records, too. -/
  page : Int → RecordPage R
  /-- `file_header_` -/
  header : FileHeader
  /-- `pin_count_` of the frame of a page. -/
  pins : Int → ℕ
  /-- `disposed_pages` -/
  disposedPages : Finset Int
  /-- `free_pages_` -/
  freePages : Finset Int

/-- What the calls of the buffer pool inside an operation answer. -/
structure Outcomes where
  /-- `get_this_page` -/
  fetch : RC
  /-- Writing the page back when `unpin_page` gives it back. -/
  deferred : RC
  /-- Writing the page back when `delete_record` gives it back. -/
  dispose : RC

/-- What `get_this_page` answers for a page. No file has a page of a negative number. -/
def Outcomes.fetchPage (o : Outcomes) (p : Int) : RC :=
  if o.fetch = .success ∧ p < 0 then .ioerrSeek else o.fetch

namespace PinnedFile

/-- Change a page. -/
def setPage (s : PinnedFile R) (p : Int) (page : RecordPage R) : PinnedFile R :=
  { s with page := Function.update s.page p page }

/-- Change the pins on a page. -/
def setPins (s : PinnedFile R) (p : Int) (n : ℕ) : PinnedFile R :=
  { s with pins := Function.update s.pins p n }

/-- Fetch a page. Source: `record_manager.cpp`, `RecordPageHandler::init` -/
def init (s : PinnedFile R) (o : Outcomes) (p : Int) : Except RC (PinnedFile R) :=
  if o.fetchPage p = .success then .ok (s.setPins p (s.pins p + 1)) else .error (o.fetchPage p)

/-- A page that is pinned or cannot be written back has to wait.
Source: `disk_buffer_pool.cpp`, `DiskBufferPool::dispose_page`, `DiskBufferPool::purge_page` -/
def disposePage (s : PinnedFile R) (written : RC) (p : Int) : PinnedFile R :=
  if 0 < s.pins p ∨ written ≠ .success then { s with disposedPages := insert p s.disposedPages }
  else { s with header := s.header.dispose p.toNat }

/-- Unpin the page.
Source: `record_manager.cpp`, `RecordPageHandler::cleanup`; `disk_buffer_pool.cpp`,
`DiskBufferPool::unpin_page` -/
def cleanup (s : PinnedFile R) (o : Outcomes) (p : Int) : PinnedFile R :=
  if s.pins p - 1 = 0 ∧ p ∈ s.disposedPages then
    let s := (s.setPins p (s.pins p - 1)).disposePage o.deferred p
    { s with disposedPages := s.disposedPages.erase p }
  else s.setPins p (s.pins p - 1)

/-- The page is allocated for records. -/
def Allocated (s : PinnedFile R) (p : Int) : Prop :=
  0 < p ∧ p < s.header.pageCount ∧ s.header.bitmap p.toNat = true

/-- The file has a record in the slot. -/
def Live (s : PinnedFile R) (p : Int) (slot : ℕ) : Prop := s.Allocated p ∧ (s.page p).used slot

/-- The file, `free_pages_` and the pins are the same. -/
def Unchanged (s s' : PinnedFile R) : Prop :=
  s'.page = s.page ∧ s'.header = s.header ∧ s'.freePages = s.freePages ∧ s'.pins = s.pins

end PinnedFile

/-! ## The operations -/

/-- What an operation returns and leaves. -/
structure OpResult (R : Type) where
  /-- The return code. -/
  rc : RC
  /-- The record that it returns. -/
  record : Option R
  /-- The file. -/
  file : PinnedFile R

/-- The operations on a record. -/
inductive RecordOp (R : Type)
  /-- `update_record` -/
  | update (data : R)
  /-- `delete_record` -/
  | delete
  /-- `get_record` -/
  | get
  /-- `update_record_in_place`. The updater changes the record where it is. -/
  | updateInPlace (updater : R → RC × R)

namespace PinnedFile

/-- Source: `record_manager.cpp`, `RecordFileHandler::update_record` -/
def updateRecord (s : PinnedFile R) (o : Outcomes) (p : Int) (slot : ℕ) (data : R) : OpResult R :=
  match s.init o p with
  | .ok s =>
    match (s.page p).updateRecord slot data with
    | .ok page => ⟨.success, none, (s.setPage p page).cleanup o p⟩
    | .error rc => ⟨rc, none, s.cleanup o p⟩
  | .error rc => ⟨rc, none, s⟩

/-- The return code of the fetch is lost. A page that has become empty is unpinned and given back.
Source: `record_manager.cpp`, `RecordFileHandler::delete_record`,
`RecordPageHandler::delete_record` -/
def deleteRecord (s : PinnedFile R) (o : Outcomes) (p : Int) (slot : ℕ) : OpResult R :=
  match s.init o p with
  | .ok s =>
    match (s.page p).deleteRecord slot with
    | .ok page =>
      let s := (s.setPage p page).cleanup o p
      let s := if page.recordNum = 0 then s.disposePage o.dispose p else s
      ⟨.success, none, { s with freePages := insert p s.freePages }⟩
    | .error rc => ⟨rc, none, s.cleanup o p⟩
  | .error _ => ⟨.success, none, s⟩

/-- The return code of the fetch is lost.
Source: `record_manager.cpp`, `RecordFileHandler::get_record` -/
def getRecord (s : PinnedFile R) (o : Outcomes) (p : Int) (slot : ℕ) : OpResult R :=
  match s.init o p with
  | .ok s =>
    match (s.page p).getRecord slot with
    | .ok data => ⟨.success, some data, s.cleanup o p⟩
    | .error rc => ⟨rc, none, s.cleanup o p⟩
  | .error _ => ⟨.success, none, s⟩

/-- The return code of the fetch is lost.
Source: `record_manager.h`, `RecordFileHandler::update_record_in_place`,
`RecordPageHandler::update_record_in_place` -/
def updateRecordInPlace (s : PinnedFile R) (o : Outcomes) (p : Int) (slot : ℕ)
    (updater : R → RC × R) : OpResult R :=
  match s.init o p with
  | .ok s =>
    match (s.page p).getRecord slot with
    | .ok data =>
      let page := { s.page p with slots := Function.update (s.page p).slots slot (updater data).2 }
      ⟨(updater data).1, none, (s.setPage p page).cleanup o p⟩
    | .error rc => ⟨rc, none, s.cleanup o p⟩
  | .error _ => ⟨.success, none, s⟩

end PinnedFile

namespace RecordOp

/-- An operation on a record. -/
def run (op : RecordOp R) (s : PinnedFile R) (o : Outcomes) (p : Int) (slot : ℕ) : OpResult R :=
  match op with
  | update data => s.updateRecord o p slot data
  | delete => s.deleteRecord o p slot
  | get => s.getRecord o p slot
  | updateInPlace updater => s.updateRecordInPlace o p slot updater

/-- The page as it is when the operation has been performed. -/
def result (op : RecordOp R) (page : RecordPage R) (slot : ℕ) : RecordPage R :=
  match op with
  | update data => { page with slots := Function.update page.slots slot data }
  | delete => page.clear slot
  | get => page
  | updateInPlace updater =>
    { page with slots := Function.update page.slots slot (updater (page.slots slot)).2 }

/-- The return code of the operation on a record that is there. -/
def answer (op : RecordOp R) (page : RecordPage R) (slot : ℕ) : RC :=
  match op with
  | updateInPlace updater => (updater (page.slots slot)).1
  | _ => .success

/-- The record that the operation returns. -/
def returned (op : RecordOp R) (page : RecordPage R) (slot : ℕ) : Option R :=
  match op with
  | get => some (page.slots slot)
  | _ => none

end RecordOp

/-! ## Reports -/

/-- A success means that the operation has been performed on a live record, a page that cannot be
fetched is reported, and a failure changes nothing. -/
structure Reports (op : RecordOp R) (s : PinnedFile R) (o : Outcomes) (p : Int) (slot : ℕ) :
    Prop where
  success : (op.run s o p slot).rc = .success → s.Live p slot ∧
    (op.run s o p slot).record = op.returned (s.page p) slot ∧
    (op.run s o p slot).file.page = Function.update s.page p (op.result (s.page p) slot)
  fetch : o.fetchPage p ≠ .success → (op.run s o p slot).rc = o.fetchPage p
  failure : (op.run s o p slot).rc ≠ .success → s.Unchanged (op.run s o p slot).file

/-- The page is given back by the call that unpins it. -/
def PinnedFile.GivenBack (s : PinnedFile R) (o : Outcomes) (p : Int) : Prop :=
  s.pins p = 0 ∧ p ∈ s.disposedPages ∧ o.deferred = .success

/-- The page is fetched, or the operation is `update_record`. An operation that succeeds on what it
finds in the page has an allocated page. One that fails leaves the record as it is, and its page is
not one that waits without a pin to be given back. -/
def RecordOp.Meets (op : RecordOp R) (s : PinnedFile R) (o : Outcomes) (p : Int) (slot : ℕ) :
    Prop :=
  if o.fetchPage p = .success then
    if (s.page p).used slot then
      if op.answer (s.page p) slot = .success then s.Allocated p
      else op.result (s.page p) slot = s.page p ∧ ¬ s.GivenBack o p
    else ¬ s.GivenBack o p
  else ∃ data, op = .update data

/-! ## Free slots -/

namespace RecordPage

variable {page : RecordPage R} {slot : ℕ}

theorem updateRecord_of_free (hfree : ¬ page.used slot) (data : R) :
    ∃ rc, page.updateRecord slot data = .error rc ∧ rc ≠ .success := by
  unfold updateRecord
  split_ifs with hle hbit
  · exact ⟨_, rfl, nofun⟩
  · exact absurd ⟨not_le.mp hle, hbit⟩ hfree
  · exact ⟨_, rfl, nofun⟩

theorem deleteRecord_of_free (hfree : ¬ page.used slot) :
    ∃ rc, page.deleteRecord slot = .error rc ∧ rc ≠ .success := by
  unfold deleteRecord
  split_ifs with hle hbit
  · exact ⟨_, rfl, nofun⟩
  · exact absurd ⟨not_le.mp hle, hbit⟩ hfree
  · exact ⟨_, rfl, nofun⟩

theorem getRecord_of_free (hfree : ¬ page.used slot) :
    ∃ rc, page.getRecord slot = .error rc ∧ rc ≠ .success := by
  unfold getRecord
  split_ifs with hle hbit
  · exact ⟨_, rfl, nofun⟩
  · exact absurd ⟨not_le.mp hle, hbit⟩ hfree
  · exact ⟨_, rfl, nofun⟩

end RecordPage

/-! ## Unpinning -/

namespace PinnedFile

variable {s : PinnedFile R} {o : Outcomes} {p : Int}

@[simp] theorem setPins_page (n : ℕ) : (s.setPins p n).page = s.page := rfl

theorem cleanup_page : (s.cleanup o p).page = s.page := by
  unfold cleanup disposePage
  split_ifs <;> rfl

theorem disposePage_page {rc : RC} : (s.disposePage rc p).page = s.page := by
  unfold disposePage
  split <;> rfl

theorem cleanup_freePages : (s.cleanup o p).freePages = s.freePages := by
  unfold cleanup disposePage
  split_ifs <;> rfl

theorem cleanup_pins : (s.cleanup o p).pins = Function.update s.pins p (s.pins p - 1) := by
  unfold cleanup disposePage
  split_ifs <;> rfl

/-- The header changes if the page is given back. -/
theorem cleanup_header_iff (n : ℕ) (hn : s.pins p = n + 1) :
    (s.cleanup o p).header = s.header ↔
      ¬ (n = 0 ∧ p ∈ s.disposedPages ∧ o.deferred = .success) := by
  have hdispose : s.header.dispose p.toNat ≠ s.header := by
    intro heq
    have := congrArg FileHeader.allocatedPages heq
    unfold FileHeader.dispose at this
    simp only at this
    omega
  have hpins : (s.setPins p 0).pins p = 0 := Function.update_self ..
  unfold cleanup
  rw [hn, Nat.add_sub_cancel]
  by_cases hwaits : n = 0 ∧ p ∈ s.disposedPages
  · rw [if_pos hwaits]
    obtain ⟨rfl, hmem⟩ := hwaits
    unfold disposePage
    rw [hpins]
    by_cases hsuccess : o.deferred = .success
    · rw [if_neg (by simp [hsuccess])]
      exact iff_of_false hdispose (not_not.mpr ⟨rfl, hmem, hsuccess⟩)
    · rw [if_pos (Or.inr hsuccess)]
      exact iff_of_true rfl fun h => hsuccess h.2.2
  · rw [if_neg hwaits]
    exact iff_of_true rfl fun h => hwaits ⟨h.1, h.2.1⟩

/-- The page has been fetched and `page` written to it, and is unpinned again. -/
def after (s : PinnedFile R) (o : Outcomes) (p : Int) (page : RecordPage R) : PinnedFile R :=
  ((s.setPins p (s.pins p + 1)).setPage p page).cleanup o p

theorem after_page (page : RecordPage R) :
    (s.after o p page).page = Function.update s.page p page :=
  cleanup_page

theorem after_pins (page : RecordPage R) : (s.after o p page).pins = s.pins := by
  unfold after
  rw [cleanup_pins]
  show Function.update (Function.update s.pins p (s.pins p + 1)) p
    (Function.update s.pins p (s.pins p + 1) p - 1) = s.pins
  rw [Function.update_self, Nat.add_sub_cancel, Function.update_idem, Function.update_eq_self]

/-- Nothing has changed if the page has not and it has not been given back. -/
theorem unchanged_after (page : RecordPage R) :
    s.Unchanged (s.after o p page) ↔ page = s.page p ∧ ¬ s.GivenBack o p := by
  have hheader : (s.after o p page).header = s.header ↔ ¬ s.GivenBack o p :=
    cleanup_header_iff (s.pins p) (Function.update_self ..)
  unfold Unchanged
  rw [after_page, hheader, after_pins, after, cleanup_freePages]
  constructor
  · rintro ⟨hpage, hback, -, -⟩
    refine ⟨?_, hback⟩
    have := congrFun hpage p
    rwa [Function.update_self] at this
  · rintro ⟨rfl, hback⟩
    exact ⟨Function.update_eq_self _ _, hback, rfl, rfl⟩

theorem after_self : (s.setPins p (s.pins p + 1)).cleanup o p = s.after o p (s.page p) := by
  unfold after setPage
  rw [setPins_page, Function.update_eq_self]
  rfl

end PinnedFile

/-! ## The operations, case by case -/

namespace RecordOp

open PinnedFile

variable {op : RecordOp R} {s : PinnedFile R} {o : Outcomes} {p : Int} {slot : ℕ}

/-- The page cannot be fetched: only `update_record` reports it. -/
theorem run_of_error (h : o.fetchPage p ≠ .success) : op.run s o p slot =
    ⟨match op with | update _ => o.fetchPage p | _ => .success, none, s⟩ := by
  have hinit : s.init o p = .error (o.fetchPage p) := if_neg h
  cases op with
  | update data =>
    show s.updateRecord o p slot data = _
    rw [updateRecord, hinit]
  | delete =>
    show s.deleteRecord o p slot = _
    rw [deleteRecord, hinit]
  | get =>
    show s.getRecord o p slot = _
    rw [PinnedFile.getRecord, hinit]
  | updateInPlace updater =>
    show s.updateRecordInPlace o p slot updater = _
    rw [updateRecordInPlace, hinit]

/-- The slot is free or out of range: this is an error, and the page is unpinned. -/
theorem run_of_free (h : o.fetchPage p = .success) (hfree : ¬ (s.page p).used slot) :
    ∃ rc, op.run s o p slot = ⟨rc, none, s.after o p (s.page p)⟩ ∧ rc ≠ .success := by
  have hinit : s.init o p = .ok (s.setPins p (s.pins p + 1)) := if_pos h
  rw [← after_self]
  cases op with
  | update data =>
    obtain ⟨rc, hpage, hrc⟩ := RecordPage.updateRecord_of_free hfree data
    refine ⟨rc, ?_, hrc⟩
    show s.updateRecord o p slot data = _
    rw [updateRecord, hinit]
    dsimp only
    rw [setPins_page, hpage]
  | delete =>
    obtain ⟨rc, hpage, hrc⟩ := RecordPage.deleteRecord_of_free hfree
    refine ⟨rc, ?_, hrc⟩
    show s.deleteRecord o p slot = _
    rw [deleteRecord, hinit]
    dsimp only
    rw [setPins_page, hpage]
  | get =>
    obtain ⟨rc, hpage, hrc⟩ := RecordPage.getRecord_of_free hfree
    refine ⟨rc, ?_, hrc⟩
    show s.getRecord o p slot = _
    rw [PinnedFile.getRecord, hinit]
    dsimp only
    rw [setPins_page, hpage]
  | updateInPlace updater =>
    obtain ⟨rc, hpage, hrc⟩ := RecordPage.getRecord_of_free hfree
    refine ⟨rc, ?_, hrc⟩
    show s.updateRecordInPlace o p slot updater = _
    rw [updateRecordInPlace, hinit]
    dsimp only
    rw [setPins_page, hpage]

/-- The slot is in use: the operation is performed. -/
theorem run_of_used (h : o.fetchPage p = .success) (hused : (s.page p).used slot) :
    (op.run s o p slot).rc = op.answer (s.page p) slot ∧
      (op.run s o p slot).record = op.returned (s.page p) slot ∧
      (op.run s o p slot).file.page = Function.update s.page p (op.result (s.page p) slot) ∧
      (op.answer (s.page p) slot ≠ .success →
        (op.run s o p slot).file = s.after o p (op.result (s.page p) slot)) := by
  have hinit : s.init o p = .ok (s.setPins p (s.pins p + 1)) := if_pos h
  have hle := not_le.mpr hused.1
  have hbit : ¬ ¬ (s.page p).bitmap slot = true := not_not.mpr hused.2
  have hget : (s.page p).getRecord slot = .ok ((s.page p).slots slot) := by
    rw [RecordPage.getRecord, if_neg hle, if_neg hbit]
  cases op with
  | update data =>
    have hpage : (s.page p).updateRecord slot data = .ok ((update data).result (s.page p) slot) := by
      rw [RecordPage.updateRecord, if_neg hle, if_neg hbit]
      rfl
    have hrun : (update data).run s o p slot =
        ⟨.success, none, s.after o p ((update data).result (s.page p) slot)⟩ := by
      show s.updateRecord o p slot data = _
      rw [updateRecord, hinit]
      dsimp only
      rw [setPins_page, hpage]
      rfl
    rw [hrun]
    exact ⟨rfl, rfl, after_page _, fun hne => absurd rfl hne⟩
  | delete =>
    have hpage : (s.page p).deleteRecord slot = .ok ((s.page p).clear slot) := by
      rw [RecordPage.deleteRecord, if_neg hle, if_neg hbit]
    have hrun : ∃ file, delete.run s o p slot = ⟨.success, none, file⟩ ∧
        file.page = Function.update s.page p ((s.page p).clear slot) := by
      show ∃ file, s.deleteRecord o p slot = _ ∧ _
      rw [deleteRecord, hinit]
      dsimp only
      rw [setPins_page, hpage]
      refine ⟨_, rfl, ?_⟩
      show (ite _ _ _ : PinnedFile R).page = _
      split
      · rw [disposePage_page]
        exact after_page _
      · exact after_page _
    obtain ⟨file, hrun, hfile⟩ := hrun
    rw [hrun]
    exact ⟨rfl, rfl, hfile, fun hne => absurd rfl hne⟩
  | get =>
    have hrun : get.run s o p slot =
        ⟨.success, some ((s.page p).slots slot), s.after o p (s.page p)⟩ := by
      show s.getRecord o p slot = _
      rw [PinnedFile.getRecord, hinit]
      dsimp only
      rw [setPins_page, hget, after_self]
    rw [hrun]
    exact ⟨rfl, rfl, after_page _, fun hne => absurd rfl hne⟩
  | updateInPlace updater =>
    have hrun : (updateInPlace updater).run s o p slot =
        ⟨(updater ((s.page p).slots slot)).1, none,
          s.after o p ((updateInPlace updater).result (s.page p) slot)⟩ := by
      show s.updateRecordInPlace o p slot updater = _
      rw [updateRecordInPlace, hinit]
      dsimp only
      rw [setPins_page, hget]
      rfl
    rw [hrun]
    exact ⟨rfl, rfl, after_page _, fun _ => rfl⟩

end RecordOp

/-! ## What is reported -/

/-- An operation reports what it has done if and only if its page is fetched, unless it is
`update_record`; it has an allocated page if it succeeds; and if it fails, the record is as it was
and the page is not given back when it is unpinned. -/
theorem reports_iff (op : RecordOp R) (s : PinnedFile R) (o : Outcomes) (p : Int) (slot : ℕ) :
    Reports op s o p slot ↔ op.Meets s o p slot := by
  unfold RecordOp.Meets
  split_ifs with hfetch hused hanswer
  · obtain ⟨hrc, hrecord, hpage, -⟩ := @RecordOp.run_of_used R op s o p slot hfetch hused
    rw [hanswer] at hrc
    constructor
    · intro h
      exact (h.success hrc).1.1
    · intro halloc
      exact ⟨fun _ => ⟨⟨halloc, hused⟩, hrecord, hpage⟩, fun hne => absurd hfetch hne,
        fun hne => absurd hrc hne⟩
  · obtain ⟨hrc, -, -, hfile⟩ := @RecordOp.run_of_used R op s o p slot hfetch hused
    have hfile := hfile hanswer
    rw [← hrc] at hanswer
    constructor
    · intro h
      have := h.failure hanswer
      rwa [hfile, PinnedFile.unchanged_after] at this
    · intro h
      refine ⟨fun heq => absurd heq hanswer, fun hne => absurd hfetch hne, fun _ => ?_⟩
      rw [hfile, PinnedFile.unchanged_after]
      exact h
  · obtain ⟨rc, hrun, hrc⟩ := @RecordOp.run_of_free R op s o p slot hfetch hused
    constructor
    · intro h
      have := h.failure (by rw [hrun]; exact hrc)
      rw [hrun, PinnedFile.unchanged_after] at this
      exact this.2
    · intro h
      refine ⟨fun heq => absurd heq (by rw [hrun]; exact hrc), fun hne => absurd hfetch hne,
        fun _ => ?_⟩
      rw [hrun, PinnedFile.unchanged_after]
      exact ⟨rfl, h⟩
  · have hrun := @RecordOp.run_of_error R op s o p slot hfetch
    constructor
    · intro h
      have hrc := h.fetch hfetch
      rw [hrun] at hrc
      cases op with
      | update data => exact ⟨data, rfl⟩
      | delete => exact absurd hrc.symm hfetch
      | get => exact absurd hrc.symm hfetch
      | updateInPlace updater => exact absurd hrc.symm hfetch
    · rintro ⟨data, rfl⟩
      refine ⟨fun heq => ?_, fun _ => by rw [hrun], fun _ => ?_⟩
      · rw [hrun] at heq
        exact absurd heq hfetch
      · rw [hrun]
        exact ⟨rfl, rfl, rfl, rfl⟩

/-- A file with one page of four slots, of which none is in use. -/
def onePageFile : PinnedFile ℕ where
  page := fun _ => ⟨0, 4, fun _ => false, fun _ => 0⟩
  header := ⟨2, 2, fun i => i < 2⟩
  pins := fun _ => 0
  disposedPages := ∅
  freePages := {1}

/-- The page of the record cannot be fetched, as there is no frame: a delete and a read that have
not taken place are reported as successes, and only the update is an error. -/
theorem fetch_error_lost : ¬ Reports .delete onePageFile ⟨.nomem, .success, .success⟩ 1 0 ∧
    ¬ Reports .get onePageFile ⟨.nomem, .success, .success⟩ 1 0 ∧
    (RecordOp.run .delete onePageFile ⟨.nomem, .success, .success⟩ 1 0).rc = .success ∧
    (RecordOp.run .get onePageFile ⟨.nomem, .success, .success⟩ 1 0).rc = .success ∧
    (RecordOp.run (.update 7) onePageFile ⟨.nomem, .success, .success⟩ 1 0).rc = .nomem := by
  refine ⟨fun h => ?_, fun h => ?_, rfl, rfl, rfl⟩
  · exact absurd (h.fetch (by decide)) (by decide)
  · exact absurd (h.fetch (by decide)) (by decide)

end Miniob.Storage.Record
