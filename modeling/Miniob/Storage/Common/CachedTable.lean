import Miniob.Lib.WriteBack
import Miniob.Storage.Common.RowChanges

/-!
# Tables over page frames

The pages of a data file are read and written in frames of the buffer pool. A frame that is evicted
is written to disk only if it is marked dirty, and only the functions of `RecordPageHandler` mark
it. `Trx::commit_insert` and `Trx::rollback_delete` write through the record that `get_record` has
returned, whose page has been unpinned, and mark nothing.

* `CachedTable`: a table whose pages are in frames or on disk; `view` is what its clients see.
* `insertRecord`, `deleteRecord`, `commitOperation`, `rollbackOperation`: the calls on the table,
  each with what it does to the frame of the page that it changes.
* `view_insertRecord` and its siblings: to its clients, a call is the call on the table they see.
-/

namespace Miniob.Storage.Common

open Miniob.Lib Miniob.Storage.Index Miniob.Storage.Record Miniob.Storage.Transaction

variable {V A : Type} [LinearOrder A]

/-! ## Pages that a call changes -/

/-- The pages but one are the same. -/
def SameOtherPages {R : Type} (p : ℕ) (file file' : RecordFile R) : Prop :=
  ∀ q, q ≠ p → file'.page q = file.page q

section file

variable {R : Type} {p : ℕ} {file file' file'' : RecordFile R}

theorem SameOtherPages.trans (h : SameOtherPages p file file')
    (h' : SameOtherPages p file' file'') : SameOtherPages p file file'' :=
  fun q hq => (h' q hq).trans (h q hq)

theorem sameOtherPages_setPage (page : RecordPage R) :
    SameOtherPages p file (file.setPage p page) :=
  fun _ hq => RecordFile.setPage_page_of_ne hq page

theorem disposeEmpty_page : (file.disposeEmpty p).page = file.page := by
  unfold RecordFile.disposeEmpty
  split <;> rfl

/-- Deleting a record changes its page. -/
theorem sameOtherPages_deleteRecord (rid : RID) :
    SameOtherPages rid.pageNum.toNat file (file.deleteRecord rid).2 := by
  unfold RecordFile.deleteRecord RecordFile.getThisPage
  split_ifs with hin
  · dsimp only
    cases (file.page rid.pageNum.toNat).deleteRecord rid.slotNum.toNat with
    | error rc => exact fun _ _ => rfl
    | ok page =>
      intro q hq
      dsimp only
      rw [RecordFile.addFreePage_page, disposeEmpty_page]
      exact sameOtherPages_setPage page q hq
  · exact fun _ _ => rfl

/-- A page on which the bit of the slot stays has not been changed by deleting the record. -/
theorem deleteRecord_page_of_bit {rid : RID}
    (h : ((file.deleteRecord rid).2.page rid.pageNum.toNat).bitmap rid.slotNum.toNat =
      (file.page rid.pageNum.toNat).bitmap rid.slotNum.toNat) :
    (file.deleteRecord rid).2.page = file.page := by
  unfold RecordFile.deleteRecord RecordFile.getThisPage at h ⊢
  split_ifs at h ⊢ with hin
  · dsimp only at h ⊢
    unfold RecordPage.deleteRecord at h ⊢
    split_ifs at h ⊢ with hcap hbit
    · rfl
    · simp only [RecordFile.addFreePage_page, disposeEmpty_page, RecordFile.setPage_page_self,
        RecordPage.clear, Function.update_self, hbit] at h
      cases h
    · rfl
  · rfl

/-- Overwriting a record changes its page. -/
theorem sameOtherPages_updateRecord (rid : RID) (data : R) :
    SameOtherPages rid.pageNum.toNat file (file.updateRecord rid data).2 := by
  unfold RecordFile.updateRecord RecordFile.getThisPage
  split_ifs with hin
  · dsimp only
    cases (file.page rid.pageNum.toNat).updateRecord rid.slotNum.toNat data with
    | error rc => exact fun _ _ => rfl
    | ok page => exact sameOtherPages_setPage page
  · exact fun _ _ => rfl

variable [Inhabited R] {capacity : ℕ}

/-- Choosing a page for the next record changes that page. -/
theorem sameOtherPages_choosePage (h : file.choosePage capacity = (.ok p, file')) :
    SameOtherPages p file file' := by
  unfold RecordFile.choosePage at h
  generalize file.findFreePage file.freePages = search at h
  obtain ⟨found, freePages⟩ := search
  rcases found with rc | (_ | q)
  · cases h
  · unfold RecordFile.allocatePage at h
    cases hfree : file.header.freePage with
    | some q =>
      simp only [hfree, RecordFile.getThisPage] at h
      split at h
      · cases h
      · rename_i q' page hget
        cases h
        exact fun _ hq => RecordFile.setPage_page_of_ne hq _
    | none =>
      simp only [hfree] at h
      split_ifs at h with hroom
      · cases h
      · cases h
        exact fun _ hq => RecordFile.setPage_page_of_ne hq _
  · cases h
    exact fun _ _ => rfl

/-- If no page is found, none is changed. -/
theorem choosePage_error_page {rc : RC} (h : file.choosePage capacity = (.error rc, file')) :
    file'.page = file.page := by
  unfold RecordFile.choosePage at h
  generalize file.findFreePage file.freePages = search at h
  obtain ⟨found, freePages⟩ := search
  rcases found with rc' | (_ | q)
  · cases h
    rfl
  · unfold RecordFile.allocatePage at h
    cases hfree : file.header.freePage with
    | some q =>
      simp only [hfree, RecordFile.getThisPage] at h
      split at h
      · cases h
        rfl
      · cases h
    | none =>
      simp only [hfree] at h
      split_ifs at h with hroom
      · cases h
        rfl
      · cases h
  · cases h

/-- The page of a record that is inserted is the one that is chosen, and it is changed. -/
theorem insertRecord_ok_page {rid : RID} {data : R}
    (h : file.insertRecord capacity data = some (.ok rid, file')) :
    SameOtherPages rid.pageNum.toNat file file' := by
  unfold RecordFile.insertRecord at h
  split at h
  · cases h
  · rename_i q file₁ hchoose
    unfold RecordFile.insertInto at h
    obtain ⟨result, -, heq⟩ := Option.map_eq_some_iff.mp h
    rcases result with rc | ⟨slot, page⟩
    · cases heq
    · cases heq
      exact (sameOtherPages_choosePage hchoose).trans (sameOtherPages_setPage page)

/-- If no record is inserted, the page that has been allocated is changed, if any. -/
theorem insertRecord_error_page {rc : RC} {data : R}
    (h : file.insertRecord capacity data = some (.error rc, file')) :
    match (file.choosePage capacity).1 with
    | .ok p => SameOtherPages p file file'
    | .error _ => file'.page = file.page := by
  unfold RecordFile.insertRecord at h
  split at h
  · rename_i rc₁ file₁ hchoose
    cases h
    rw [hchoose]
    exact choosePage_error_page hchoose
  · rename_i q file₁ hchoose
    unfold RecordFile.insertInto at h
    obtain ⟨result, -, heq⟩ := Option.map_eq_some_iff.mp h
    rcases result with rc₁ | ⟨slot, page⟩
    · cases heq
      rw [hchoose]
      exact sameOtherPages_choosePage hchoose
    · cases heq

end file

/-! ## The table -/

/-- A table whose pages are in frames of the buffer pool or on disk. -/
structure CachedTable (V A : Type) [LinearOrder A] where
  /-- The table. Its pages are those of `cache`. -/
  table : Table V A
  /-- The frames of the data file, and the pages on disk. -/
  cache : WriteBack ℕ (RecordPage (RecordData V))

namespace CachedTable

/-- The table that clients see: a page that has a frame is read there, another page on disk. -/
def view (c : CachedTable V A) : Table V A :=
  { c.table with records := { c.table.records with page := c.cache.content } }

/-- The page of a record has a frame now.
Source: `disk_buffer_pool.cpp`, `DiskBufferPool::get_this_page` -/
def getThisPage (c : CachedTable V A) (p : ℕ) : CachedTable V A :=
  { c with cache := c.cache.load p }

/-- The frame is given to another page.
Source: `disk_buffer_pool.cpp`, `DiskBufferPool::allocate_frame` -/
def evict (c : CachedTable V A) (p : ℕ) : CachedTable V A := { c with cache := c.cache.evict p }

/-- Source: `disk_buffer_pool.cpp`, `DiskBufferPool::flush_page` -/
def flushPage (c : CachedTable V A) (p : ℕ) : CachedTable V A := { c with cache := c.cache.flush p }

/-- After a call that has changed a page and marked its frame dirty. A page without records has been
disposed of, which writes it and drops the frame.
Source: `record_manager.cpp`, `RecordPageHandler::insert_record`,
`RecordPageHandler::delete_record`; `disk_buffer_pool.cpp`, `DiskBufferPool::dispose_page` -/
def changed (c : CachedTable V A) (p : ℕ) (t : Table V A) : CachedTable V A :=
  { table := t
    cache := if (t.records.page p).recordNum = 0 then c.cache.purge p (t.records.page p)
      else c.cache.write p (t.records.page p) }

/-- After a call that has deleted a record from its page if the bit of the slot has changed. -/
def deleted (c : CachedTable V A) (rid : RID) (t : Table V A) : CachedTable V A :=
  if (t.records.page rid.pageNum.toNat).bitmap rid.slotNum.toNat =
    (c.view.records.page rid.pageNum.toNat).bitmap rid.slotNum.toNat then { c with table := t }
  else c.changed rid.pageNum.toNat t

variable [Inhabited V]

/-- After an insertion. A page on which no record has been put has been flushed by
`RecordPageHandler::init_empty_page`. -/
def inserted (c : CachedTable V A) (data : RecordData V) (t : Table V A) : CachedTable V A :=
  match c.view.records.insertRecord c.table.recordCapacity data,
    (c.view.records.choosePage c.table.recordCapacity).1 with
  | some (.ok rid, _), _ => c.changed rid.pageNum.toNat t
  | _, .ok p => { table := t, cache := (c.cache.write p (t.records.page p)).flush p }
  | _, .error _ => { c with table := t }

/-- Source: `table.cpp`, `Table::insert_record` -/
def insertRecord (c : CachedTable V A) (trx : Trx) (data : RecordData V) (logRc : RC) :
    Option (Except RC RID × CachedTable V A × Option Trx) :=
  (c.view.insertRecord (some trx) data logRc).map fun (r, t, trx') =>
    (r, c.inserted (trx.initTrxInfo data) t, trx')

omit [Inhabited V] in
/-- Source: `table.cpp`, `Table::delete_record` -/
def deleteRecord (c : CachedTable V A) (counter : BitVec 32) (trx : Trx) (rid : RID)
    (data : RecordData V) (logRc : RC) : RC × CachedTable V A × Option Trx × BitVec 32 :=
  let (rc, t, trx, counter) := c.view.deleteRecord counter (some trx) rid data logRc
  (rc, c.deleted rid t, trx, counter)

/-- The transaction field is written in the frame that the record points into. The page has been
unpinned, and nobody marks the frame.
Source: `table.cpp`, `Table::commit_insert`, `Table::rollback_delete`; `trx.cpp`,
`Trx::set_record_trx_id` -/
def writeTrxId (c : CachedTable V A) (step : Table V A → RID → Option (RC × Table V A))
    (rid : RID) : Option (RC × CachedTable V A) :=
  let p := rid.pageNum.toNat
  (step c.view rid).map fun (rc, t) =>
    (rc, { table := t, cache := (c.cache.load p).modify p (t.records.page p) })

/-- What commit does to an operation. Source: `trx.cpp`, `Trx::commit` -/
def commitOperation (c : CachedTable V A) : RID × OperationType → Option (RC × CachedTable V A)
  | (rid, .insert) => c.writeTrxId Table.commitInsert rid
  | (rid, .delete) => (c.view.commitDelete rid).map fun (rc, t) => (rc, c.deleted rid t)

/-- What rollback does to an operation. Source: `trx.cpp`, `Trx::rollback` -/
def rollbackOperation (c : CachedTable V A) : RID × OperationType → Option (RC × CachedTable V A)
  | (rid, .insert) => (c.view.rollbackInsert rid).map fun (rc, t) => (rc, c.deleted rid t)
  | (rid, .delete) => c.writeTrxId Table.rollbackDelete rid

/-! ## What clients see -/

section view

variable {c : CachedTable V A} {t : Table V A} {p : ℕ}

omit [Inhabited V] in
theorem view_eq_table (h : c.cache.content = c.table.records.page) : c.view = c.table := by
  rw [view, h]

omit [Inhabited V] in
@[simp] theorem view_getThisPage : (c.getThisPage p).view = c.view := by
  simp [view, getThisPage]

omit [Inhabited V] in
@[simp] theorem view_flushPage : (c.flushPage p).view = c.view := by
  simp [view, flushPage]

omit [Inhabited V] in
/-- An eviction is not seen if the frame is dirty or holds what is on disk. -/
theorem view_evict (h : c.cache.Kept p) : (c.evict p).view = c.view := by
  simp [view, evict, WriteBack.content_evict_of_kept _ _ h]

omit [Inhabited V] in
/-- The pages after one of them has been replaced. -/
theorem update_content_eq (h : SameOtherPages p c.view.records t.records) :
    Function.update c.cache.content p (t.records.page p) = t.records.page := by
  funext q
  by_cases hq : q = p
  · subst hq
    exact Function.update_self ..
  · rw [Function.update_of_ne hq]
    exact (h q hq).symm

omit [Inhabited V] in
theorem view_changed (h : SameOtherPages p c.view.records t.records) :
    (c.changed p t).view = t := by
  refine view_eq_table ?_
  unfold changed
  dsimp only
  split_ifs
  · rw [WriteBack.content_purge, update_content_eq h]
  · rw [WriteBack.content_write, update_content_eq h]

omit [Inhabited V] in
theorem view_deleted {rid : RID}
    (h : t.records = c.view.records ∨ t.records = (c.view.records.deleteRecord rid).2) :
    (c.deleted rid t).view = t := by
  unfold deleted
  split_ifs with hbit
  · refine view_eq_table ?_
    rcases h with heq | heq
    · rw [heq]
      rfl
    · rw [heq] at hbit ⊢
      exact (deleteRecord_page_of_bit hbit).symm
  · refine view_changed ?_
    rcases h with heq | heq
    · rw [heq]
      exact fun _ _ => rfl
    · rw [heq]
      exact sameOtherPages_deleteRecord rid

omit [Inhabited V] in
/-- A record that has been overwritten without a mark is seen as long as the page has its frame. -/
theorem view_modify {rid : RID} {data : RecordData V}
    (h : t.records = c.view.records ∨ t.records = (c.view.records.updateRecord rid data).2) :
    view ⟨t, (c.cache.load rid.pageNum.toNat).modify rid.pageNum.toNat
      (t.records.page rid.pageNum.toNat)⟩ = t := by
  have hsame : SameOtherPages rid.pageNum.toNat c.view.records t.records := by
    rcases h with heq | heq
    · rw [heq]
      exact fun _ _ => rfl
    · rw [heq]
      exact sameOtherPages_updateRecord rid data
  refine view_eq_table ?_
  rw [WriteBack.content_modify _ _ _ (WriteBack.load_lines_ne_none _ _), WriteBack.content_load,
    update_content_eq hsame]

/-- What an insertion into a table does to its file and to the transaction: the record is inserted,
and maybe taken out again. -/
theorem insertRecord_records {t' : Table V A} {trx : Trx} {trx' : Option Trx} {data : RecordData V}
    {logRc : RC} {r : Except RC RID}
    (h : t.insertRecord (some trx) data logRc = some (r, t', trx')) :
    t'.recordCapacity = t.recordCapacity ∧
      ((∃ rc file, t.records.insertRecord t.recordCapacity (trx.initTrxInfo data) =
          some (.error rc, file) ∧ t'.records = file ∧ trx' = some trx) ∨
        ∃ rid file, t.records.insertRecord t.recordCapacity (trx.initTrxInfo data) =
          some (.ok rid, file) ∧ trx' = some (trx.insertRecord rid).2 ∧
            (t'.records = file ∨ t'.records = (file.deleteRecord rid).2)) := by
  unfold Table.insertRecord at h
  simp only [Option.bind_eq_bind] at h
  obtain ⟨⟨inserted, file⟩, hins, hrest⟩ := Option.bind_eq_some_iff.mp h
  rcases inserted with rc | rid
  · cases hrest
    exact ⟨rfl, Or.inl ⟨rc, file, hins, rfl, rfl⟩⟩
  · dsimp only at hrest
    split at hrest
    · rename_i trx₁ hx
      obtain rfl : (trx.insertRecord rid).2 = trx₁ := by rw [hx]
      unfold Table.insertEntries Table.logInsert at hrest
      dsimp only at hrest
      split at hrest
      · cases hrest
        exact ⟨rfl, Or.inr ⟨rid, file, hins, rfl, Or.inl rfl⟩⟩
      · cases hrest
        exact ⟨rfl, Or.inr ⟨rid, file, hins, rfl, Or.inr rfl⟩⟩
    · rename_i rc trx₁ _ hx
      obtain rfl : (trx.insertRecord rid).2 = trx₁ := by rw [hx]
      cases hrest
      exact ⟨rfl, Or.inr ⟨rid, file, hins, rfl, Or.inr rfl⟩⟩

/-- To its clients, an insertion is the insertion into the table that they see. -/
theorem view_inserted {trx : Trx} {trx' : Option Trx} {data : RecordData V} {logRc : RC}
    {r : Except RC RID} (h : c.view.insertRecord (some trx) data logRc = some (r, t, trx')) :
    (c.inserted (trx.initTrxInfo data) t).view = t := by
  obtain ⟨-, ⟨rc, file, hins, heq, -⟩ | ⟨rid, file, hins, -, heq⟩⟩ := insertRecord_records h
  · have hpage := insertRecord_error_page hins
    unfold inserted
    rw [show c.table.recordCapacity = c.view.recordCapacity from rfl, hins]
    split at hpage
    · rename_i p hp
      simp only [hp]
      refine view_eq_table ?_
      rw [heq] at *
      rw [WriteBack.content_flush, WriteBack.content_write]
      exact update_content_eq (t := { t with records := file }) hpage
    · rename_i rc' hp
      simp only [hp]
      refine view_eq_table ?_
      rw [heq, hpage]
      rfl
  · have hpage := insertRecord_ok_page hins
    unfold inserted
    rw [show c.table.recordCapacity = c.view.recordCapacity from rfl, hins]
    refine view_changed ?_
    rcases heq with heq | heq
    · rw [heq]
      exact hpage
    · rw [heq]
      exact hpage.trans (sameOtherPages_deleteRecord rid)

omit [Inhabited V] in
/-- What a deletion does to the file of a table. -/
theorem deleteRecord_records (t : Table V A) (counter : BitVec 32) (trx : Trx) (rid : RID)
    (data : RecordData V) (logRc : RC) {rc : RC} {t' : Table V A} {trx' : Option Trx}
    {counter' : BitVec 32}
    (h : t.deleteRecord counter (some trx) rid data logRc = (rc, t', trx', counter')) :
    t'.recordCapacity = t.recordCapacity ∧
      (t'.records = t.records ∨ t'.records = (t.records.deleteRecord rid).2) ∧
      (trx' = some trx ∨ trx' = some (trx.deleteRecord counter rid).2.1) := by
  unfold Table.deleteRecord at h
  split at h
  · dsimp only at h
    split at h
    · rename_i file hdel
      cases h
      rw [hdel]
      exact ⟨rfl, Or.inr rfl, Or.inr rfl⟩
    · rename_i file hdel
      cases h
      rw [hdel]
      exact ⟨rfl, Or.inr rfl, Or.inl rfl⟩
  · cases h
    exact ⟨rfl, Or.inl rfl, Or.inl rfl⟩

omit [Inhabited V] in
/-- What the end of a deletion does to the file of a table. -/
theorem commitDelete_records {t' : Table V A} {rid : RID} {rc : RC}
    (h : t.commitDelete rid = some (rc, t')) : t'.recordCapacity = t.recordCapacity ∧
      (t'.records = t.records ∨ t'.records = (t.records.deleteRecord rid).2) := by
  unfold Table.commitDelete at h
  obtain ⟨got, -, h⟩ := Option.bind_eq_some_iff.mp h
  rcases got with rc' | data
  · cases h
    exact ⟨rfl, Or.inl rfl⟩
  · cases h
    exact ⟨rfl, Or.inr rfl⟩

omit [Inhabited V] in
/-- What undoing an insertion does to the file of a table. -/
theorem rollbackInsert_records {t' : Table V A} {rid : RID} {rc : RC}
    (h : t.rollbackInsert rid = some (rc, t')) : t'.recordCapacity = t.recordCapacity ∧
      (t'.records = t.records ∨ t'.records = (t.records.deleteRecord rid).2) := by
  unfold Table.rollbackInsert at h
  obtain ⟨got, -, h⟩ := Option.bind_eq_some_iff.mp h
  rcases got with rc' | data
  · cases h
    exact ⟨rfl, Or.inl rfl⟩
  · dsimp only at h
    split at h
    · cases h
      exact ⟨rfl, Or.inr rfl⟩
    · cases h
      exact ⟨rfl, Or.inl rfl⟩

omit [Inhabited V] in
/-- What clearing the transaction field of a record does to the file of a table. -/
theorem commitInsert_records {t' : Table V A} {rid : RID} {rc : RC}
    (h : t.commitInsert rid = some (rc, t')) : t'.recordCapacity = t.recordCapacity ∧
      ((∃ rc', t.records.getRecord rid = some (.error rc') ∧ t'.records = t.records) ∨
        ∃ data, t.records.getRecord rid = some (.ok data) ∧
          t'.records = (t.records.updateRecord rid (data.setRecordTrxId 0 false)).2) := by
  unfold Table.commitInsert at h
  obtain ⟨got, hgot, h⟩ := Option.bind_eq_some_iff.mp h
  rcases got with code | data
  · cases h
    exact ⟨rfl, Or.inl ⟨_, hgot, rfl⟩⟩
  · cases h
    exact ⟨rfl, Or.inr ⟨data, hgot, rfl⟩⟩

end view

end CachedTable

end Miniob.Storage.Common
