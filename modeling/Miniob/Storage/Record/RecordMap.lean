import Miniob.Storage.Record.FileScan

/-!
# A data file as a map

A data file should be a map from record identifiers to records: an insertion returns a new
identifier, a record is read back as it was written, and a scan returns all records. It is not when
an insertion goes to a page that has lost all its records. The bit of such a page in the file
header is clear, and the page is passed over by scans, but `free_pages_` still offers it.

* `FileState`: the file, with the records that have been written.
* `ActsAsMap`: the calls of a sequence behave as those of a map.
* `AllOffered`: no insertion of a sequence is offered a page whose bit is clear.
* `acts_as_map_iff`: the one holds if and only if the other does.
-/

namespace Miniob.Storage.Record

open Miniob.Common Miniob.Storage.DiskBufferPool

variable {R : Type}

/-! ## Sequences of calls -/

/-- A call of the record manager. -/
inductive FileOp (R : Type)
  /-- `insert_record` -/
  | insert (data : R)
  /-- `update_record` -/
  | update (rid : RID) (data : R)
  /-- `delete_record` -/
  | delete (rid : RID)

/-- A data file and the records that have been written to it and not deleted. -/
structure FileState (R : Type) where
  /-- The file. -/
  file : RecordFile R
  /-- The records. -/
  live : RID → Option R

namespace FileState

/-- An empty data file. -/
def empty [Inhabited R] (orders : Stream' SetOrder) : FileState R := ⟨.empty orders, fun _ => none⟩

/-- Every record is read as it was written, and a scan returns all records, each of them once. -/
structure Reads (s : FileState R) : Prop where
  get : ∀ rid data, s.live rid = some data → s.file.getRecord rid = some (.ok data)
  scan : ∀ rid data, (rid, data) ∈ s.file.scan ↔ s.live rid = some data
  once : (s.file.scan.map Prod.fst).Nodup

/-- The state after a record has been updated. -/
def update (s : FileState R) (rid : RID) (data : R) : FileState R :=
  ⟨(s.file.updateRecord rid data).2, Function.update s.live rid (some data)⟩

/-- The state after a record has been deleted. -/
def delete (s : FileState R) (rid : RID) : FileState R :=
  ⟨(s.file.deleteRecord rid).2, Function.update s.live rid none⟩

variable [Inhabited R]

/-- The calls behave as those of a map. Updates and deletions are of records that are there, and the
sequence ends when the buffer pool has no page left. -/
def ActsAsMap (capacity : ℕ) : List (FileOp R) → FileState R → Prop
  | [], s => s.Reads
  | .insert data :: ops, s => s.Reads ∧
    match s.file.insertRecord capacity data with
    | some (.ok rid, file) => s.live rid = none ∧
        ActsAsMap capacity ops ⟨file, Function.update s.live rid (some data)⟩
    | some (.error rc, _) => rc = .bufferpoolNobuf
    | none => False
  | .update rid data :: ops, s => s.Reads ∧ (s.live rid ≠ none →
      (s.file.updateRecord rid data).1 = .success ∧ ActsAsMap capacity ops (s.update rid data))
  | .delete rid :: ops, s => s.Reads ∧ (s.live rid ≠ none →
      (s.file.deleteRecord rid).1 = .success ∧ ActsAsMap capacity ops (s.delete rid))

end FileState

/-- The page that `free_pages_` offers for the next record, if there is one, has its bit set in the
file header. -/
def RecordFile.Offered (file : RecordFile R) : Prop :=
  ∀ p rest, file.findFreePage file.freePages = (.ok (some p), rest) → file.header.bitmap p = true

/-- This is so for every insertion of a sequence. -/
def AllOffered [Inhabited R] (capacity : ℕ) : List (FileOp R) → FileState R → Prop
  | [], _ => True
  | .insert data :: ops, s => s.file.Offered ∧
    match s.file.insertRecord capacity data with
    | some (.ok rid, file) => AllOffered capacity ops ⟨file, Function.update s.live rid (some data)⟩
    | _ => True
  | .update rid data :: ops, s => s.live rid ≠ none → AllOffered capacity ops (s.update rid data)
  | .delete rid :: ops, s => s.live rid ≠ none → AllOffered capacity ops (s.delete rid)

/-! ## The file header -/

namespace RecordFile

variable {file : RecordFile R} {capacity : ℕ}

/-- A page that comes from `free_pages_` leaves the file header as it is; any other page has its bit
set. -/
theorem choosePage_header [Inhabited R] {p : ℕ} {file' : RecordFile R}
    (h : file.choosePage capacity = (.ok p, file')) :
    ((∃ rest, file.findFreePage file.freePages = (.ok (some p), rest)) ∧
      file'.header = file.header) ∨
    (∃ rest, file.findFreePage file.freePages = (.ok none, rest)) ∧
      file'.header.bitmap = Function.update file.header.bitmap p true := by
  unfold choosePage at h
  generalize hfind : file.findFreePage file.freePages = found at h
  obtain ⟨found, rest⟩ := found
  cases found with
  | error rc => cases h
  | ok found =>
    cases found with
    | some q =>
      cases h
      exact Or.inl ⟨⟨rest, rfl⟩, rfl⟩
    | none =>
      refine Or.inr ⟨⟨rest, rfl⟩, ?_⟩
      simp only [allocatePage] at h
      split at h
      · rename_i q hfree
        split at h
        · cases h
        · rename_i q' page hget
          obtain rfl : q = q' := by
            unfold getThisPage at hget
            split at hget
            · cases hget
              simp
            · cases hget
          cases h
          rfl
      · split at h
        · cases h
        · cases h
          rfl

/-- An insertion, with the page it has gone to. -/
theorem insertRecord_header [Inhabited R] {data : R} {rid : RID} {file' : RecordFile R}
    (h : file.insertRecord capacity data = some (.ok rid, file')) :
    ∃ p slot, rid = slotRid p slot ∧
      (((∃ rest, file.findFreePage file.freePages = (.ok (some p), rest)) ∧
        file'.header = file.header) ∨
      (∃ rest, file.findFreePage file.freePages = (.ok none, rest)) ∧
        file'.header.bitmap = Function.update file.header.bitmap p true) := by
  unfold insertRecord at h
  split at h
  · simp at h
  · rename_i p file₁ hchoose
    unfold insertInto at h
    obtain ⟨result, hins, heq⟩ := Option.map_eq_some_iff.mp h
    cases result with
    | error rc => cases heq
    | ok result =>
      obtain ⟨slot, page⟩ := result
      cases heq
      have hheader := choosePage_header hchoose
      exact ⟨p, slot, rfl, hheader⟩

/-- Every record is on a page that scans visit. -/
def AllListed (file : RecordFile R) : Prop :=
  ∀ rid data, file.record rid = some data → file.Listed rid

/-- Nothing is lost when a page is taken from the file header. -/
theorem AllListed.wiped_eq (h : file.AllListed) : file.wiped = file.record := by
  funext rid
  unfold wiped
  split
  · rename_i hreused
    cases hrid : file.record rid with
    | none => rfl
    | some data =>
      have hlisted := h rid data hrid
      have hfree : file.header.freePage = some rid.pageNum.toNat := by
        unfold reusedPage at hreused
        split at hreused
        · exact hreused
        · cases hreused
      rw [Listed, (freePage_spec hfree).2] at hlisted
      cases hlisted
  · rfl

/-- A page with an empty slot takes a record. -/
theorem insertInto_of_not_isFull (file : RecordFile R) {p : ℕ}
    (hcounted : (file.page p).Counted capacity) (hnot : ¬ (file.page p).isFull) (data : R) :
    ∃ rid file', file.insertInto p data = some (.ok rid, file') := by
  unfold insertInto
  rcases hcounted.insertRecord data with ⟨hfull, -⟩ | ⟨slot, -, -, -, hins⟩
  · exact absurd hfull hnot
  · rw [hins]
    exact ⟨_, _, rfl⟩

/-- A page that has just been allocated has an empty slot. -/
theorem Allocated.not_isFull {file' : RecordFile R} {p : ℕ} (h : file.Allocated file' capacity p)
    (hpos : 0 < capacity) : ¬ (file'.page p).isFull := by
  have hcounted := h.inv.counted p h.pos h.lt
  rw [hcounted.isFull_iff]
  have hzero : bitCount (file'.page p).bitmap capacity = 0 := by
    rw [show (file'.page p).bitmap = fun _ => false from funext h.clear, bitCount_clear]
  omega

/-- An insertion fails only when there is no page left. -/
theorem Inv.insertRecord_error [Inhabited R] (h : file.Inv capacity) (hpos : 0 < capacity)
    {data : R}
    {rc : RC} {file' : RecordFile R}
    (herror : file.insertRecord capacity data = some (.error rc, file')) :
    rc = .bufferpoolNobuf ∧ file.findFreePage file.freePages = (.ok none, []) := by
  unfold RecordFile.insertRecord RecordFile.choosePage at herror
  rcases findFreePage_spec file.freePages h.free with
    ⟨p, rest, heq, hp, hnot, hsub, -⟩ | ⟨heq, -⟩
  · obtain ⟨hp0, hlt⟩ := h.free p (hsub p hp)
    obtain ⟨rid, file₁, hins⟩ :=
      insertInto_of_not_isFull { file with freePages := rest } (h.counted p hp0 hlt) hnot data
    rw [heq] at herror
    simp [hins] at herror
  · have hinv : Inv { file with freePages := [] } capacity := h.setFreePages (by simp)
    rw [heq] at herror
    simp only at herror
    -- a page that can be allocated takes the record
    have hallocated : ∀ p file₁,
        allocatePage { file with freePages := [] } capacity = (.ok p, file₁) →
        Allocated { file with freePages := [] } file₁ capacity p → False := by
      intro p file₁ hrun ha
      obtain ⟨rid, file₂, hins⟩ :=
        insertInto_of_not_isFull file₁ (ha.inv.counted p ha.pos ha.lt) (ha.not_isFull hpos) data
      rw [hrun] at herror
      simp [hins] at herror
    cases hfree : file.header.freePage with
    | some p =>
      obtain ⟨file₁, hrun, ha⟩ := hinv.reusePage hfree
      exact (hallocated p file₁ hrun ha).elim
    | none =>
      by_cases hroom : maxPageNum ≤ file.header.pageCount
      · simp only [allocatePage, hfree, hroom, if_true] at herror
        cases herror
        exact ⟨rfl, heq⟩
      · obtain ⟨file₁, hrun, ha, -⟩ := hinv.extendFile hfree hroom
        exact (hallocated _ file₁ hrun ha).elim

/-- A page is given back when its last record is deleted, and then it has no records. -/
theorem AllListed.deleteRecord (hlisted : file.AllListed) (h : file.Inv capacity) {rid : RID}
    {data : R}
    (hrid : file.record rid = some data) : (file.deleteRecord rid).2.AllListed := by
  obtain ⟨file', hdel, hd⟩ := h.deleteRecord hrid
  rw [hdel]
  intro r d hr
  change file'.record r = some d at hr
  have hr' : file.record r = some d := by
    rw [hd.record] at hr
    by_cases hrr : r = rid
    · subst hrr
      rw [Function.update_self] at hr
      cases hr
    · rwa [Function.update_of_ne hrr] at hr
  have hbit : file.header.bitmap r.pageNum.toNat = true := hlisted r d hr'
  -- a page with a record that is left is not empty
  have hnonempty : (file'.page r.pageNum.toNat).recordNum ≠ 0 := by
    obtain ⟨q, i, rfl, hq, hqlt, ⟨hi, hiset⟩, -⟩ := record_eq_some hr
    have hcounted := hd.inv.counted q hq hqlt
    have hpos := bitCount_pos_iff.mpr ⟨i, hcounted.recordCapacity ▸ hi, hiset⟩
    rw [show (slotRid q i).pageNum.toNat = q by simp [slotRid], hcounted.recordNum]
    omega
  obtain ⟨p, slot, rfl, hp, hlt, ⟨hslot, hset⟩, -⟩ := record_eq_some hrid
  have hget : file.getThisPage (slotRid p slot).pageNum = some (p, file.page p) :=
    getThisPage_natCast hp hlt
  have hto : (slotRid p slot).slotNum.toNat = slot := by simp [slotRid]
  have hpage : (file.page p).deleteRecord slot = .ok ((file.page p).clear slot) := by
    rw [RecordPage.deleteRecord, if_neg (by omega), if_neg (by simp [hset])]
  unfold RecordFile.deleteRecord at hdel
  simp only [hget, hto, hpage, Prod.mk.injEq, true_and] at hdel
  subst hdel
  show (disposeEmpty _ p).header.bitmap r.pageNum.toNat = true
  unfold disposeEmpty at hnonempty ⊢
  split
  · rename_i hempty
    rw [if_pos hempty] at hnonempty
    have hne : r.pageNum.toNat ≠ p := fun heq => hnonempty (heq ▸ hempty)
    simpa [FileHeader.dispose, hne] using hbit
  · exact hbit

theorem updateRecord_header (rid : RID) (data : R) :
    (file.updateRecord rid data).2.header = file.header := by
  unfold updateRecord
  split
  · rfl
  · split <;> rfl

end RecordFile

/-! ## The invariant -/

namespace FileState

variable {s : FileState R} {capacity : ℕ}

/-- The file has the records that have been written, all of them on pages that scans visit. -/
structure Inv (s : FileState R) (capacity : ℕ) : Prop where
  file : s.file.Inv capacity
  listed : s.file.AllListed
  live : s.live = s.file.record

theorem inv_empty [Inhabited R] (orders : Stream' SetOrder) (capacity : ℕ) :
    (empty orders : FileState R).Inv capacity := by
  have hnone : ∀ rid data, (RecordFile.empty orders : RecordFile R).record rid ≠ some data := by
    intro rid data hrid
    obtain ⟨p, slot, -, hp, hlt, -⟩ := RecordFile.record_eq_some hrid
    simp only [RecordFile.empty] at hlt
    omega
  refine ⟨RecordFile.inv_empty orders capacity, fun rid data hrid => absurd hrid (hnone rid data), ?_⟩
  funext rid
  exact (Option.eq_none_iff_forall_ne_some.mpr fun data => hnone rid data).symm

theorem Inv.reads (h : s.Inv capacity) : s.Reads := by
  refine ⟨?_, ?_, h.file.nodup_scan⟩
  · intro rid data hrid
    rw [h.live] at hrid
    exact RecordFile.getRecord_of_some hrid
  · intro rid data
    rw [h.file.mem_scan, h.live]
    exact and_iff_left_of_imp (h.listed rid data)

/-- What an insertion does to the records. -/
theorem Inv.inserted [Inhabited R] (h : s.Inv capacity) {data : R} {rid : RID} {file : RecordFile R}
    (hins : s.file.insertRecord capacity data = some (.ok rid, file)) :
    file.Inv capacity ∧ s.live rid = none ∧
      file.record = Function.update s.live rid (some data) := by
  rcases h.file.insertRecord data with ⟨rid', file', heq, hi⟩ | ⟨rc, file', heq, -⟩
  · rw [hins] at heq
    cases heq
    rw [h.live, ← h.listed.wiped_eq]
    exact ⟨hi.inv, hi.fresh, hi.record⟩
  · rw [hins] at heq
    cases heq

/-- An insertion into a page that scans visit. -/
theorem Inv.insert [Inhabited R] (h : s.Inv capacity) (hoffered : s.file.Offered) {data : R}
    {rid : RID} {file : RecordFile R}
    (hins : s.file.insertRecord capacity data = some (.ok rid, file)) :
    Inv ⟨file, Function.update s.live rid (some data)⟩ capacity := by
  obtain ⟨hinv, hfresh, hrec⟩ := h.inserted hins
  refine ⟨hinv, ?_, hrec.symm⟩
  intro r d hr
  have hold : r ≠ rid → s.file.Listed r := by
    intro hne
    refine h.listed r d ?_
    rw [hrec, Function.update_of_ne hne, h.live] at hr
    exact hr
  obtain ⟨p, slot, rfl, hheader⟩ := RecordFile.insertRecord_header hins
  unfold RecordFile.Listed at hold ⊢
  rcases hheader with ⟨⟨rest, hfind⟩, hheader⟩ | ⟨-, hheader⟩
  · rw [hheader]
    by_cases hne : r = slotRid p slot
    · subst hne
      exact hoffered p rest hfind
    · exact hold hne
  · rw [hheader]
    by_cases hpage : r.pageNum.toNat = p
    · rw [hpage, Function.update_self]
    · rw [Function.update_of_ne hpage]
      refine hold ?_
      rintro rfl
      exact hpage (by simp [slotRid])

/-- A record on a page whose bit is clear is not found by a scan. -/
theorem Inv.not_reads [Inhabited R] (h : s.Inv capacity) (hnot : ¬ s.file.Offered) {data : R}
    {rid : RID} {file : RecordFile R}
    (hins : s.file.insertRecord capacity data = some (.ok rid, file)) :
    ¬ Reads ⟨file, Function.update s.live rid (some data)⟩ := by
  intro hreads
  obtain ⟨hinv, -, -⟩ := h.inserted hins
  have hlisted : file.Listed rid :=
    (hinv.mem_scan.mp ((hreads.scan rid data).mpr (Function.update_self ..))).2
  obtain ⟨p, slot, rfl, hheader⟩ := RecordFile.insertRecord_header hins
  refine hnot ?_
  intro q rest hfind
  rcases hheader with ⟨⟨rest', hfind'⟩, hheader⟩ | ⟨⟨rest', hfind'⟩, -⟩
  · rw [hfind] at hfind'
    cases hfind'
    rw [RecordFile.Listed, hheader] at hlisted
    simpa [slotRid] using hlisted
  · rw [hfind] at hfind'
    cases hfind'

theorem Inv.update (h : s.Inv capacity) {rid : RID} (hlive : s.live rid ≠ none) (data : R) :
    (s.file.updateRecord rid data).1 = .success ∧ (s.update rid data).Inv capacity := by
  rw [h.live] at hlive
  obtain ⟨old, hrid⟩ := Option.ne_none_iff_exists'.mp hlive
  obtain ⟨file, hupd, hinv, hrec⟩ := h.file.updateRecord hrid data
  have hheader := s.file.updateRecord_header rid data
  unfold FileState.update
  rw [hupd] at hheader ⊢
  refine ⟨rfl, hinv, ?_, by rw [h.live]; exact hrec.symm⟩
  intro r d hr
  rw [RecordFile.Listed, hheader]
  by_cases hrr : r = rid
  · subst hrr
    exact h.listed r old hrid
  · rw [hrec, Function.update_of_ne hrr] at hr
    exact h.listed r d hr

theorem Inv.delete (h : s.Inv capacity) {rid : RID} (hlive : s.live rid ≠ none) :
    (s.file.deleteRecord rid).1 = .success ∧ (s.delete rid).Inv capacity := by
  rw [h.live] at hlive
  obtain ⟨old, hrid⟩ := Option.ne_none_iff_exists'.mp hlive
  obtain ⟨file, hdel, hd⟩ := h.file.deleteRecord hrid
  have hlisted := h.listed.deleteRecord h.file hrid
  unfold FileState.delete
  rw [hdel] at hlisted ⊢
  exact ⟨rfl, hd.inv, hlisted, by rw [h.live]; exact hd.record.symm⟩

/-- A sequence of calls from any state that the invariant holds in. -/
theorem Inv.actsAsMap_iff [Inhabited R] (hpos : 0 < capacity) (ops : List (FileOp R)) :
    ∀ {s : FileState R}, s.Inv capacity → (ActsAsMap capacity ops s ↔ AllOffered capacity ops s) := by
  induction ops with
  | nil =>
    intro s h
    exact iff_of_true h.reads trivial
  | cons op ops ih =>
    intro s h
    cases op with
    | insert data =>
      unfold ActsAsMap AllOffered
      rw [and_iff_right h.reads]
      rcases h.file.insertRecord data with ⟨rid, file, heq, -⟩ | ⟨rc, file, heq, -⟩
      · simp only [heq]
        by_cases hoffered : s.file.Offered
        · have hnext := ih (h.insert hoffered heq)
          rw [and_iff_right (h.inserted heq).2.1, and_iff_right hoffered, hnext]
        · refine iff_of_false ?_ fun hall => hoffered hall.1
          rintro ⟨-, hacts⟩
          refine h.not_reads hoffered heq ?_
          cases ops with
          | nil => exact hacts
          | cons op ops => cases op <;> exact hacts.1
      · obtain ⟨hrc, hfind⟩ := h.file.insertRecord_error hpos heq
        simp only [heq]
        refine iff_of_true hrc ⟨?_, trivial⟩
        intro p rest hoffer
        rw [hfind] at hoffer
        cases hoffer
    | update rid data =>
      unfold ActsAsMap AllOffered
      rw [and_iff_right h.reads]
      refine imp_congr_right fun hlive => ?_
      obtain ⟨hrc, hnext⟩ := h.update hlive data
      rw [and_iff_right hrc, ih hnext]
    | delete rid =>
      unfold ActsAsMap AllOffered
      rw [and_iff_right h.reads]
      refine imp_congr_right fun hlive => ?_
      obtain ⟨hrc, hnext⟩ := h.delete hlive
      rw [and_iff_right hrc, ih hnext]

end FileState

open FileState

/-- A data file that starts empty acts as a map on a sequence of calls if and only if no insertion
of the sequence is offered a page whose bit in the file header is clear, whatever orders
`free_pages_` has on the way. -/
theorem acts_as_map_iff [Inhabited R] (orders : Stream' SetOrder) (capacity : ℕ)
    (hpos : 0 < capacity) (ops : List (FileOp R)) :
    ActsAsMap capacity ops (.empty orders) ↔ AllOffered capacity ops (.empty orders) :=
  Inv.actsAsMap_iff hpos ops (inv_empty orders capacity)

/-- Two insertions and a deletion on a page. -/
theorem acts_as_map_sample : 0 < 2 ∧
    (ActsAsMap 2 [.insert 7, .insert 8, .delete (slotRid 1 0)]
        (.empty (.const .newestFirst) : FileState ℕ) ↔
      AllOffered 2 [.insert 7, .insert 8, .delete (slotRid 1 0)]
        (.empty (.const .newestFirst) : FileState ℕ)) :=
  ⟨by decide, acts_as_map_iff (.const .newestFirst) 2 (by decide) _⟩

/-- A record that is inserted after the last record of its page has been deleted is not found. -/
theorem not_acts_as_map :
    ¬ ActsAsMap 2 [.insert 7, .delete (slotRid 1 0), .insert 8]
      (.empty (.const .newestFirst) : FileState ℕ) := by
  have hins : ((RecordFile.empty (.const .newestFirst)).insertRecord 2 7).map
      (fun r => r.1.toOption) = some (some (slotRid 1 0)) := by decide
  have hpage : ((RecordFile.empty (.const .newestFirst)).insertRecord 2 7).map (fun r =>
      ((r.2.deleteRecord (slotRid 1 0)).2.findFreePage
        (r.2.deleteRecord (slotRid 1 0)).2.freePages).1.toOption) = some (some (some 1)) := by
    decide
  have hbit : ((RecordFile.empty (.const .newestFirst)).insertRecord 2 7).map (fun r =>
      (r.2.deleteRecord (slotRid 1 0)).2.header.bitmap 1) = some false := by decide
  rw [Inv.actsAsMap_iff (by decide) _ (inv_empty _ 2)]
  rintro ⟨-, hall⟩
  obtain ⟨⟨rid, file⟩, heq, hrid⟩ := Option.map_eq_some_iff.mp hins
  cases rid with
  | error rc => cases hrid
  | ok rid =>
    obtain rfl : rid = slotRid 1 0 := Option.some.inj hrid
    rw [heq, Option.map_some, Option.some_inj] at hpage hbit
    have heq' : (empty (.const .newestFirst) : FileState ℕ).file.insertRecord 2 7 =
        some (.ok (slotRid 1 0), file) := heq
    rw [heq'] at hall
    obtain ⟨hoffered, -⟩ := hall (by simp)
    generalize hfind : RecordFile.findFreePage _ _ = found at hpage
    obtain ⟨found, rest⟩ := found
    cases found with
    | error rc => cases hpage
    | ok found =>
      obtain rfl : found = some 1 := Option.some.inj hpage
      exact Bool.false_ne_true (hbit.symm.trans (hoffered 1 rest hfind))

end Miniob.Storage.Record
