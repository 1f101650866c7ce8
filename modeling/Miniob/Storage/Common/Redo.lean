import Miniob.Storage.Common.Db

/-!
# Redo over a file

Recovery applies all redo records to a data file, whatever part of them the file has already.
`RecordPageHandler::recover_insert_record` fills a slot and counts a record, whether or not the
slot is in use, and it fails on a page that is full.

* `Redid`: what one redo record does to a file.
* `Fresh`, `Live`: a log that agrees with the records of a table.
* `redoAll_ok`: such a log is applied as a whole.
* `redoAll_counted`: if every page counts its records in the end, the log was fresh.
* `Image`: a file that has been written while the log was.
-/

namespace Miniob.Storage.Common

open Miniob.Common Miniob.Storage.Index Miniob.Storage.Record Miniob.Storage.Transaction

variable {V A : Type} [LinearOrder A]

/-! ## One redo record -/

section Redo

variable {file file' : RecordFile (RecordData V)} {capacity : ℕ}

/-- A slot of a page that has room. -/
def HasRoom (file : RecordFile (RecordData V)) (p slot : ℕ) : Prop :=
  (0 < p ∧ p < file.length) ∧ slot < (file.page p).recordCapacity ∧
    (file.page p).recordNum ≠ (file.page p).recordCapacity

/-- The redo of an insertion fills a slot of a page that has room, or it fails. -/
theorem recoverInsertRecord_cases (file : RecordFile (RecordData V)) (p slot : ℕ)
    (data : RecordData V) :
    (HasRoom file p slot ∧ ∃ header, file.recoverInsertRecord (slotRid p slot) data =
        (.success, { file.setPage p ((file.page p).fill slot data) with header := header })) ∨
    ¬ HasRoom file p slot ∧ (file.recoverInsertRecord (slotRid p slot) data).1 ≠ .success ∧
      ∃ header, (file.recoverInsertRecord (slotRid p slot) data).2 =
        { file with header := header } := by
  unfold HasRoom
  by_cases hin : 0 < p ∧ p < file.length
  · have hget : file.getThisPage (slotRid p slot).pageNum = some (p, file.page p) :=
      RecordFile.getThisPage_natCast hin.1 hin.2
    have hto : (slotRid p slot).slotNum.toNat = slot := by simp [slotRid]
    unfold RecordFile.recoverInsertRecord RecordPage.recoverInsertRecord
    simp only [hget, hto]
    by_cases hfull : (file.page p).recordNum = (file.page p).recordCapacity
    · simp only [if_pos hfull]
      exact Or.inr ⟨fun h => h.2.2 hfull, by simp, _, rfl⟩
    · by_cases hslot : (file.page p).recordCapacity ≤ slot
      · simp only [if_neg hfull, if_pos hslot]
        exact Or.inr ⟨fun h => absurd h.2.1 (not_lt.mpr hslot), by simp, _, rfl⟩
      · simp only [if_neg hfull, if_neg hslot]
        exact Or.inl ⟨⟨hin, not_le.mp hslot, hfull⟩, _, rfl⟩
  · have hget : file.getThisPage (slotRid p slot).pageNum = none := by
      rw [RecordFile.getThisPage, if_neg]
      simp only [slotRid]
      omega
    unfold RecordFile.recoverInsertRecord
    simp only [hget]
    exact Or.inr ⟨fun h => hin h.1, by simp, file.header, rfl⟩

/-- The slot is emptied, or the page is not there, or the redo of a deletion fails. -/
theorem deleteRecord_cases (file : RecordFile (RecordData V)) (p slot : ℕ) :
    (0 < p ∧ p < file.length ∧ (file.page p).used slot ∧
      ∃ header, file.deleteRecord (slotRid p slot) = (.success, RecordFile.addFreePage
        { file.setPage p ((file.page p).clear slot) with header := header } p)) ∨
    file.record (slotRid p slot) = none ∧ (file.deleteRecord (slotRid p slot)).2 = file := by
  by_cases hused : (0 < p ∧ p < file.length) ∧ (file.page p).used slot
  · obtain ⟨⟨hp, hlt⟩, hslot, hbit⟩ := hused
    have hget : file.getThisPage (slotRid p slot).pageNum = some (p, file.page p) :=
      RecordFile.getThisPage_natCast hp hlt
    have hto : (slotRid p slot).slotNum.toNat = slot := by simp [slotRid]
    have hdel : (file.page p).deleteRecord slot = .ok ((file.page p).clear slot) := by
      rw [RecordPage.deleteRecord, if_neg (by omega), if_neg (by simp [hbit])]
    obtain ⟨header, hdispose, -, -⟩ :=
      (file.setPage p ((file.page p).clear slot)).disposeEmpty_eq p
    unfold RecordFile.deleteRecord
    simp only [hget, hto, hdel, hdispose]
    exact Or.inl ⟨hp, hlt, ⟨hslot, hbit⟩, header, rfl⟩
  · have hnone : file.record (slotRid p slot) = none := by
      rw [Option.eq_none_iff_forall_ne_some]
      intro data hrid
      obtain ⟨p', slot', heq, hp, hlt, hu, -⟩ := RecordFile.record_eq_some hrid
      simp only [slotRid, RID.mk.injEq, Nat.cast_inj] at heq
      obtain ⟨rfl, rfl⟩ := heq
      exact hused ⟨⟨hp, hlt⟩, hu⟩
    obtain ⟨rc, hdel, -⟩ := RecordFile.deleteRecord_of_none
      (show 0 ≤ (slotRid p slot).slotNum by simp [slotRid]) hnone
    exact Or.inr ⟨hnone, by rw [hdel]⟩

/-- Every page counts its records. -/
def AllCounted (file : RecordFile (RecordData V)) (capacity : ℕ) : Prop :=
  ∀ p, 0 < p → p < file.length → (file.page p).Counted capacity

/-- Every page counts its records, and perhaps some of them more than once. -/
def AllOver (file : RecordFile (RecordData V)) (capacity : ℕ) : Prop :=
  ∀ p, 0 < p → p < file.length → (file.page p).recordCapacity = capacity ∧
    (bitCount (file.page p).bitmap capacity : Int) ≤ (file.page p).recordNum

section Update

variable {g : RecordFile (RecordData V)} {p : ℕ} {page : RecordPage (RecordData V)}

/-- A file of which one page has changed has the property on all pages if the old file has it and
the new page. -/
theorem forall_page_of_update {P : RecordPage (RecordData V) → Prop} (hlen : g.length = file.length)
    (hpage : g.page = Function.update file.page p page) (hnew : P page)
    (hold : ∀ q, 0 < q → q < file.length → P (file.page q)) :
    ∀ q, 0 < q → q < g.length → P (g.page q) := by
  intro q hq hqlt
  rw [hpage]
  by_cases hqp : q = p
  · subst hqp
    rwa [Function.update_self]
  · rw [Function.update_of_ne hqp]
    exact hold q hq (hlen ▸ hqlt)

theorem AllOver.update (h : AllOver file capacity) (hlen : g.length = file.length)
    (hpage : g.page = Function.update file.page p page) (hcap : page.recordCapacity = capacity)
    (hnum : (bitCount page.bitmap capacity : Int) ≤ page.recordNum) : AllOver g capacity :=
  forall_page_of_update (P := fun page => page.recordCapacity = capacity ∧
    (bitCount page.bitmap capacity : Int) ≤ page.recordNum) hlen hpage ⟨hcap, hnum⟩ h

theorem AllCounted.update (h : AllCounted file capacity) (hlen : g.length = file.length)
    (hpage : g.page = Function.update file.page p page) (hnew : page.Counted capacity) :
    AllCounted g capacity :=
  forall_page_of_update (P := fun page => page.Counted capacity) hlen hpage hnew h

/-- The changed page counts its records, and the old file does if the old page did. -/
theorem AllCounted.of_update (h : AllCounted g capacity) (hlen : g.length = file.length)
    (hpage : g.page = Function.update file.page p page) (hp : 0 < p) (hlt : p < file.length) :
    page.Counted capacity ∧ ((file.page p).Counted capacity → AllCounted file capacity) := by
  constructor
  · have hself := h p hp (hlen ▸ hlt)
    rwa [hpage, Function.update_self] at hself
  · intro hold
    refine h.update (p := p) hlen.symm ?_ hold
    rw [hpage, Function.update_idem, Function.update_eq_self]

end Update

theorem AllCounted.allOver (h : AllCounted file capacity) : AllOver file capacity := by
  intro p hp hlt
  obtain ⟨hcap, hnum⟩ := h p hp hlt
  exact ⟨hcap, hnum.ge⟩

/-- Filling a slot counts one record more, whether or not the slot is in use. -/
theorem bitCount_fill (page : RecordPage (RecordData V)) {slot : ℕ} (hslot : slot < capacity)
    (data : RecordData V) :
    bitCount (page.fill slot data).bitmap capacity =
      bitCount page.bitmap capacity + if page.bitmap slot then 0 else 1 := by
  unfold RecordPage.fill
  dsimp only
  split
  · rename_i hbit
    rw [← hbit, Function.update_eq_self]
    rfl
  · rename_i hbit
    exact bitCount_set hslot (Bool.eq_false_iff.mpr hbit)

/-- The identifiers of a log name slots of a file. -/
def Names (log : List (LogRecord V)) (length capacity : ℕ) : Prop :=
  ∀ r ∈ log, ∃ p slot : ℕ, r.redoRid = some (slotRid p slot) ∧ 0 < p ∧ p < length ∧ slot < capacity

/-- What a redo record does to a file: a slot is filled or emptied, or all pages stay as they are. -/
inductive Redid (file : RecordFile (RecordData V)) :
    LogRecord V → RC → RecordFile (RecordData V) → Prop
  /-- The slot of an insertion is filled. -/
  | fill {trxId data header} {p slot : ℕ} (hroom : HasRoom file p slot) :
      Redid file (.redoInsert trxId (slotRid p slot) data) .success
        { file.setPage p ((file.page p).fill slot data) with header := header }
  /-- The page of an insertion is full or not there. -/
  | failed {trxId data header rc} {p slot : ℕ} (hroom : ¬ HasRoom file p slot)
      (hrc : rc ≠ .success) :
      Redid file (.redoInsert trxId (slotRid p slot) data) rc { file with header := header }
  /-- The slot of a deletion is emptied. -/
  | clear {trxId header} {p slot : ℕ} (hp : 0 < p) (hlt : p < file.length)
      (hused : (file.page p).used slot) :
      Redid file (.redoDelete trxId (slotRid p slot)) .success
        (RecordFile.addFreePage
          { file.setPage p ((file.page p).clear slot) with header := header } p)
  /-- The slot of a deletion is empty already, or its page is not there. -/
  | absent {trxId rc} {p slot : ℕ} (hnone : file.record (slotRid p slot) = none) :
      Redid file (.redoDelete trxId (slotRid p slot)) rc file

theorem redid (file : RecordFile (RecordData V)) {r : LogRecord V} {p slot : ℕ}
    (hrid : r.redoRid = some (slotRid p slot)) : Redid file r (redo file r).1 (redo file r).2 := by
  cases r with
  | redoInsert trxId rid data =>
    cases hrid
    rcases recoverInsertRecord_cases file p slot data with
      ⟨hroom, header, hredo⟩ | ⟨hroom, hrc, header, hredo⟩
    · rw [redo, hredo]
      exact .fill hroom
    · rw [redo, hredo]
      exact .failed hroom hrc
  | redoDelete trxId rid =>
    cases hrid
    rcases deleteRecord_cases file p slot with ⟨hp, hlt, hused, header, hredo⟩ | ⟨hnone, hredo⟩
    · rw [redo, hredo]
      exact .clear hp hlt hused
    · rw [redo, hredo]
      exact .absent hnone
  | mtrBegin => cases hrid
  | mtrCommit => cases hrid

section Redid

variable {r : LogRecord V} {rc : RC}

theorem Redid.length (h : Redid file r rc file') : file'.length = file.length := by
  cases h <;> rfl

/-- What a redo record says about the records is what it does, if it does not fail. -/
theorem Redid.record (h : Redid file r rc file') (hrc : rc = .success) :
    file'.record = r.apply file.record := by
  cases h with
  | fill hroom => exact RecordFile.record_setPage_fill hroom.1.1 hroom.1.2 hroom.2.1 _
  | failed _ hne => exact absurd hrc hne
  | clear hp hlt => exact RecordFile.record_setPage_clear hp hlt
  | absent hnone => exact (Function.update_eq_self_iff.mpr hnone.symm).symm

/-- A record of the file was there before, or it is the one that is inserted. -/
theorem Redid.record_ne_none (h : Redid file r rc file') {rid : RID}
    (hrid : file'.record rid ≠ none) :
    file.record rid ≠ none ∨ ∃ trxId data, r = .redoInsert trxId rid data := by
  cases h with
  | @fill trxId data header p slot hroom =>
    obtain ⟨⟨hp, hlt⟩, hslot, -⟩ := hroom
    have hrecord : RecordFile.record
        { file.setPage p ((file.page p).fill slot data) with header := header } =
          Function.update file.record (slotRid p slot) (some data) :=
      RecordFile.record_setPage_fill hp hlt hslot data
    rw [hrecord] at hrid
    by_cases hne : rid = slotRid p slot
    · exact Or.inr ⟨_, _, by rw [hne]⟩
    · rw [Function.update_of_ne hne] at hrid
      exact Or.inl hrid
  | failed => exact Or.inl hrid
  | @clear trxId header p slot hp hlt hused =>
    have hrecord : (RecordFile.addFreePage
        { file.setPage p ((file.page p).clear slot) with header := header } p).record =
          Function.update file.record (slotRid p slot) none :=
      RecordFile.record_setPage_clear hp hlt
    rw [hrecord] at hrid
    by_cases hne : rid = slotRid p slot
    · rw [hne, Function.update_self] at hrid
      exact absurd rfl hrid
    · rw [Function.update_of_ne hne] at hrid
      exact Or.inl hrid
  | absent => exact Or.inl hrid

/-- No page ever counts fewer records than it has. -/
theorem Redid.allOver (h : Redid file r rc file') (hover : AllOver file capacity) :
    AllOver file' capacity := by
  cases h with
  | @fill trxId data header p slot hroom =>
    obtain ⟨⟨hp, hlt⟩, hslot, -⟩ := hroom
    obtain ⟨hcap, hnum⟩ := hover p hp hlt
    refine hover.update rfl rfl hcap ?_
    rw [bitCount_fill _ (hcap ▸ hslot)]
    simp only [RecordPage.fill]
    split <;> omega
  | failed => exact hover
  | @clear trxId header p slot hp hlt hused =>
    obtain ⟨hcap, hnum⟩ := hover p hp hlt
    refine hover.update rfl rfl hcap ?_
    have hreset := bitCount_reset (hcap ▸ hused.1) hused.2
    simp only [RecordPage.clear]
    omega
  | absent => exact hover

/-- A record that is counted twice stays counted twice. -/
theorem Redid.allCounted (h : Redid file r rc file') (hrc : rc = .success)
    (hover : AllOver file capacity) (hcounted : AllCounted file' capacity) :
    AllCounted file capacity ∧
      ∀ trxId rid data, r = .redoInsert trxId rid data → file.record rid = none := by
  cases h with
  | @fill trxId data header p slot hroom =>
    obtain ⟨⟨hp, hlt⟩, hslot, -⟩ := hroom
    obtain ⟨hcap, hnum⟩ := hover p hp hlt
    obtain ⟨hpage, hback⟩ := hcounted.of_update (rfl : _ = file.length) rfl hp hlt
    have hcount := hpage.recordNum
    rw [bitCount_fill _ (hcap ▸ hslot)] at hcount
    simp only [RecordPage.fill] at hcount
    have hbit : (file.page p).bitmap slot = false := by
      by_contra hbit
      rw [if_pos (by simpa using hbit)] at hcount
      omega
    rw [if_neg (by simp [hbit])] at hcount
    refine ⟨hback ⟨hcap, by omega⟩, ?_⟩
    intro trxId' rid data' heq
    cases heq
    rw [RecordFile.record_slotRid hp hlt, RecordPage.record_natCast, if_neg]
    simp [RecordPage.used, hbit]
  | failed _ hne => exact absurd hrc hne
  | @clear trxId header p slot hp hlt hused =>
    obtain ⟨hcap, hnum⟩ := hover p hp hlt
    obtain ⟨hpage, hback⟩ := hcounted.of_update (rfl : _ = file.length) rfl hp hlt
    refine ⟨hback ⟨hcap, ?_⟩, fun _ _ _ heq => by cases heq⟩
    have hreset := bitCount_reset (hcap ▸ hused.1) hused.2
    have hcount := hpage.recordNum
    simp only [RecordPage.clear] at hcount
    omega
  | absent => exact ⟨hcounted, fun _ _ _ heq => by cases heq⟩

/-- A redo record that the records of the file agree with is applied. -/
theorem Redid.ok (h : Redid file r rc file') (hcounted : AllCounted file capacity)
    (hnames : Names [r] file.length capacity)
    (hfresh : ∀ trxId rid data, r = .redoInsert trxId rid data → file.record rid = none)
    (hlive : ∀ trxId rid, r = .redoDelete trxId rid → file.record rid ≠ none) :
    rc = .success ∧ AllCounted file' capacity := by
  obtain ⟨q, i, hrid, hq, hqlt, hi⟩ := hnames r List.mem_cons_self
  have hpage := hcounted q hq hqlt
  -- the slot of an insertion is empty
  have hbit : ∀ trxId data, r = .redoInsert trxId (slotRid q i) data →
      (file.page q).bitmap i = false := by
    intro trxId data heq
    have hnone := hfresh trxId _ data heq
    rw [RecordFile.record_slotRid hq hqlt, RecordPage.record_natCast] at hnone
    by_contra hbit
    rw [if_pos ⟨hpage.recordCapacity.symm ▸ hi, by simpa using hbit⟩] at hnone
    cases hnone
  cases h with
  | @fill trxId data header p slot hroom =>
    obtain ⟨rfl, rfl⟩ : p = q ∧ slot = i := by simpa [LogRecord.redoRid, slotRid] using hrid
    exact ⟨rfl, hcounted.update rfl rfl (hpage.fill hi (hbit trxId data rfl) data)⟩
  | @failed trxId data header rc p slot hroom =>
    obtain ⟨rfl, rfl⟩ : p = q ∧ slot = i := by simpa [LogRecord.redoRid, slotRid] using hrid
    refine absurd ⟨⟨hq, hqlt⟩, hpage.recordCapacity.symm ▸ hi, ?_⟩ hroom
    have hcount := bitCount_set hi (hbit trxId data rfl)
    have hle := bitCount_le (Function.update (file.page p).bitmap slot true) capacity
    rw [hpage.recordNum, hpage.recordCapacity]
    omega
  | @clear trxId header p slot hp hlt hused =>
    obtain ⟨rfl, rfl⟩ : p = q ∧ slot = i := by simpa [LogRecord.redoRid, slotRid] using hrid
    exact ⟨rfl, hcounted.update rfl rfl (hpage.clear hi hused.2)⟩
  | @absent trxId rc p slot hnone => exact absurd hnone (hlive trxId _ rfl)

end Redid

/-! ## The whole log -/

/-- No insertion of a log is of a record that is there. -/
def Fresh : (RID → Option (RecordData V)) → List (LogRecord V) → Prop
  | _, [] => True
  | records, r :: log =>
    (∀ trxId rid data, r = .redoInsert trxId rid data → records rid = none) ∧
      Fresh (r.apply records) log

/-- Every deletion of a log is of a record that is there. -/
def Live : (RID → Option (RecordData V)) → List (LogRecord V) → Prop
  | _, [] => True
  | records, r :: log =>
    (∀ trxId rid, r = .redoDelete trxId rid → records rid ≠ none) ∧ Live (r.apply records) log

/-- The files that recovery passes through. -/
def redoMoments (file : RecordFile (RecordData V)) :
    List (LogRecord V) → List (RecordFile (RecordData V))
  | [] => [file]
  | r :: log =>
    if (redo file r).1 = .success then file :: redoMoments (redo file r).2 log
    else [file, (redo file r).2]

theorem Names.tail {r : LogRecord V} {log : List (LogRecord V)} {length : ℕ}
    (h : Names (r :: log) length capacity) : Names log length capacity :=
  fun r' hr' => h r' (List.mem_cons_of_mem _ hr')

theorem Names.head {r : LogRecord V} {log : List (LogRecord V)} {length : ℕ}
    (h : Names (r :: log) length capacity) :
    Names [r] length capacity ∧ ∃ p slot : ℕ, r.redoRid = some (slotRid p slot) := by
  obtain ⟨p, slot, hrid, hp⟩ := h r List.mem_cons_self
  refine ⟨?_, p, slot, hrid⟩
  intro r' hr'
  rw [List.mem_singleton.mp hr']
  exact ⟨p, slot, hrid, hp⟩

theorem redoAll_over (log : List (LogRecord V)) : ∀ {file : RecordFile (RecordData V)},
    Names log file.length capacity → AllOver file capacity →
    AllOver (redoAll file log).2 capacity := by
  induction log with
  | nil => exact fun _ hover => hover
  | cons r log ih =>
    intro file hnames hover
    obtain ⟨-, p, slot, hrid⟩ := hnames.head
    have hr := redid file hrid
    unfold redoAll
    split
    · exact ih (hr.length ▸ hnames.tail) (hr.allOver hover)
    · exact hr.allOver hover

/-- If every page counts its records in the end, then no insertion was of a record that was there
already, and every page counted its records in the beginning. -/
theorem redoAll_counted (log : List (LogRecord V)) : ∀ {file : RecordFile (RecordData V)},
    Names log file.length capacity → AllOver file capacity → (redoAll file log).1 = .success →
    AllCounted (redoAll file log).2 capacity → AllCounted file capacity ∧ Fresh file.record log := by
  induction log with
  | nil => exact fun _ _ _ hcounted => ⟨hcounted, trivial⟩
  | cons r log ih =>
    intro file hnames hover hrc hcounted
    obtain ⟨-, p, slot, hrid⟩ := hnames.head
    have hr := redid file hrid
    unfold redoAll at hrc hcounted
    by_cases hok : (redo file r).1 = .success
    · rw [if_pos hok] at hrc hcounted
      obtain ⟨hnext, hfresh⟩ := ih (hr.length ▸ hnames.tail) (hr.allOver hover) hrc hcounted
      obtain ⟨hfile, hnone⟩ := hr.allCounted hok hover hnext
      rw [hr.record hok] at hfresh
      exact ⟨hfile, hnone, hfresh⟩
    · rw [if_neg hok] at hrc
      exact absurd hrc hok

/-- A log that the records of the file agree with is applied as a whole. -/
theorem redoAll_ok (log : List (LogRecord V)) : ∀ {file : RecordFile (RecordData V)},
    Names log file.length capacity → AllCounted file capacity → Fresh file.record log →
    Live file.record log → (redoAll file log).1 = .success ∧
      AllCounted (redoAll file log).2 capacity ∧
      (redoAll file log).2.record = log.foldl LogRecord.apply file.record := by
  induction log with
  | nil => exact fun _ hcounted _ _ => ⟨rfl, hcounted, rfl⟩
  | cons r log ih =>
    intro file hnames hcounted hfresh hlive
    obtain ⟨hname, p, slot, hrid⟩ := hnames.head
    have hr := redid file hrid
    obtain ⟨hok, hnext⟩ := hr.ok hcounted hname hfresh.1 hlive.1
    have hrecord := hr.record hok
    unfold redoAll
    rw [if_pos hok, List.foldl_cons, ← hrecord]
    apply ih (hr.length ▸ hnames.tail) hnext
    · rw [hrecord]
      exact hfresh.2
    · rw [hrecord]
      exact hlive.2

/-- A record that a log inserts is not there in a state that the log is fresh for, if all its
deletions are of records that it has inserted. -/
theorem Fresh.notMem {rid : RID} (log : List (LogRecord V)) :
    ∀ {records records' : RID → Option (RecordData V)}, Fresh records log → Live records' log →
      records' rid = none → (∃ trxId data, LogRecord.redoInsert trxId rid data ∈ log) →
      records rid = none := by
  induction log with
  | nil =>
    rintro records records' - - - ⟨trxId, data, hmem⟩
    cases hmem
  | cons r log ih =>
    rintro records records' ⟨hfresh, hfresh'⟩ ⟨hlive, hlive'⟩ hnone ⟨trxId, data, hmem⟩
    cases r with
    | redoInsert trxId' rid' data' =>
      by_cases hrid : rid = rid'
      · subst hrid
        exact hfresh _ _ _ rfl
      · have hmem' : LogRecord.redoInsert trxId rid data ∈ log := by
          rcases List.mem_cons.mp hmem with heq | hmem
          · cases heq
            exact absurd rfl hrid
          · exact hmem
        have := ih hfresh' hlive' ((Function.update_of_ne hrid _ _).trans hnone) ⟨_, _, hmem'⟩
        rwa [LogRecord.apply, Function.update_of_ne hrid] at this
    | redoDelete trxId' rid' =>
      have hrid : rid ≠ rid' := by
        rintro rfl
        exact hlive _ _ rfl hnone
      have hmem' : LogRecord.redoInsert trxId rid data ∈ log := by simpa using hmem
      have := ih hfresh' hlive' ((Function.update_of_ne hrid _ _).trans hnone) ⟨_, _, hmem'⟩
      rwa [LogRecord.apply, Function.update_of_ne hrid] at this
    | mtrBegin => exact ih hfresh' hlive' hnone ⟨trxId, data, by simpa using hmem⟩
    | mtrCommit => exact ih hfresh' hlive' hnone ⟨trxId, data, by simpa using hmem⟩

/-- What holds of a file that has been written during a run with a log: no page counts too few
records, and every record is inserted by the log. -/
structure Image (log : List (LogRecord V)) (capacity : ℕ) (file : RecordFile (RecordData V)) :
    Prop where
  allOver : AllOver file capacity
  inserted : ∀ rid, file.record rid ≠ none →
    ∃ trxId data, LogRecord.redoInsert trxId rid data ∈ log

/-- Recovery passes through such files only. -/
theorem Image.redoMoments {whole : List (LogRecord V)} (log : List (LogRecord V)) :
    ∀ {file : RecordFile (RecordData V)}, Image whole capacity file →
      Names log file.length capacity → (∀ r ∈ log, r ∈ whole) →
      ∀ g ∈ redoMoments file log, Image whole capacity g ∧ g.length = file.length := by
  induction log with
  | nil =>
    intro file h _ _ g hg
    rw [List.mem_singleton.mp hg]
    exact ⟨h, rfl⟩
  | cons r log ih =>
    intro file h hnames hsub g hg
    obtain ⟨-, p, slot, hrid⟩ := hnames.head
    have hr := redid file hrid
    have hnext : Image whole capacity (redo file r).2 := by
      refine ⟨hr.allOver h.allOver, ?_⟩
      intro rid hne
      rcases hr.record_ne_none hne with hne | ⟨trxId, data, rfl⟩
      · exact h.inserted rid hne
      · exact ⟨trxId, data, hsub _ List.mem_cons_self⟩
    unfold Common.redoMoments at hg
    split at hg
    · rcases List.mem_cons.mp hg with rfl | hg
      · exact ⟨h, rfl⟩
      · obtain ⟨hg, hlen⟩ := ih hnext (hr.length ▸ hnames.tail)
          (fun r' hr' => hsub r' (List.mem_cons_of_mem _ hr')) g hg
        exact ⟨hg, hlen.trans hr.length⟩
    · rcases List.mem_cons.mp hg with rfl | hg
      · exact ⟨h, rfl⟩
      · rw [List.mem_singleton.mp hg]
        exact ⟨hnext, hr.length⟩

end Redo

end Miniob.Storage.Common
