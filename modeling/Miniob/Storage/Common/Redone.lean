import Miniob.Storage.Common.Consistent
import Miniob.Storage.Common.Redo

/-!
# Redo is not idempotent

A crash leaves a data file whose pages have been written at different moments. Redo should absorb
whatever is on disk already, but a record that is on disk and in the log is counted twice.

* `Change`, `runChanges`: insertions and deletions of any transactions on a table.
* `OnDisk`: the files that a crash leaves, after the run or during a later recovery.
* `Redone`: recovery gives the records that the log describes, and every page counts its records.
* `redone_iff`: this is so if and only if no page on disk counts a record, and no insertion of the
  run has taken a page from the file header that still had records.
-/

namespace Miniob.Storage.Common

open Miniob.Common Miniob.Storage.Index Miniob.Storage.Record Miniob.Storage.Transaction

variable {V A : Type} [LinearOrder A] [Inhabited V]

/-! ## Runs -/

/-- A change of a table by some transaction. -/
inductive Change (V : Type)
  /-- `Table::insert_record(trx, record)` -/
  | insert (trx : Trx) (data : RecordData V)
  /-- `Table::delete_record(trx, record)` -/
  | delete (counter : BitVec 32) (trx : Trx) (rid : RID)

namespace Change

/-- A change that succeeds. What is deleted is a record of the table. -/
def step (t : Table V A) : Change V → Option (Table V A)
  | insert trx data =>
    match t.insertRecord (some trx) data .success with
    | some (.ok _, t, _) => some t
    | _ => none
  | delete counter trx rid =>
    match t.record rid with
    | none => none
    | some data =>
      match t.deleteRecord counter (some trx) rid data .success with
      | (.success, t, _) => some t
      | _ => none

/-- The file in the middle of a change: a page has been allocated, and written to disk by
`init_empty_page`, before it gets its first record. -/
def during (t : Table V A) : Change V → RecordFile (RecordData V)
  | insert _ _ => (t.records.choosePage t.recordCapacity).2
  | delete .. => t.records

/-- An insertion does not take a page from the file header that has records. -/
def Keeps (t : Table V A) : Change V → Prop
  | insert _ _ => t.KeepsRecords
  | delete .. => True

end Change

/-- A sequence of changes that succeed. -/
def runChanges (changes : List (Change V)) (t : Table V A) : Option (Table V A) :=
  changes.foldlM Change.step t

/-- The states of the data file during a run. -/
def moments : List (Change V) → Table V A → List (RecordFile (RecordData V))
  | [], t => [t.records]
  | c :: changes, t => t.records :: c.during t ::
    match c.step t with
    | none => []
    | some t => moments changes t

/-- No insertion of a run takes a page from the file header that has records. -/
def KeepsAll : List (Change V) → Table V A → Prop
  | [], _ => True
  | c :: changes, t => c.Keeps t ∧ ∀ t', c.step t = some t' → KeepsAll changes t'

/-! ## What is on disk -/

/-- Every page of a file on disk has been written at some moment. Nothing is assumed of the file
header, which is written like any other page. -/
structure WrittenAt {R : Type} (states : List (RecordFile R)) (length : ℕ) (disk : RecordFile R) :
    Prop where
  sameLength : disk.length = length
  page : ∀ p, 0 < p → p < length → ∃ f ∈ states, p < f.length ∧ disk.page p = f.page p

/-- The files that a crash leaves: after the run, whose states are given, or after a recovery that
has started from such a file and has come to its end, or not. -/
inductive OnDisk (states : List (RecordFile (RecordData V))) (log : List (LogRecord V))
    (length : ℕ) : RecordFile (RecordData V) → Prop
  /-- After the run. -/
  | crash {disk : RecordFile (RecordData V)} (h : WrittenAt states length disk) :
      OnDisk states log length disk
  /-- After a recovery. -/
  | restart {disk disk' : RecordFile (RecordData V)} (h : OnDisk states log length disk)
      (h' : WrittenAt (redoMoments disk log) length disk') : OnDisk states log length disk'

/-- Recovery succeeds, the table has the records that the redo records describe, and on every page
`record_num` is the number of bits that are set. -/
def Redone (db : Db V A) (name : String) (log : List (String × LogRecord V)) (counter : BitVec 32)
    (redoList : List (LogRecord V)) : Prop :=
  (db.recover log counter).1 = .success ∧
    ∃ t, (db.recover log counter).2.1.openedTables name = some t ∧
      t.record = replayed redoList ∧
      ∀ p, 0 < p → p < t.records.length → (t.records.page p).recordNum =
        bitCount (t.records.page p).bitmap (t.records.page p).recordCapacity

/-! ## One change -/

/-- What holds of a table between two changes. -/
structure Table.Intact (t : Table V A) : Prop where
  inv : t.records.Inv t.recordCapacity
  /-- A page with records leaves `free_pages_` when it is full. -/
  tracked : ∀ rid, t.record rid ≠ none → t.records.Tracked rid.pageNum.toNat

/-- What a change does to a table, and what it writes to the log. -/
structure Change.Stepped (c : Change V) (t t' : Table V A) (r : LogRecord V) : Prop where
  intact : t'.Intact
  recordCapacity : t'.recordCapacity = t.recordCapacity
  log : t'.log = t.log ++ [r]
  length : t.records.length ≤ t'.records.length
  names : Names [r] t'.records.length t.recordCapacity
  /-- A deletion is of a record that is there. -/
  live : ∀ trxId rid, r = .redoDelete trxId rid → t.record rid ≠ none
  /-- An insertion is of a record that is not there, unless it takes a page that has records. -/
  fresh : (∀ trxId rid data, r = .redoInsert trxId rid data → t.record rid = none) ↔ c.Keeps t
  record : c.Keeps t → t'.record = r.apply t.record
  /-- All records that are left are in the log. -/
  left : ∀ rid, t'.record rid ≠ none → t'.record rid = r.apply t.record rid

omit [Inhabited V] in
/-- A record that is there names a slot of the file. -/
theorem Table.Intact.names {t : Table V A} (h : t.Intact) {rid : RID} {data : RecordData V}
    (hrid : t.record rid = some data) {r : LogRecord V} (hr : r.redoRid = some rid) :
    Names [r] t.records.length t.recordCapacity := by
  intro r' hr'
  rw [List.mem_singleton.mp hr']
  obtain ⟨p, slot, rfl, hp, hlt, hused, -⟩ := RecordFile.record_eq_some hrid
  exact ⟨p, slot, hr, hp, hlt, (h.inv.counted p hp hlt).recordCapacity ▸ hused.1⟩

omit [Inhabited V] in
/-- An insertion is of a record that is not there if it does not take a page that has records. A
page that has records is full when it is taken, and the insertion is into its first slot. -/
theorem Table.Intact.fresh_iff {t : Table V A} (h : t.Intact) {records : RecordFile (RecordData V)}
    {rid : RID} {data : RecordData V}
    (hi : t.records.Inserted records t.recordCapacity rid data) :
    t.record rid = none ↔ t.KeepsRecords := by
  constructor
  · intro hnone rid' data' hrid' hreused
    have hfull := h.inv.full_of_reusedPage hreused _ (h.tracked rid' (by rw [hrid']; simp))
    obtain ⟨p, slot, rfl, hp, hlt, hused, -⟩ := RecordFile.record_eq_some hrid'
    rw [show (slotRid p slot).pageNum.toNat = p by simp [slotRid]] at hfull hreused
    obtain ⟨first, hfirst⟩ := h.inv.record_first hp hlt hfull hused
    have hrid : t.record rid = some first := by
      rw [hi.reused p hreused]
      exact hfirst
    rw [hrid] at hnone
    cases hnone
  · intro hkeep
    rw [← hkeep.wiped_eq]
    exact hi.fresh

theorem Table.insertRecord_length {t t' : Table V A} {trx : Trx} {trx' : Option Trx}
    {data : RecordData V} {rid : RID}
    (h : t.insertRecord (some trx) data .success = some (.ok rid, t', trx')) :
    t.records.length ≤ t'.records.length := by
  unfold Table.insertRecord at h
  obtain ⟨⟨inserted, records⟩, heq, h⟩ := Option.bind_eq_some_iff.mp h
  have hlength := RecordFile.length_le_insertRecord heq
  cases inserted with
  | error rc => simp at h
  | ok r =>
    simp only at h
    split at h
    · unfold Table.insertEntries at h
      split at h
      · simp only [Table.logInsert, Option.pure_def, Option.some_inj, Prod.mk.injEq] at h
        obtain ⟨-, rfl, -⟩ := h
        exact hlength
      · simp at h
    · simp at h

theorem Change.stepped_insert {t t' : Table V A} (h : t.Intact) {trx : Trx} {data : RecordData V}
    (hstep : (Change.insert trx data).step t = some t') :
    ∃ r, (Change.insert trx data).Stepped t t' r := by
  simp only [Change.step] at hstep
  split at hstep
  · rename_i rid t₁ trx' hins
    cases hstep
    have hlength := Table.insertRecord_length hins
    obtain ⟨records, indexes, x, hi, -, -, -, rfl⟩ := Table.insertRecord_ok h.inv hins
    have hrecord : records.record =
        Function.update t.records.wiped rid (some (trx.initTrxInfo data)) := hi.record
    have hold : ∀ r, r ≠ rid → records.record r ≠ none → records.record r = t.record r := by
      intro r hne hr
      rw [hrecord, Function.update_of_ne hne] at hr ⊢
      obtain ⟨d, hd⟩ := Option.ne_none_iff_exists'.mp hr
      rw [hd]
      exact (RecordFile.record_of_wiped hd).symm
    have hintact : Table.Intact { t with
        records := records
        indexes := indexes
        log := t.log ++ [.redoInsert x.trxId rid (trx.initTrxInfo data)] } := by
      refine ⟨hi.inv, fun r hr => ?_⟩
      by_cases hne : r = rid
      · rw [hne]
        exact hi.page
      · exact hi.tracked _ (h.tracked r (hold r hne hr ▸ hr))
    have hnew : records.record rid = some (trx.initTrxInfo data) := by
      rw [hrecord, Function.update_self]
    refine ⟨.redoInsert x.trxId rid (trx.initTrxInfo data), hintact, rfl, rfl, hlength,
      hintact.names hnew rfl, ?_, ?_, ?_, ?_⟩
    · intro trxId r heq
      cases heq
    · rw [Change.Keeps, ← h.fresh_iff hi]
      constructor
      · exact fun hnone => hnone _ _ _ rfl
      · intro hnone trxId r d heq
        cases heq
        exact hnone
    · intro hkeep
      show records.record = _
      rw [hrecord, hkeep.wiped_eq]
      rfl
    · intro r hr
      show records.record r = Function.update t.record rid _ r
      by_cases hne : r = rid
      · rw [hne, Function.update_self, hnew]
      · rw [Function.update_of_ne hne, hold r hne hr]
  · cases hstep

omit [Inhabited V] in
/-- A successful deletion. -/
theorem Table.deleteRecord_ok {t t' : Table V A} (hinv : t.records.Inv t.recordCapacity)
    {rid : RID} {data : RecordData V} (hrid : t.record rid = some data)
    {counter counter' : BitVec 32} {trx : Trx} {trx' : Option Trx}
    (h : t.deleteRecord counter (some trx) rid data .success = (.success, t', trx', counter')) :
    ∃ records indexes, t.records.Deleted records t.recordCapacity rid ∧
      records.length = t.records.length ∧ t' = { t with
        records := records
        indexes := indexes
        log := t.log ++ [.redoDelete (trx.deleteRecord counter rid).2.1.trxId rid] } := by
  obtain ⟨records, hrecords, hd⟩ := hinv.deleteRecord hrid
  have hlength : records.length = t.records.length := by
    rw [← t.records.length_deleteRecord rid, hrecords]
  unfold Table.deleteRecord at h
  split at h
  · rename_i indexes _
    simp only [hrecords, Prod.mk.injEq] at h
    obtain ⟨-, rfl, -⟩ := h
    exact ⟨records, indexes, hd, hlength, rfl⟩
  · rename_i hne _
    cases h
    exact (hne rfl).elim

theorem Change.stepped_delete {t t' : Table V A} (h : t.Intact) {counter : BitVec 32} {trx : Trx}
    {rid : RID} (hstep : (Change.delete counter trx rid).step t = some t') :
    ∃ r, (Change.delete counter trx rid).Stepped t t' r := by
  simp only [Change.step] at hstep
  split at hstep
  · cases hstep
  · rename_i data hrid
    split at hstep
    swap
    · cases hstep
    rename_i t₁ _ hdelete
    cases hstep
    obtain ⟨records, indexes, hd, hlength, rfl⟩ := Table.deleteRecord_ok h.inv hrid hdelete
    have hrecord : records.record = Function.update t.record rid none := hd.record
    have hold : ∀ r, records.record r ≠ none → records.record r = t.record r := by
      intro r hr
      by_cases hne : r = rid
      · rw [hrecord, hne, Function.update_self] at hr
        exact absurd rfl hr
      · rw [hrecord, Function.update_of_ne hne]
    refine ⟨.redoDelete _ rid, ⟨hd.inv, ?_⟩, rfl, rfl, hlength.ge, ?_, ?_, ?_, ?_, ?_⟩
    · exact fun r hr => hd.tracked _ (h.tracked r (hold r hr ▸ hr))
    · show Names _ records.length _
      rw [hlength]
      exact h.names hrid rfl
    · intro trxId r heq
      cases heq
      rw [hrid]
      simp
    · exact iff_of_true (fun trxId r d heq => by cases heq) trivial
    · exact fun _ => hrecord
    · intro r _
      exact congrFun hrecord r

theorem Change.stepped {c : Change V} {t t' : Table V A} (h : t.Intact)
    (hstep : c.step t = some t') : ∃ r, c.Stepped t t' r := by
  cases c with
  | insert trx data => exact stepped_insert h hstep
  | delete counter trx rid => exact stepped_delete h hstep

/-- A page that has been allocated in the middle of an insertion has no records yet. -/
theorem Change.during_spec (c : Change V) {t : Table V A} (h : t.Intact) :
    AllOver (c.during t) t.recordCapacity ∧
      ∀ rid, (c.during t).record rid ≠ none → t.record rid ≠ none := by
  cases c with
  | delete counter trx rid => exact ⟨AllCounted.allOver h.inv.counted, fun rid hrid => hrid⟩
  | insert trx data =>
    have hchosen : t.records.Chosen (t.records.choosePage t.recordCapacity).2 t.recordCapacity := by
      rcases h.inv.choosePage with ⟨p, file, heq, hc, -⟩ | ⟨rc, file, heq, hc⟩
      · rw [heq]
        exact hc
      · rw [heq]
        exact hc
    refine ⟨AllCounted.allOver hchosen.inv.counted, ?_⟩
    intro rid hrid
    have hwiped : t.records.wiped rid ≠ none := by rwa [← hchosen.record]
    obtain ⟨data, hdata⟩ := Option.ne_none_iff_exists'.mp hwiped
    rw [Table.record, RecordFile.record_of_wiped hdata]
    simp

/-! ## The whole run -/

/-- What a run does to a table, and what it writes to the log. -/
structure Logged (changes : List (Change V)) (t : Table V A) (log : List (LogRecord V))
    (length : ℕ) : Prop where
  notLonger : t.records.length ≤ length
  names : Names log length t.recordCapacity
  live : ∀ records, (∀ rid, t.record rid ≠ none → records rid ≠ none) → Live records log
  fresh : Fresh t.record log ↔ KeepsAll changes t
  allOver : ∀ f ∈ moments changes t, AllOver f t.recordCapacity
  inserted : ∀ f ∈ moments changes t, ∀ rid, f.record rid ≠ none →
    t.record rid ≠ none ∨ ∃ trxId data, LogRecord.redoInsert trxId rid data ∈ log

omit [LinearOrder A] [Inhabited V] in
/-- What a redo record leaves is left of more records, too. -/
theorem apply_ne_none {records records' : RID → Option (RecordData V)} (r : LogRecord V)
    (hsub : ∀ rid, records rid ≠ none → records' rid ≠ none) (rid : RID)
    (hrid : r.apply records rid ≠ none) : r.apply records' rid ≠ none := by
  have hupdate : ∀ (rid' : RID) (value : Option (RecordData V)),
      Function.update records rid' value rid ≠ none →
      Function.update records' rid' value rid ≠ none := by
    intro rid' value hne
    by_cases heq : rid = rid'
    · rwa [heq, Function.update_self] at hne ⊢
    · rw [Function.update_of_ne heq] at hne ⊢
      exact hsub rid hne
  cases r with
  | redoInsert trxId rid' data => exact hupdate rid' _ hrid
  | redoDelete trxId rid' => exact hupdate rid' _ hrid
  | mtrBegin => exact hsub rid hrid
  | mtrCommit => exact hsub rid hrid

omit [LinearOrder A] [Inhabited V] in
/-- A record that a redo record leaves was there before, or it is the one that is inserted. -/
theorem apply_cases {records : RID → Option (RecordData V)} {r : LogRecord V} {rid : RID}
    (hrid : r.apply records rid ≠ none) :
    records rid ≠ none ∨ ∃ trxId data, r = .redoInsert trxId rid data := by
  cases r with
  | redoInsert trxId rid' data =>
    by_cases heq : rid = rid'
    · exact Or.inr ⟨trxId, data, by rw [heq]⟩
    · rw [LogRecord.apply, Function.update_of_ne heq] at hrid
      exact Or.inl hrid
  | redoDelete trxId rid' =>
    by_cases heq : rid = rid'
    · rw [LogRecord.apply, heq, Function.update_self] at hrid
      exact absurd rfl hrid
    · rw [LogRecord.apply, Function.update_of_ne heq] at hrid
      exact Or.inl hrid
  | mtrBegin => exact Or.inl hrid
  | mtrCommit => exact Or.inl hrid

omit [Inhabited V] in
theorem Names.mono {log : List (LogRecord V)} {length length' capacity : ℕ}
    (h : Names log length capacity) (hle : length ≤ length') : Names log length' capacity := by
  intro r hr
  obtain ⟨p, slot, hrid, hp, hlt, hslot⟩ := h r hr
  exact ⟨p, slot, hrid, hp, hlt.trans_le hle, hslot⟩

theorem runChanges_logged (changes : List (Change V)) : ∀ {t t' : Table V A}, t.Intact →
    runChanges changes t = some t' →
    ∃ log, t'.log = t.log ++ log ∧ Logged changes t log t'.records.length := by
  induction changes with
  | nil =>
    intro t t' h hrun
    cases hrun
    refine ⟨[], by simp, le_refl _, ?_, fun _ _ => trivial, iff_of_true trivial trivial, ?_, ?_⟩
    · intro r hr
      cases hr
    · intro f hf
      rw [List.mem_singleton.mp hf]
      exact AllCounted.allOver h.inv.counted
    · intro f hf rid hrid
      rw [List.mem_singleton.mp hf] at hrid
      exact Or.inl hrid
  | cons c changes ih =>
    intro t t' h hrun
    rw [runChanges, List.foldlM_cons] at hrun
    obtain ⟨t₁, hstep, hrun⟩ := Option.bind_eq_some_iff.mp hrun
    obtain ⟨r, hr⟩ := Change.stepped h hstep
    obtain ⟨log, hlog, hl⟩ := ih hr.intact hrun
    have hcapacity := hr.recordCapacity
    refine ⟨r :: log, by rw [hlog, hr.log, List.append_assoc]; rfl, hr.length.trans hl.notLonger,
      ?_, ?_, ?_, ?_, ?_⟩
    · intro r' hr'
      rcases List.mem_cons.mp hr' with rfl | hr'
      · exact hr.names.mono hl.notLonger r' List.mem_cons_self
      · exact hcapacity ▸ hl.names r' hr'
    · intro records hsub
      refine ⟨fun trxId rid heq => hsub rid (hr.live trxId rid heq), hl.live _ ?_⟩
      intro rid hrid
      apply apply_ne_none r hsub rid
      rwa [← hr.left rid hrid]
    · unfold Fresh KeepsAll
      rw [hr.fresh]
      refine and_congr_right fun hkeep => ?_
      rw [← hr.record hkeep, hl.fresh]
      constructor
      · intro hall t₂ hstep₂
        rw [hstep] at hstep₂
        cases hstep₂
        exact hall
      · exact fun hall => hall t₁ hstep
    · intro f hf
      simp only [moments, hstep] at hf
      rcases List.mem_cons.mp hf with rfl | hf
      · exact AllCounted.allOver h.inv.counted
      · rcases List.mem_cons.mp hf with rfl | hf
        · exact (c.during_spec h).1
        · exact hcapacity ▸ hl.allOver f hf
    · intro f hf rid hrid
      simp only [moments, hstep] at hf
      rcases List.mem_cons.mp hf with rfl | hf
      · exact Or.inl hrid
      · rcases List.mem_cons.mp hf with rfl | hf
        · exact Or.inl ((c.during_spec h).2 rid hrid)
        · rcases hl.inserted f hf rid hrid with hne | ⟨trxId, data, hmem⟩
          · rcases apply_cases (hr.left rid hne ▸ hne) with hold | ⟨trxId, data, rfl⟩
            · exact Or.inl hold
            · exact Or.inr ⟨trxId, data, List.mem_cons_self⟩
          · exact Or.inr ⟨trxId, data, List.mem_cons_of_mem _ hmem⟩

omit [Inhabited V] in
/-- A file that is put together from such files is one of them. -/
theorem WrittenAt.image {states : List (RecordFile (RecordData V))} {log : List (LogRecord V)}
    {length capacity : ℕ} {disk : RecordFile (RecordData V)} (h : WrittenAt states length disk)
    (hstates : ∀ f ∈ states, Image log capacity f) : Image log capacity disk := by
  constructor
  · intro p hp hlt
    obtain ⟨f, hf, hplt, hpage⟩ := h.page p hp (h.sameLength ▸ hlt)
    rw [hpage]
    exact (hstates f hf).allOver p hp hplt
  · intro rid hrid
    obtain ⟨data, hdata⟩ := Option.ne_none_iff_exists'.mp hrid
    obtain ⟨p, slot, rfl, hp, hlt, -, -⟩ := RecordFile.record_eq_some hdata
    obtain ⟨f, hf, hplt, hpage⟩ := h.page p hp (h.sameLength ▸ hlt)
    apply (hstates f hf).inserted
    rwa [RecordFile.record_slotRid hp hlt, hpage, ← RecordFile.record_slotRid hp hplt] at hrid

omit [Inhabited V] in
theorem OnDisk.image {states : List (RecordFile (RecordData V))} {log : List (LogRecord V)}
    {length capacity : ℕ} {disk : RecordFile (RecordData V)} (h : OnDisk states log length disk)
    (hnames : Names log length capacity) (hstates : ∀ f ∈ states, Image log capacity f) :
    Image log capacity disk ∧ disk.length = length := by
  induction h with
  | crash h => exact ⟨h.image hstates, h.sameLength⟩
  | @restart disk disk' h h' ih =>
    obtain ⟨hdisk, hlength⟩ := ih
    refine ⟨h'.image fun f hf => ?_, h'.sameLength⟩
    exact (hdisk.redoMoments log (hlength ▸ hnames) (fun _ hr => hr) f hf).1

omit [Inhabited V] in
/-- A page that counts no records has none. -/
theorem AllOver.empty {file : RecordFile (RecordData V)} {capacity : ℕ} (h : AllOver file capacity)
    (hzero : ∀ p, 0 < p → p < file.length → (file.page p).recordNum = 0) :
    AllCounted file capacity ∧ file.record = fun _ => none := by
  have hcount : ∀ p, 0 < p → p < file.length → bitCount (file.page p).bitmap capacity = 0 := by
    intro p hp hlt
    have := (h p hp hlt).2
    rw [hzero p hp hlt] at this
    omega
  constructor
  · intro p hp hlt
    refine ⟨(h p hp hlt).1, ?_⟩
    rw [hzero p hp hlt, hcount p hp hlt]
    rfl
  · funext rid
    rw [Option.eq_none_iff_forall_ne_some]
    intro data hdata
    obtain ⟨p, slot, rfl, hp, hlt, ⟨hslot, hbit⟩, -⟩ := RecordFile.record_eq_some hdata
    have hpos := bitCount_pos_iff.mpr ⟨slot, (h p hp hlt).1 ▸ hslot, hbit⟩
    rw [hcount p hp hlt] at hpos
    exact absurd hpos (lt_irrefl 0)

omit [Inhabited V] in
/-- A file without records has pages that count none. -/
theorem AllCounted.recordNum {file : RecordFile (RecordData V)} {capacity : ℕ}
    (h : AllCounted file capacity) (hnone : ∀ rid, file.record rid = none) {p : ℕ} (hp : 0 < p)
    (hlt : p < file.length) : (file.page p).recordNum = 0 := by
  have hcounted := h p hp hlt
  rw [hcounted.recordNum]
  by_contra hne
  obtain ⟨slot, hslot, hbit⟩ := bitCount_pos_iff.mp
    (Nat.pos_of_ne_zero fun heq => hne (by rw [heq]; rfl))
  have hrid := hnone (slotRid p slot)
  rw [RecordFile.record_slotRid hp hlt, RecordPage.record_natCast,
    if_pos ⟨hcounted.recordCapacity.symm ▸ hslot, hbit⟩] at hrid
  cases hrid

omit [Inhabited V] in
/-- Recovery counts every record once if and only if its log agrees with the file. -/
theorem redone_iff_counted {log : List (LogRecord V)} {file : RecordFile (RecordData V)}
    {capacity : ℕ} (hnames : Names log file.length capacity) (himage : Image log capacity file)
    (hlive : Live (fun _ => none) log) :
    ((redoAll file log).1 = .success ∧ (redoAll file log).2.record = replayed log ∧
      AllCounted (redoAll file log).2 capacity) ↔
    Fresh (fun _ => none) log ∧ ∀ p, 0 < p → p < file.length → (file.page p).recordNum = 0 := by
  constructor
  · rintro ⟨hrc, -, hcounted⟩
    obtain ⟨hfile, hfresh⟩ := redoAll_counted log hnames himage.allOver hrc hcounted
    have hnone : ∀ rid, file.record rid = none := by
      intro rid
      by_contra hne
      exact hne (hfresh.notMem log hlive rfl (himage.inserted rid hne))
    rw [show file.record = fun _ => none from funext hnone] at hfresh
    exact ⟨hfresh, fun p hp hlt => hfile.recordNum hnone hp hlt⟩
  · rintro ⟨hfresh, hzero⟩
    obtain ⟨hcounted, hnone⟩ := himage.allOver.empty hzero
    obtain ⟨hrc, hcounted', hrecord⟩ :=
      redoAll_ok log hnames hcounted (hnone ▸ hfresh) (hnone ▸ hlive)
    exact ⟨hrc, by rw [hrecord, hnone]; rfl, hcounted'⟩

/-- Recovery of a table from its log and a file that a crash has left gives the records of the log
and counts each of them once, if and only if no page on disk counts a record and no insertion of
the run has taken a page that had records. -/
theorem redone_iff {t t' : Table V A} {orders : Stream' SetOrder}
    (hempty : t.records = .empty orders) (hlog : t.log = [])
    {changes : List (Change V)} (hrun : runChanges changes t = some t')
    {disk : RecordFile (RecordData V)}
    (hdisk : OnDisk (moments changes t) t'.log t'.records.length disk)
    {name : String} {log : List (String × LogRecord V)}
    (hredo : (log.filter fun r => r.2.redoTrxId.isSome) = t'.log.map fun r => (name, r))
    (hcommit : ∀ r ∈ t'.log, ∀ trxId, r.redoTrxId = some trxId →
      ∃ name, (name, .mtrCommit trxId) ∈ log)
    {db : Db V A} {opened : Table V A} (hdb : db.openedTables name = some opened)
    (hopened : opened.records = disk) (counter : BitVec 32) :
    Redone db name log counter t'.log ↔
      KeepsAll changes t ∧ ∀ p, 0 < p → p < disk.length → (disk.page p).recordNum = 0 := by
  have hnone : t.record = fun _ => none := by
    funext rid
    rw [Option.eq_none_iff_forall_ne_some]
    intro data hdata
    rw [Table.record, hempty] at hdata
    obtain ⟨p, slot, -, hp, hlt, -⟩ := RecordFile.record_eq_some hdata
    exact absurd hlt (by simp only [RecordFile.empty]; omega)
  have hintact : t.Intact := ⟨hempty ▸ RecordFile.inv_empty orders _,
    fun rid hrid => absurd (congrFun hnone rid) hrid⟩
  obtain ⟨redoList, hlist, hl⟩ := runChanges_logged changes hintact hrun
  rw [hlog, List.nil_append] at hlist
  subst hlist
  have hstates : ∀ f ∈ moments changes t, Image t'.log t.recordCapacity f := by
    intro f hf
    refine ⟨hl.allOver f hf, ?_⟩
    intro rid hrid
    rcases hl.inserted f hf rid hrid with hne | hins
    · exact absurd (congrFun hnone rid) hne
    · exact hins
  obtain ⟨himage, hlength⟩ := hdisk.image hl.names hstates
  have hnames : Names t'.log disk.length t.recordCapacity := hlength ▸ hl.names
  have hlive : Live (fun _ => none) t'.log := hl.live _ fun rid hrid =>
    absurd (congrFun hnone rid) hrid
  obtain ⟨hrc, htable⟩ := Db.recover_eq hredo hcommit hdb counter
  rw [hopened] at hrc htable
  have hcapacity := redoAll_over t'.log hnames himage.allOver
  rw [← hl.fresh, hnone, ← redone_iff_counted hnames himage hlive, Redone, hrc]
  refine and_congr_right fun _ => ?_
  rw [htable]
  constructor
  · rintro ⟨t₁, heq, hrecord, hnum⟩
    cases heq
    refine ⟨hrecord, fun p hp hlt => ⟨(hcapacity p hp hlt).1, ?_⟩⟩
    rw [← (hcapacity p hp hlt).1]
    exact hnum p hp hlt
  · rintro ⟨hrecord, hcounted⟩
    refine ⟨_, rfl, hrecord, fun p hp hlt => ?_⟩
    obtain ⟨hcap, hnum⟩ := hcounted p hp hlt
    rw [hcap]
    exact hnum

/-- A table without records and indexes. -/
def noRecords : Table ℕ ℤ := ⟨2, .empty (.const .newestFirst), [], []⟩

/-- A record is inserted by the transaction with the number 5. -/
def oneInsertion : List (Change ℕ) := [.insert ⟨5, []⟩ ⟨0, 7⟩]

/-- The log of that run, after the transaction has been committed. -/
def committedLog (t : Table ℕ ℤ) : List (String × LogRecord ℕ) :=
  t.log.map (fun r => ("t", r)) ++ [("", .mtrCommit 5)]

/-- The last state of a run is one that is written to disk. -/
theorem moments_last (changes : List (Change V)) : ∀ {t t' : Table V A},
    runChanges changes t = some t' → t'.records ∈ moments changes t := by
  induction changes with
  | nil =>
    intro t t' hrun
    cases hrun
    exact List.mem_singleton.mpr rfl
  | cons c changes ih =>
    intro t t' hrun
    rw [runChanges, List.foldlM_cons] at hrun
    obtain ⟨t₁, hstep, hrun⟩ := Option.bind_eq_some_iff.mp hrun
    simp only [moments, hstep]
    exact List.mem_cons_of_mem _ (List.mem_cons_of_mem _ (ih hrun))

theorem writtenAt_last {changes : List (Change V)} {t t' : Table V A}
    (hrun : runChanges changes t = some t') :
    WrittenAt (moments changes t) t'.records.length t'.records :=
  ⟨rfl, fun _ _ hlt => ⟨_, moments_last changes hrun, hlt, rfl⟩⟩

/-- A record is inserted, and all pages are written before the crash. -/
theorem redone_iff_sample : ∃ t' : Table ℕ ℤ, runChanges oneInsertion noRecords = some t' ∧
    (Redone ⟨fun _ => some t'⟩ "t" (committedLog t') 0 t'.log ↔
      KeepsAll oneInsertion noRecords ∧
        ∀ p, 0 < p → p < t'.records.length → (t'.records.page p).recordNum = 0) := by
  have hids : (runChanges oneInsertion noRecords).map (fun t => t.log.map LogRecord.redoTrxId) =
      some [some 5] := by decide
  obtain ⟨t', hrun, hlog⟩ := Option.map_eq_some_iff.mp hids
  obtain ⟨r, hr, hid⟩ := List.map_eq_singleton_iff.mp hlog
  refine ⟨t', hrun, redone_iff rfl rfl hrun (.crash (writtenAt_last hrun)) ?_ ?_ rfl rfl 0⟩
  · have hmtr : (LogRecord.mtrCommit 5 : LogRecord ℕ).redoTrxId = none := rfl
    simpa [committedLog, hr, hid] using hmtr
  · intro r' hr' trxId hid'
    rw [hr, List.mem_singleton] at hr'
    rw [hr', hid] at hid'
    cases hid'
    exact ⟨"", by simp [committedLog]⟩

/-- A record that is on disk and in the log is counted twice. -/
theorem not_redone : ∃ t' : Table ℕ ℤ, runChanges oneInsertion noRecords = some t' ∧
    OnDisk (moments oneInsertion noRecords) t'.log t'.records.length t'.records ∧
    ¬ Redone ⟨fun _ => some t'⟩ "t" (committedLog t') 0 t'.log := by
  have hcount : (runChanges oneInsertion noRecords).map (fun t' =>
      ((Db.recover ⟨fun _ => some t'⟩ (committedLog t') 0).2.1.openedTables "t").map fun t =>
        (t.records.length, (t.records.page 1).recordNum, (t.records.page 1).recordCapacity,
          bitCount (t.records.page 1).bitmap 2)) = some (some (2, 2, 2, 1)) := by decide
  obtain ⟨t', hrun, hcount⟩ := Option.map_eq_some_iff.mp hcount
  refine ⟨t', hrun, .crash (writtenAt_last hrun), ?_⟩
  rintro ⟨-, t, htable, -, hnum⟩
  rw [htable, Option.map_some, Option.some_inj] at hcount
  simp only [Prod.mk.injEq] at hcount
  obtain ⟨hlength, hrecords, hcapacity, hbits⟩ := hcount
  have hpage := hnum 1 Nat.one_pos (by omega)
  rw [hcapacity, hbits, hrecords] at hpage
  omega

end Miniob.Storage.Common
