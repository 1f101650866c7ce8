import Miniob.Lib.Steps
import Miniob.Sql.Executor.ExecuteStage
import Miniob.Storage.Common.Db

/-!
# Replaying the log

The redo records of the committed transactions, applied in order to an empty table, should give the
table. They do not when a statement changes the table without a transaction, as `DELETE` and
`LOAD DATA` do, or when `ROLLBACK` takes away rows of transactions that have been committed before.

* `Server.LogComplete`: what the log should give.
* `Server.Allowed`: the condition on a statement.
* `Accounted`: the insertions in the log and the rows of the table, between two statements.
* `log_complete`: in a run of allowed statements the log is complete whenever no session is within
  a transaction.
-/

namespace Miniob.Sql

open Miniob.Lib Miniob.Storage.Common Miniob.Storage.Index Miniob.Storage.Record
open Miniob.Storage.Transaction

variable {V A : Type} [LinearOrder A]

/-! ## The redo records of committed transactions -/

/-- The redo records that recovery applies. -/
def committedRedo (log : List (LogRecord V)) : List (LogRecord V) :=
  let m := CLogMTRManager.empty.recover (log.map fun r => ("", r))
  (m.logRedoList.map Prod.snd).filter fun r => r.redoTrxId.any fun id => m.trxCommited id = some true

/-- These are the redo records of the transactions with a commit record. -/
theorem mem_committedRedo {log : List (LogRecord V)} {r : LogRecord V} :
    r ∈ committedRedo log ↔
      r ∈ log ∧ ∃ id, r.redoTrxId = some id ∧ LogRecord.mtrCommit id ∈ log := by
  have hcommit : ∀ id, (CLogMTRManager.empty.recover (log.map fun r => ("", r))).trxCommited id =
      some true ↔ LogRecord.mtrCommit id ∈ log := by
    intro id
    rw [CLogMTRManager.trxCommited_recover]
    simp [CLogMTRManager.empty]
  unfold committedRedo
  rw [List.mem_filter, CLogMTRManager.logRedoList_recover]
  simp only [Option.any_eq_true, decide_eq_true_eq, hcommit]
  constructor
  · rintro ⟨hmem, hid⟩
    refine ⟨?_, hid⟩
    have : r ∈ log ∧ r.redoTrxId.isSome = true := by simpa [CLogMTRManager.empty] using hmem
    exact this.1
  · rintro ⟨hmem, id, hid, hlog⟩
    refine ⟨?_, id, hid, hlog⟩
    simp [CLogMTRManager.empty, hmem, hid]

/-- What insertions leave: the record that is inserted last in a slot. -/
theorem replayed_inserts {log : List (LogRecord V)}
    (hdelete : ∀ id rid, LogRecord.redoDelete id rid ∉ log) (rid : RID) :
    (∃ id data, replayed log rid = some data ∧ LogRecord.redoInsert id rid data ∈ log) ∨
      replayed log rid = none ∧ ∀ id data, LogRecord.redoInsert id rid data ∉ log := by
  induction log using List.reverseRecOn with
  | nil => exact Or.inr ⟨rfl, by simp⟩
  | append_singleton log r ih =>
    have ih := ih fun id rid hmem => hdelete id rid (List.mem_append_left _ hmem)
    rw [replayed_concat]
    simp only [List.mem_append, List.mem_singleton]
    cases r with
    | redoDelete id rid' => exact absurd (List.mem_append_right _ List.mem_cons_self) (hdelete id rid')
    | mtrBegin id => simpa [LogRecord.apply] using ih
    | mtrCommit id => simpa [LogRecord.apply] using ih
    | redoInsert id rid' data =>
      by_cases hrid : rid = rid'
      · subst hrid
        exact Or.inl ⟨id, data, Function.update_self .., Or.inr rfl⟩
      · rw [LogRecord.apply, Function.update_of_ne hrid]
        rcases ih with ⟨id', data', heq, hmem⟩ | ⟨heq, hnot⟩
        · exact Or.inl ⟨id', data', heq, Or.inl hmem⟩
        · refine Or.inr ⟨heq, ?_⟩
          rintro id' data' (hmem | hmem)
          · exact hnot id' data' hmem
          · cases hmem
            exact hrid rfl

namespace Server

/-- The log gives the rows of the table when no session is within a transaction. -/
def LogComplete (e : Server V A) : Prop :=
  (∀ who, (e.sessions who).multi = false) → ∀ rid,
    (replayed (committedRedo e.table.log) rid).map RecordData.values =
      (e.table.record rid).map RecordData.values

/-! ## The condition -/

/-- The rows that the transaction object of a session still has as insertions carry its number,
which is not 0. -/
def RollsBackOwn (e : Server V A) (who : ℕ) : Prop :=
  ∀ x ∈ (e.sessions who).trx, ∀ rid data, x.findOperation rid ≠ none →
    e.table.record rid = some data → data.trx = x.trxId ∧ x.trxId ≠ 0

/-- How many numbers a statement takes from the counter for its commit record. -/
def commitNumbers (session : Session) : Statement V → ℕ
  | .insert _ => if session.multi then 0 else 1
  | .commit => 1
  | _ => 0

/-- How many numbers a statement takes from the counter, with the one for a new transaction
object. -/
def numbersTaken (session : Session) (statement : Statement V) : ℕ :=
  (if session.trx = none then 1 else 0) + commitNumbers session statement

/-- The condition on a statement: an insertion does not take a page from the file header that has
records, and the comparators order its keys; no row meets the condition of a `DELETE`, `LOAD DATA`
loads no row, what is rolled back has been inserted by the transaction that is rolled back, and the
numbers do not run out. -/
def Allowed (e : Server V A) (action : ℕ × Statement V) : Prop :=
  e.counter.toNat + numbersTaken (e.sessions action.1) action.2 < 2 ^ 32 ∧
    match action.2 with
    | .insert data => e.table.KeepsRecords ∧ e.table.OrdersKeys data.values
    | .delete condition _ =>
      ∀ rid data, e.table.record rid = some data → condition data.values = false
    | .loadData rows _ => rows = []
    | .begin => True
    | .commit => True
    | .rollback _ => e.RollsBackOwn action.1
    | .clogSync _ => e.RollsBackOwn action.1

instance (e : Server V A) (who : ℕ) : Decidable (e.RollsBackOwn who) :=
  decidable_of_iff (∀ x ∈ (e.sessions who).trx, ∀ rid data, e.table.record rid = some data →
      x.findOperation rid ≠ none → data.trx = x.trxId ∧ x.trxId ≠ 0)
    ⟨fun h x hx rid data hop hrid => h x hx rid data hrid hop,
      fun h x hx rid data hrid hop => h x hx rid data hop hrid⟩

instance (e : Server V A) : (action : ℕ × Statement V) → Decidable (e.Allowed action)
  | (_, .insert _) => inferInstanceAs (Decidable (_ ∧ _ ∧ _))
  | (_, .delete condition _) => inferInstanceAs (Decidable (_ ∧
      ∀ rid data, e.table.record rid = some data → condition data.values = false))
  | (_, .loadData [] _) => inferInstanceAs (Decidable (_ ∧ _))
  | (_, .loadData (_ :: _) _) => inferInstanceAs (Decidable (_ ∧ _))
  | (_, .begin) => inferInstanceAs (Decidable (_ ∧ True))
  | (_, .commit) => inferInstanceAs (Decidable (_ ∧ True))
  | (who, .rollback _) => inferInstanceAs (Decidable (_ ∧ e.RollsBackOwn who))
  | (who, .clogSync _) => inferInstanceAs (Decidable (_ ∧ e.RollsBackOwn who))

/-! ## Numbers -/

/-- The number of a transaction that is over without a commit record: nobody has it, and nobody
will. -/
structure Gone (e : Server V A) (id : BitVec 32) : Prop where
  ne_zero : id ≠ 0
  le : id.toNat ≤ e.counter.toNat
  notCommitted : LogRecord.mtrCommit id ∉ e.table.log
  notCurrent : ∀ who, ∀ x ∈ (e.sessions who).trx, x.trxId ≠ id

/-- The numbers between two statements. Only 0 is a number of several sessions. -/
structure Numbers (e : Server V A) : Prop where
  le : ∀ who, ∀ x ∈ (e.sessions who).trx, x.trxId.toNat ≤ e.counter.toNat
  committed : ∀ id, LogRecord.mtrCommit id ∈ e.table.log → id.toNat ≤ e.counter.toNat
  notCommitted : ∀ who, ∀ x ∈ (e.sessions who).trx, x.trxId ≠ 0 →
    LogRecord.mtrCommit x.trxId ∉ e.table.log
  unique : ∀ who who', ∀ x ∈ (e.sessions who).trx, ∀ x' ∈ (e.sessions who').trx,
    x.trxId = x'.trxId → x.trxId ≠ 0 → who = who'

/-- What a statement does to the number of its session: it keeps it, or resets it to 0, or takes
the next one, perhaps after a commit record for the old one. -/
def NextNumber (e : Server V A) (who : ℕ) (log : List (LogRecord V)) (counter id : BitVec 32) :
    Prop :=
  counter = e.counter ∧ (∀ i, LogRecord.mtrCommit i ∈ log → LogRecord.mtrCommit i ∈ e.table.log) ∧
      (id = 0 ∨ ∃ x ∈ (e.sessions who).trx, id = x.trxId) ∨
    id.toNat = e.counter.toNat + 1 ∧ counter = id ∧ ∀ i, LogRecord.mtrCommit i ∈ log →
      LogRecord.mtrCommit i ∈ e.table.log ∨ ∃ x ∈ (e.sessions who).trx, i = x.trxId

section numbers

variable {e : Server V A} {who : ℕ} {t : Table V A} {counter : BitVec 32} {x : Trx} {multi : Bool}

/-- The transaction of a session after a statement. -/
theorem mem_trx_put {who' : ℕ} {x' : Trx}
    (h : x' ∈ ((e.put who t counter ⟨some x, multi⟩).sessions who').trx) :
    who' = who ∧ x' = x ∨ who' ≠ who ∧ x' ∈ (e.sessions who').trx := by
  by_cases hwho : who' = who
  · subst hwho
    simp only [put, Function.update_self, Option.mem_def, Option.some_inj] at h
    exact Or.inl ⟨rfl, h.symm⟩
  · simp only [put, Function.update_of_ne hwho] at h
    exact Or.inr ⟨hwho, h⟩

theorem NextNumber.counter_le {log : List (LogRecord V)} {id : BitVec 32}
    (h : e.NextNumber who log counter id) : e.counter.toNat ≤ counter.toNat := by
  rcases h with ⟨rfl, -⟩ | ⟨hid, rfl, -⟩ <;> omega

theorem Numbers.put (h : e.Numbers) (hid : e.NextNumber who t.log counter x.trxId) :
    (e.put who t counter ⟨some x, multi⟩).Numbers := by
  have hle := hid.counter_le
  have hx : x.trxId.toNat ≤ counter.toNat := by
    rcases hid with ⟨rfl, -, hzero | ⟨y, hy, heq⟩⟩ | ⟨-, rfl, -⟩
    · simp [hzero]
    · exact heq ▸ h.le who y hy
    · exact le_rfl
  -- a commit record of the new log is an old one, or that of the session
  have hlog : ∀ i, LogRecord.mtrCommit i ∈ t.log → LogRecord.mtrCommit i ∈ e.table.log ∨
      x.trxId.toNat = e.counter.toNat + 1 ∧ ∃ y ∈ (e.sessions who).trx, i = y.trxId := by
    intro i hi
    rcases hid with ⟨-, hold, -⟩ | ⟨hnext, -, hold⟩
    · exact Or.inl (hold i hi)
    · exact (hold i hi).imp_right fun hy => ⟨hnext, hy⟩
  -- another session does not have the number
  have hother : ∀ who', who' ≠ who → ∀ y ∈ (e.sessions who').trx, y.trxId = x.trxId →
      x.trxId = 0 := by
    intro who' hne y hy heq
    rcases hid with ⟨-, -, hzero | ⟨y', hy', heq'⟩⟩ | ⟨hnext, -, -⟩
    · exact hzero
    · by_contra hx0
      exact hne (h.unique who' who y hy y' hy' (heq.trans heq') (heq ▸ hx0))
    · have := h.le who' y hy
      rw [heq] at this
      omega
  refine ⟨?_, ?_, ?_, ?_⟩
  · intro who' y hy
    rcases mem_trx_put hy with ⟨rfl, rfl⟩ | ⟨-, hy⟩
    · exact hx
    · exact (h.le who' y hy).trans hle
  · intro i hi
    rcases hlog i hi with hi | ⟨-, y, hy, rfl⟩
    · exact (h.committed i hi).trans hle
    · exact (h.le who y hy).trans hle
  · intro who' y hy hy0 hmem
    rcases mem_trx_put hy with ⟨rfl, rfl⟩ | ⟨hne, hy⟩
    · rcases hid with ⟨-, hold, hzero | ⟨y', hy', heq⟩⟩ | ⟨hnext, -, hold⟩
      · exact hy0 hzero
      · rw [heq] at hy0 hmem
        exact h.notCommitted who' y' hy' hy0 (hold _ hmem)
      · rcases hold _ hmem with hi | ⟨y', hy', heq⟩
        · have := h.committed _ hi
          omega
        · have := h.le who' y' hy'
          rw [← heq] at this
          omega
    · rcases hlog _ hmem with hi | ⟨-, y', hy', heq⟩
      · exact h.notCommitted who' y hy hy0 hi
      · exact hne (h.unique who' who y hy y' hy' heq hy0)
  · intro w w' y hy y' hy' heq hy0
    rcases mem_trx_put hy with ⟨rfl, rfl⟩ | ⟨hne, hold⟩ <;>
      rcases mem_trx_put hy' with ⟨rfl, rfl⟩ | ⟨hne', hold'⟩
    · rfl
    · exact absurd (hother w' hne' y' hold' heq.symm) hy0
    · exact absurd (hother w hne y hold heq) (heq ▸ hy0)
    · exact h.unique w w' y hold y' hold' heq hy0

/-- A number that is gone stays gone. -/
theorem Gone.put {id : BitVec 32} (h : e.Gone id) (hid : e.NextNumber who t.log counter x.trxId) :
    (e.put who t counter ⟨some x, multi⟩).Gone id := by
  refine ⟨h.ne_zero, h.le.trans hid.counter_le, ?_, ?_⟩
  · intro hmem
    rcases hid with ⟨-, hold, -⟩ | ⟨-, -, hold⟩
    · exact h.notCommitted (hold id hmem)
    · rcases hold id hmem with hi | ⟨y, hy, heq⟩
      · exact h.notCommitted hi
      · exact h.notCurrent who y hy heq.symm
  · intro who' y hy heq
    rcases mem_trx_put hy with ⟨rfl, rfl⟩ | ⟨-, hy⟩
    · rcases hid with ⟨-, -, hzero | ⟨y', hy', heq'⟩⟩ | ⟨hnext, -, -⟩
      · exact h.ne_zero (heq ▸ hzero)
      · exact h.notCurrent who' y' hy' (heq'.symm.trans heq)
      · have := h.le
        rw [← heq] at this
        omega
    · exact h.notCurrent who' y hy heq

end numbers

/-! ## Rows and insertions -/

/-- The row of an insertion of the log. It carries the number of its transaction, or 0. -/
def HasRow (t : Table V A) (id : BitVec 32) (rid : RID) (values : V) : Prop :=
  ∃ data, t.record rid = some data ∧ data.values = values ∧ (data.trx = id ∨ data.trx = 0)

/-- The transaction has been committed, or a session is within it and has the insertion. -/
def Owned (e : Server V A) (id : BitVec 32) (rid : RID) : Prop :=
  LogRecord.mtrCommit id ∈ e.table.log ∨ ∃ who x, e.sessions who = ⟨some x, true⟩ ∧
    x.trxId = id ∧ x.findOperation rid = some .insert

/-- The operations of a transaction are insertions into slots. -/
def OnlyInserts (x : Trx) : Prop :=
  x.Distinct ∧ ∀ rid type, x.findOperation rid = some type → type = .insert ∧ 0 ≤ rid.slotNum

/-- What holds between two statements. -/
structure Accounted (e : Server V A) : Prop where
  consistent : e.table.Consistent
  numbers : e.Numbers
  operations : ∀ who, ∀ x ∈ (e.sessions who).trx, OnlyInserts x
  noDelete : ∀ id rid, LogRecord.redoDelete id rid ∉ e.table.log
  /-- An insertion of the log is a row, unless its transaction has been rolled back. -/
  kept : ∀ id rid data, LogRecord.redoInsert id rid data ∈ e.table.log →
    e.Gone id ∨ HasRow e.table id rid data.values
  /-- A row is an insertion of the log. -/
  logged : ∀ rid data, e.table.record rid = some data → ∃ id data₀,
    LogRecord.redoInsert id rid data₀ ∈ e.table.log ∧ data₀.values = data.values ∧ e.Owned id rid

section accounted

variable {e : Server V A} {who : ℕ} {t : Table V A} {counter : BitVec 32} {x y : Trx} {multi : Bool}

/-- A statement keeps what is known of a transaction if its session does. -/
theorem Owned.put {id : BitVec 32} {rid : RID} (h : e.Owned id rid)
    (hlog : ∀ i, LogRecord.mtrCommit i ∈ e.table.log → LogRecord.mtrCommit i ∈ t.log)
    (hwho : ∀ y, e.sessions who = ⟨some y, true⟩ → y.trxId = id →
      y.findOperation rid = some .insert → (e.put who t counter ⟨some x, multi⟩).Owned id rid) :
    (e.put who t counter ⟨some x, multi⟩).Owned id rid := by
  rcases h with hcommit | ⟨who', y, hs, hid, hop⟩
  · exact Or.inl (hlog id hcommit)
  · by_cases heq : who' = who
    · exact hwho y (heq ▸ hs) hid hop
    · exact Or.inr ⟨who', y, (Function.update_of_ne heq ..).trans hs, hid, hop⟩

theorem Accounted.put (h : e.Accounted) (hid : e.NextNumber who t.log counter x.trxId)
    (hc : t.Consistent) (hx : OnlyInserts x)
    (hdelete : ∀ id rid, LogRecord.redoDelete id rid ∉ t.log)
    (hkept : ∀ id rid data, LogRecord.redoInsert id rid data ∈ t.log → e.Gone id ∨
      (e.put who t counter ⟨some x, multi⟩).Gone id ∨ HasRow t id rid data.values)
    (hlogged : ∀ rid data, t.record rid = some data → ∃ id data₀,
      LogRecord.redoInsert id rid data₀ ∈ t.log ∧ data₀.values = data.values ∧
        (e.put who t counter ⟨some x, multi⟩).Owned id rid) :
    (e.put who t counter ⟨some x, multi⟩).Accounted := by
  refine ⟨hc, h.numbers.put hid, ?_, hdelete, ?_, hlogged⟩
  · intro who' y hy
    rcases mem_trx_put hy with ⟨-, rfl⟩ | ⟨-, hy⟩
    · exact hx
    · exact h.operations who' y hy
  · intro id rid data hmem
    rcases hkept id rid data hmem with hgone | hgone | hrow
    · exact Or.inl (hgone.put hid)
    · exact Or.inl hgone
    · exact Or.inr hrow

/-- A number is not taken yet. -/
theorem toNat_succ (hlt : e.counter.toNat + 1 < 2 ^ 32) :
    (e.counter + 1).toNat = e.counter.toNat + 1 := by
  rw [BitVec.toNat_add, show (1 : BitVec 32).toNat = 1 from rfl]
  exact Nat.mod_eq_of_lt hlt

/-- A statement that leaves the rows and the number of its session. -/
theorem Accounted.same (h : e.Accounted) (hs : x ∈ (e.sessions who).trx) (multi : Bool)
    (hmulti : (e.sessions who).multi = true → multi = true) (hc : t.Consistent)
    (hrec : t.record = e.table.record) {r : List (LogRecord V)} (hlog : t.log = e.table.log ++ r)
    (hr : ∀ i ∈ r, ∃ id, i = LogRecord.mtrBegin id) :
    (e.put who t e.counter ⟨some x, multi⟩).Accounted := by
  have hmem : ∀ {i}, (∀ id, i ≠ LogRecord.mtrBegin id) → (i ∈ t.log ↔ i ∈ e.table.log) := by
    intro i hne
    rw [hlog, List.mem_append]
    refine or_iff_left fun hi => ?_
    obtain ⟨id, heq⟩ := hr i hi
    exact hne id heq
  have hid : e.NextNumber who t.log e.counter x.trxId :=
    Or.inl ⟨rfl, fun i => (hmem (by simp)).mp, Or.inr ⟨x, hs, rfl⟩⟩
  refine h.put hid hc (h.operations who x hs) ?_ ?_ ?_
  · exact fun id rid hdelete => h.noDelete id rid ((hmem (by simp)).mp hdelete)
  · intro id rid data hinsert
    refine (h.kept id rid data ((hmem (by simp)).mp hinsert)).imp_right fun hrow => Or.inr ?_
    rwa [HasRow, hrec]
  · intro rid data hrid
    rw [hrec] at hrid
    obtain ⟨id, data₀, hinsert, hvalues, howned⟩ := h.logged rid data hrid
    refine ⟨id, data₀, (hmem (by simp)).mpr hinsert, hvalues, howned.put ?_ ?_⟩
    · exact fun i => (hmem (by simp)).mpr
    · intro y hy hid' hop
      rw [hy] at hs hmulti
      obtain rfl := Option.some.inj hs
      refine Or.inr ⟨who, y, ?_, hid', hop⟩
      show Function.update _ _ _ _ = _
      rw [Function.update_self, hmulti rfl]

/-- A session takes the next number, after a commit record for its old one. -/
theorem Accounted.commit (h : e.Accounted) (hs : x ∈ (e.sessions who).trx) (multi : Bool)
    (hlt : e.counter.toNat + 1 < 2 ^ 32) :
    (e.put who (clogAppendRecord e.table (.mtrCommit x.trxId)) (e.counter + 1)
      ⟨some (x.nextCurrentId e.counter).1, multi⟩).Accounted := by
  have hmem : ∀ {i}, i ∈ (clogAppendRecord e.table (.mtrCommit x.trxId)).log ↔
      i ∈ e.table.log ∨ i = .mtrCommit x.trxId := by
    intro i
    simp [clogAppendRecord]
  have hnext := toNat_succ hlt
  have hid : e.NextNumber who (clogAppendRecord e.table (.mtrCommit x.trxId)).log (e.counter + 1)
      (x.nextCurrentId e.counter).1.trxId := by
    refine Or.inr ⟨hnext, rfl, fun i hi => (hmem.mp hi).imp_right fun heq => ⟨x, hs, ?_⟩⟩
    exact LogRecord.mtrCommit.inj heq
  refine h.put hid ⟨h.consistent.inv, h.consistent.indexes⟩ (h.operations who x hs) ?_ ?_ ?_
  · intro id rid hdelete
    exact h.noDelete id rid ((hmem.mp hdelete).resolve_right (by simp))
  · intro id rid data hinsert
    exact (h.kept id rid data ((hmem.mp hinsert).resolve_right (by simp))).imp_right Or.inr
  · intro rid data hrid
    obtain ⟨id, data₀, hinsert, hvalues, howned⟩ := h.logged rid data hrid
    refine ⟨id, data₀, hmem.mpr (Or.inl hinsert), hvalues, howned.put ?_ ?_⟩
    · exact fun i hi => hmem.mpr (Or.inl hi)
    · intro y hy hid' _
      rw [hy] at hs
      obtain rfl := Option.some.inj hs
      exact Or.inl (hmem.mpr (Or.inr (by rw [hid'])))

/-- The operations of a transaction, in any order. -/
theorem OnlyInserts.order {order : List (RID × OperationType)} (h : OnlyInserts x)
    (horder : order.Perm x.operations) :
    (∀ op ∈ order, op.2 = .insert ∧ 0 ≤ op.1.slotNum) ∧ (order.map Prod.fst).Nodup ∧
      ∀ rid, rid ∈ order.map Prod.fst ↔ x.findOperation rid = some .insert := by
  have hmem : ∀ op, op ∈ order ↔ x.findOperation op.1 = some op.2 := fun op =>
    horder.mem_iff.trans (Trx.findOperation_eq_some h.1).symm
  refine ⟨fun op hop => h.2 op.1 op.2 ((hmem op).mp hop), (horder.map _).nodup_iff.mpr h.1, ?_⟩
  intro rid
  constructor
  · intro hrid
    obtain ⟨op, hop, rfl⟩ := List.mem_map.mp hrid
    have hfind := (hmem op).mp hop
    rwa [(h.2 op.1 op.2 hfind).1] at hfind
  · exact fun hfind => List.mem_map.mpr ⟨(rid, .insert), (hmem _).mpr hfind, rfl⟩

/-- An insertion becomes one of the operations. -/
theorem OnlyInserts.insertRecord (h : OnlyInserts x) {rid : RID} (hslot : 0 ≤ rid.slotNum)
    (hins : x.insertRecord rid = (.success, y)) :
    OnlyInserts y ∧ y.trxId = x.trxId ∧
      ∀ r, y.findOperation r = if r = rid then some .insert else x.findOperation r := by
  rcases x.insertRecord_spec rid with ⟨-, hfail⟩ | ⟨-, y', hy, hid, hdist, hfind⟩
  · cases hfail.symm.trans hins
  cases hy.symm.trans hins
  refine ⟨⟨hdist h.1, fun r type hop => ?_⟩, hid, hfind⟩
  rw [hfind] at hop
  by_cases hr : r = rid
  · subst hr
    rw [if_pos rfl] at hop
    exact ⟨(Option.some.inj hop).symm, hslot⟩
  · rw [if_neg hr] at hop
    exact h.2 r type hop

/-- The end of a transaction leaves an object without number and operations. -/
theorem onlyInserts_ended : OnlyInserts ⟨0, []⟩ := ⟨List.nodup_nil, by simp [Trx.findOperation]⟩

/-- The rows of the transaction that is rolled back go, and their number with them. -/
theorem Accounted.rollback (h : e.Accounted) (hs : x ∈ (e.sessions who).trx)
    (hown : e.RollsBackOwn who) {order : List (RID × OperationType)}
    (horder : order.Perm x.operations) {rc : RC}
    (hroll : x.rollback order e.table = some (rc, t, y)) :
    (e.put who t e.counter ⟨some y, false⟩).Accounted := by
  obtain ⟨hops, hnodup, hmem⟩ := (h.operations who x hs).order horder
  obtain ⟨⟨rc', t'⟩, hend, heq⟩ := Option.map_eq_some_iff.mp hroll
  cases heq
  obtain ⟨hc, hlog, hrec⟩ := Table.Consistent.endInserts
    (fun h hslot hstep => h.rollbackInsert hslot hstep) order h.consistent hops hnodup hend
  have hid : e.NextNumber who t.log e.counter 0 :=
    Or.inl ⟨rfl, fun i hi => hlog ▸ hi, Or.inl rfl⟩
  refine h.put hid hc onlyInserts_ended ?_ ?_ ?_
  · exact fun id rid hdelete => h.noDelete id rid (hlog ▸ hdelete)
  · intro id rid data hinsert
    rw [hlog] at hinsert
    rcases h.kept id rid data hinsert with hgone | ⟨d, hrid, hvalues, htrx⟩
    · exact Or.inl hgone
    by_cases hop : x.findOperation rid = some .insert
    · obtain ⟨hnumber, hne⟩ := hown x hs rid d (by rw [hop]; simp) hrid
      obtain rfl : x.trxId = id := hnumber ▸ htrx.resolve_right (hnumber ▸ hne)
      refine Or.inr (Or.inl ⟨hne, h.numbers.le who x hs, ?_, ?_⟩)
      · rw [show (e.put who t e.counter ⟨some ⟨0, []⟩, false⟩).table.log = e.table.log from hlog]
        exact h.numbers.notCommitted who x hs hne
      · intro who' x' hx' heq
        rcases mem_trx_put hx' with ⟨-, rfl⟩ | ⟨hne', hx'⟩
        · exact hne heq.symm
        · exact hne' (h.numbers.unique who' who x' hx' x hs heq (heq ▸ hne))
    · refine Or.inr (Or.inr ⟨d, ?_, hvalues, htrx⟩)
      rw [hrec, if_neg fun hin => hop ((hmem rid).mp hin), hrid]
  · intro rid data hrid
    rw [hrec] at hrid
    split at hrid
    · cases hrid
    · rename_i hnot
      obtain ⟨id, data₀, hinsert, hvalues, howned⟩ := h.logged rid data hrid
      refine ⟨id, data₀, hlog ▸ hinsert, hvalues, howned.put (fun i hi => hlog ▸ hi) ?_⟩
      intro x' hx' _ hop
      rw [hx'] at hs
      obtain rfl := Option.some.inj hs
      exact absurd ((hmem rid).mpr hop) hnot

/-- The rows of a transaction that has been committed lose their number. -/
theorem Accounted.commitOperations (h : e.Accounted) (hs : x ∈ (e.sessions who).trx)
    (hmulti : (e.sessions who).multi = false) {order : List (RID × OperationType)}
    (horder : order.Perm x.operations) {rc : RC}
    (hcommit : x.commit order e.table = some (rc, t, y)) :
    (e.put who t e.counter ⟨some y, false⟩).Accounted := by
  obtain ⟨hops, hnodup, hmem⟩ := (h.operations who x hs).order horder
  obtain ⟨⟨rc', t'⟩, hend, heq⟩ := Option.map_eq_some_iff.mp hcommit
  cases heq
  obtain ⟨hc, hlog, hrec⟩ := Table.Consistent.endInserts
    (fun h hslot hstep => h.commitInsert hslot hstep) order h.consistent hops hnodup hend
  have hid : e.NextNumber who t.log e.counter 0 :=
    Or.inl ⟨rfl, fun i hi => hlog ▸ hi, Or.inl rfl⟩
  refine h.put hid hc onlyInserts_ended ?_ ?_ ?_
  · exact fun id rid hdelete => h.noDelete id rid (hlog ▸ hdelete)
  · intro id rid data hinsert
    rw [hlog] at hinsert
    refine (h.kept id rid data hinsert).imp_right fun hrow => Or.inr ?_
    obtain ⟨d, hrid, hvalues, htrx⟩ := hrow
    by_cases hin : rid ∈ order.map Prod.fst
    · exact ⟨d.setRecordTrxId 0 false, by rw [hrec, if_pos hin, hrid]; rfl, hvalues, Or.inr rfl⟩
    · exact ⟨d, by rw [hrec, if_neg hin, hrid], hvalues, htrx⟩
  · intro rid data hrid
    obtain ⟨d, hd, hvalues⟩ : ∃ d, e.table.record rid = some d ∧ d.values = data.values := by
      rw [hrec] at hrid
      split at hrid
      · obtain ⟨d, hd, rfl⟩ := Option.map_eq_some_iff.mp hrid
        exact ⟨d, hd, rfl⟩
      · exact ⟨data, hrid, rfl⟩
    obtain ⟨id, data₀, hinsert, hvalues₀, howned⟩ := h.logged rid d hd
    refine ⟨id, data₀, hlog ▸ hinsert, hvalues₀.trans hvalues,
      howned.put (fun i hi => hlog ▸ hi) ?_⟩
    intro x' hx' _ _
    rw [hx'] at hmulti
    cases hmulti

variable [Inhabited V]

/-- A new row. -/
theorem Accounted.insert (h : e.Accounted) (hs : x ∈ (e.sessions who).trx)
    (hkeep : e.table.KeepsRecords) {data : RecordData V} (hord : e.table.OrdersKeys data.values)
    {rid : RID} (hinsert : e.table.insertRecord (some x) data .success = some (.ok rid, t, some y)) :
    (e.put who t e.counter ⟨some y, true⟩).Accounted := by
  rcases h.consistent.insertRecord hkeep x hord with
    ⟨rid', t', y', heq, hc, -, hins, hfresh, hrec, hlog⟩ | ⟨rc, t', heq, -⟩
  · rw [heq] at hinsert
    cases hinsert
    have hnew : t.record rid = some (x.initTrxInfo data) := by rw [hrec, Function.update_self]
    obtain ⟨hy, hyid, hfind⟩ := (h.operations who x hs).insertRecord
      (RecordFile.inFile_of_record hnew).1 hins
    have hold : ∀ r d, e.table.record r = some d → t.record r = some d := by
      intro r d hr
      have hne : r ≠ rid := by
        rintro rfl
        rw [hfresh] at hr
        cases hr
      rwa [hrec, Function.update_of_ne hne]
    have hmem : ∀ {i}, i ∈ t.log ↔
        i ∈ e.table.log ∨ i = .redoInsert y.trxId rid (x.initTrxInfo data) := by
      intro i
      rw [hlog, List.mem_append, List.mem_singleton]
    have hid : e.NextNumber who t.log e.counter y.trxId :=
      Or.inl ⟨rfl, fun i hi => (hmem.mp hi).resolve_right (by simp), Or.inr ⟨x, hs, hyid⟩⟩
    refine h.put hid hc hy ?_ ?_ ?_
    · exact fun id r hdelete => h.noDelete id r ((hmem.mp hdelete).resolve_right (by simp))
    · intro id r d hd
      rcases hmem.mp hd with hd | heq
      · refine (h.kept id r d hd).imp_right fun hrow => Or.inr ?_
        obtain ⟨d', hr, hd'⟩ := hrow
        exact ⟨d', hold r d' hr, hd'⟩
      · cases heq
        exact Or.inr (Or.inr ⟨_, hnew, rfl, Or.inl hyid.symm⟩)
    · intro r d hr
      by_cases hrr : r = rid
      · subst hrr
        rw [hnew] at hr
        cases hr
        refine ⟨y.trxId, _, hmem.mpr (Or.inr rfl), rfl, Or.inr ⟨who, y, ?_, rfl, ?_⟩⟩
        · exact Function.update_self ..
        · rw [hfind, if_pos rfl]
      · rw [hrec, Function.update_of_ne hrr] at hr
        obtain ⟨id, d₀, hd, hvalues, howned⟩ := h.logged r d hr
        refine ⟨id, d₀, hmem.mpr (Or.inl hd), hvalues, howned.put ?_ ?_⟩
        · exact fun i hi => hmem.mpr (Or.inl hi)
        · intro x' hx' hid' hop
          rw [hx'] at hs
          obtain rfl := Option.some.inj hs
          refine Or.inr ⟨who, y, Function.update_self .., hyid.trans hid', ?_⟩
          rw [hfind, if_neg hrr]
          exact hop
  · rw [heq] at hinsert
    cases hinsert

end accounted

/-! ## Runs -/

section run

variable {e e' : Server V A} {who : ℕ}

/-- The session has made its transaction object. -/
def opened (e : Server V A) (who : ℕ) : Server V A :=
  let (x, counter) := (e.sessions who).currentTrx e.counter
  e.put who e.table counter ⟨some x, (e.sessions who).multi⟩

theorem put_put (t t' : Table V A) (counter counter' : BitVec 32) (session session' : Session) :
    (e.put who t counter session).put who t' counter' session' = e.put who t' counter' session' :=
  congrArg (Server.mk t' counter') (Function.update_idem ..)

theorem opened_put (t : Table V A) (counter : BitVec 32) (session : Session) :
    (e.opened who).put who t counter session = e.put who t counter session := put_put ..

theorem opened_sessions : (e.opened who).sessions who =
    ⟨some ((e.sessions who).currentTrx e.counter).1, (e.sessions who).multi⟩ :=
  Function.update_self ..

theorem Accounted.opened (h : e.Accounted)
    (hlt : (e.sessions who).trx = none → e.counter.toNat + 1 < 2 ^ 32) :
    (e.opened who).Accounted := by
  unfold Server.opened Session.currentTrx
  cases hs : (e.sessions who).trx with
  | some x =>
    exact h.same hs _ (fun hm => hm) h.consistent rfl (List.append_nil _).symm (by simp)
  | none =>
    have hnext := toNat_succ (hlt hs)
    have hid : e.NextNumber who e.table.log (e.counter + 1) (e.counter + 1) :=
      Or.inr ⟨hnext, rfl, fun i hi => Or.inl hi⟩
    refine h.put hid h.consistent ⟨List.nodup_nil, by simp [Trx.findOperation]⟩ h.noDelete ?_ ?_
    · exact fun id rid data hinsert => (h.kept id rid data hinsert).imp_right Or.inr
    · intro rid data hrid
      obtain ⟨id, data₀, hinsert, hvalues, howned⟩ := h.logged rid data hrid
      refine ⟨id, data₀, hinsert, hvalues, howned.put (fun i hi => hi) ?_⟩
      intro y hy
      rw [hy] at hs
      cases hs

theorem opened_counter_lt {n : ℕ}
    (hlt : e.counter.toNat + ((if (e.sessions who).trx = none then 1 else 0) + n) < 2 ^ 32) :
    (e.opened who).counter.toNat + n < 2 ^ 32 := by
  unfold Server.opened Session.currentTrx
  cases hs : (e.sessions who).trx with
  | some x =>
    rw [hs, if_neg (by simp)] at hlt
    show e.counter.toNat + n < 2 ^ 32
    omega
  | none =>
    rw [hs, if_pos rfl] at hlt
    show (e.counter + 1).toNat + n < 2 ^ 32
    rw [toNat_succ (by omega)]
    omega

variable [Inhabited V]

theorem Accounted.doInsert (h : (e.opened who).Accounted) (hkeep : e.table.KeepsRecords)
    {data : RecordData V} (hord : e.table.OrdersKeys data.values)
    (hlt : (e.opened who).counter.toNat + (if (e.sessions who).multi then 0 else 1) < 2 ^ 32)
    {rc : RC} (hexecute : e.doInsert who data = some (rc, e')) : e'.Accounted := by
  have hs : ((e.sessions who).currentTrx e.counter).1 ∈ ((e.opened who).sessions who).trx := by
    rw [opened_sessions]
    rfl
  unfold Server.doInsert at hexecute
  obtain ⟨r, hinsert, hexecute⟩ := Option.bind_eq_some_iff.mp hexecute
  split at hexecute
  · rename_i rid t y
    have hinserted := h.insert hs hkeep hord hinsert
    rw [opened_put] at hinserted
    cases hmulti : (e.sessions who).multi with
    | true =>
      rw [hmulti, if_pos rfl] at hexecute
      cases hexecute
      exact hinserted
    | false =>
      rw [hmulti] at hexecute hlt
      cases hexecute
      have hy : y ∈ ((e.put who t (e.opened who).counter ⟨some y, true⟩).sessions who).trx := by
        simp [Server.put]
      have hcommitted := hinserted.commit hy false hlt
      rw [put_put] at hcommitted
      exact hcommitted
  · rename_i rc t trx'
    cases hexecute
    rcases h.consistent.insertRecord hkeep ((e.sessions who).currentTrx e.counter).1 hord with
      ⟨rid', t', y', heq, -⟩ | ⟨rc', t', heq, hc, -, hrec, hlog⟩
    · cases hinsert.symm.trans heq
    · cases hinsert.symm.trans heq
      have hsame := h.same hs (e.sessions who).multi (fun hm => by
        rwa [opened_sessions] at hm) hc hrec (hlog.trans (List.append_nil _).symm) (by simp)
      rw [opened_put] at hsame
      exact hsame
  · cases hexecute

omit [Inhabited V] in
theorem Accounted.doRollback (h : (e.opened who).Accounted) (hown : e.RollsBackOwn who)
    {order : List (RID × OperationType)} {rc : RC}
    (hexecute : e.doRollback who order = some (rc, e')) : e'.Accounted := by
  have hs : ((e.sessions who).currentTrx e.counter).1 ∈ ((e.opened who).sessions who).trx := by
    rw [opened_sessions]
    rfl
  have hown' : (e.opened who).RollsBackOwn who := by
    intro x hx rid data hop hrid
    obtain rfl := Option.some.inj (hs.symm.trans hx)
    unfold Session.currentTrx at hop ⊢
    cases hsome : (e.sessions who).trx with
    | some x =>
      rw [hsome] at hop
      exact hown x hsome rid data hop hrid
    | none =>
      rw [hsome] at hop
      exact absurd rfl hop
  by_cases horder : order.Perm ((e.sessions who).currentTrx e.counter).1.operations
  · obtain ⟨⟨rc', t, y⟩, hroll, hexecute⟩ :=
      Option.bind_eq_some_iff.mp ((if_pos horder).symm.trans hexecute)
    cases hexecute
    have hrolled := h.rollback hs hown' horder hroll
    rw [opened_put] at hrolled
    exact hrolled
  · cases (if_neg horder).symm.trans hexecute

theorem Accounted.doLoadData (h : (e.opened who).Accounted)
    {order : List (RID × OperationType)} {rc : RC}
    (hexecute : e.doLoadData who [] order = some (rc, e')) : e'.Accounted := by
  have hs : ((e.sessions who).currentTrx e.counter).1 ∈ ((e.opened who).sessions who).trx := by
    rw [opened_sessions]
    rfl
  unfold Server.doLoadData at hexecute
  obtain ⟨⟨rc', t⟩, hload, hexecute⟩ := Option.bind_eq_some_iff.mp hexecute
  cases hload
  cases hmulti : (e.sessions who).multi with
  | true =>
    simp only [hmulti, if_pos] at hexecute
    cases hexecute
    have hsame := h.same hs true (fun _ => rfl) h.consistent rfl
      (List.append_nil _).symm (by simp)
    rw [opened_put] at hsame
    exact hsame
  | false =>
    simp only [hmulti, Bool.false_eq_true, if_false] at hexecute
    by_cases horder : order.Perm ((e.sessions who).currentTrx e.counter).1.operations
    · obtain ⟨⟨rc', t, y⟩, hcommit, hexecute⟩ :=
        Option.bind_eq_some_iff.mp ((if_pos horder).symm.trans hexecute)
      cases hexecute
      have hended := h.commitOperations hs (by rw [opened_sessions, hmulti]) horder hcommit
      rw [opened_put] at hended
      exact hended
    · cases (if_neg horder).symm.trans hexecute

variable [DecidableEq V]

omit [Inhabited V] in
/-- A `DELETE` whose condition no row meets leaves the table. -/
theorem deleteRows_of_none {condition : V → Bool} {t t' : Table V A}
    (hnone : ∀ rid data, t.record rid = some data → condition data.values = false)
    {counter : BitVec 32} {rows : List (RID × RecordData V)} {rc : RC}
    (h : deleteRows condition counter rows t = some (rc, t')) : t' = t := by
  cases rows with
  | nil =>
    cases h
    rfl
  | cons row rows =>
    obtain ⟨rid, data⟩ := row
    rw [deleteRows] at h
    split at h
    · rename_i hrow
      rw [hnone rid data hrow.1] at hrow
      exact absurd hrow.2 (by simp)
    · cases h

/-- One statement. -/
theorem Accounted.step (h : e.Accounted) {action : ℕ × Statement V} (hallowed : e.Allowed action)
    (hstep : e.step action = some e') : e'.Accounted := by
  obtain ⟨who, statement⟩ := action
  obtain ⟨hlt, hallowed⟩ := hallowed
  have hopened : (e.opened who).Accounted := by
    refine h.opened fun hnone => ?_
    rw [numbersTaken, if_pos hnone] at hlt
    omega
  have hcounter := opened_counter_lt hlt
  have hs : ((e.sessions who).currentTrx e.counter).1 ∈ ((e.opened who).sessions who).trx := by
    rw [opened_sessions]
    rfl
  simp only [Server.step] at hstep
  split at hstep
  · rename_i hexecute
    cases hstep
    cases statement with
    | insert data => exact hopened.doInsert hallowed.1 hallowed.2 hcounter hexecute
    | delete condition rows =>
      obtain ⟨⟨rc, t⟩, hdelete, heq⟩ := Option.map_eq_some_iff.mp hexecute
      cases heq
      obtain rfl := deleteRows_of_none hallowed hdelete
      exact h
    | loadData rows order =>
      obtain rfl : rows = [] := hallowed
      exact hopened.doLoadData hexecute
    | begin =>
      cases hexecute
      have hbegun := hopened.same hs true (fun _ => rfl)
        (t := clogAppendRecord e.table
          (.mtrBegin ((e.sessions who).currentTrx e.counter).1.trxId))
        ⟨h.consistent.inv, h.consistent.indexes⟩ rfl rfl (by simp)
      rw [opened_put] at hbegun
      exact hbegun
    | commit =>
      cases hexecute
      have hcommitted := hopened.commit hs false hcounter
      rw [opened_put] at hcommitted
      exact hcommitted
    | rollback order => exact hopened.doRollback hallowed hexecute
    | clogSync order => exact hopened.doRollback hallowed hexecute
  · cases hstep

omit [Inhabited V] [DecidableEq V] in
/-- An empty table with an empty log. -/
theorem Accounted.start {t : Table V A} (ht : t.Consistent) (hempty : t.record = fun _ => none)
    (hlog : t.log = []) (counter : BitVec 32) : (Server.start t counter).Accounted := by
  have hnot : ∀ {i}, i ∉ (Server.start t counter).table.log := by
    intro i hi
    rw [show (Server.start t counter).table.log = [] from hlog] at hi
    cases hi
  refine ⟨ht, ⟨?_, fun id hi => absurd hi hnot, ?_, ?_⟩, ?_, fun id rid => hnot,
    fun id rid data hi => absurd hi hnot, ?_⟩
  · exact fun who x hx => by cases hx
  · exact fun who x hx => by cases hx
  · exact fun who who' x hx => by cases hx
  · exact fun who x hx => by cases hx
  · intro rid data hrid
    rw [show (Server.start t counter).table.record = fun _ => none from hempty] at hrid
    cases hrid

omit [Inhabited V] [DecidableEq V] in
/-- When no session is within a transaction, the rows are those of the committed insertions. -/
theorem Accounted.logComplete (h : e.Accounted) : e.LogComplete := by
  intro hmulti rid
  have hdelete : ∀ id r, LogRecord.redoDelete id r ∉ committedRedo e.table.log := fun id r hmem =>
    h.noDelete id r (mem_committedRedo.mp hmem).1
  rcases replayed_inserts hdelete rid with ⟨id, data, heq, hinsert⟩ | ⟨heq, hnot⟩
  · obtain ⟨hlog, id', hid, hcommit⟩ := mem_committedRedo.mp hinsert
    obtain rfl : id = id' := Option.some.inj hid
    rcases h.kept id rid data hlog with hgone | ⟨d, hrid, hvalues, -⟩
    · exact absurd hcommit hgone.notCommitted
    · rw [heq, hrid, Option.map_some, Option.map_some, hvalues]
  · cases hrid : e.table.record rid with
    | none => rw [heq]
    | some d =>
      obtain ⟨id, data, hlog, -, hcommit | ⟨who, x, hs, -⟩⟩ := h.logged rid d hrid
      · exact absurd (mem_committedRedo.mpr ⟨hlog, id, rfl, hcommit⟩) (hnot id data)
      · have := hmulti who
        rw [hs] at this
        cases this

/-- **The log.** Statements of any sessions on an empty table, in any order, that all meet the
condition: whenever no session is within a transaction, the redo records of the committed
transactions give the rows of the table. -/
theorem log_complete (t : Table V A) (ht : t.Consistent) (hempty : t.record = fun _ => none)
    (hlog : t.log = []) (counter : BitVec 32) (actions : List (ℕ × Statement V))
    (e : Server V A) (hrun : Server.run actions (start t counter) = some e)
    (hall : AllSteps Server.step Server.Allowed actions (start t counter)) : e.LogComplete :=
  (hall.invariant Accounted hrun (fun _ _ _ h hallowed hstep => h.step hallowed hstep)
    (.start ht hempty hlog counter)).logComplete

/-- An `INSERT` outside of a transaction begins none. -/
theorem multi_insert (hmulti : ∀ who, (e.sessions who).multi = false) {data : RecordData V}
    (hstep : e.step (who, .insert data) = some e') (who' : ℕ) :
    (e'.sessions who').multi = false := by
  have hput : ∀ (t : Table V A) (counter : BitVec 32) (x : Option Trx),
      ((e.put who t counter ⟨x, false⟩).sessions who').multi = false := by
    intro t counter x
    by_cases hwho : who' = who
    · simp [Server.put, hwho]
    · simp [Server.put, hwho, hmulti who']
  simp only [Server.step] at hstep
  split at hstep
  · rename_i hexecute
    cases hstep
    obtain ⟨r, -, hexecute⟩ := Option.bind_eq_some_iff.mp hexecute
    simp only [hmulti who, Bool.false_eq_true, if_false] at hexecute
    split at hexecute
    · cases hexecute
      exact hput ..
    · cases hexecute
      exact hput ..
    · cases hexecute
  · cases hstep

/-! ## Two sessions -/

theorem sampleTable_record : sampleTable.record = fun _ => none := by
  funext rid
  cases hrid : sampleTable.record rid with
  | none => rfl
  | some data =>
    obtain ⟨p, slot, -, hp, hlt, -⟩ := RecordFile.record_eq_some hrid
    simp only [sampleTable, RecordFile.empty] at hlt
    omega

theorem isSome_run_insert :
    (Server.run [(0, .insert ⟨0, 7⟩)] (start sampleTable 0)).isSome := by
  decide

/-- One session commits the rows 7 and 3, another one rolls the row 9 back in between. -/
def commitAndRollback : List (ℕ × Statement ℕ) :=
  [(0, .begin), (0, .insert ⟨0, 7⟩), (1, .begin), (1, .insert ⟨0, 9⟩), (0, .insert ⟨0, 3⟩),
    (1, .rollback [(slotRid 1 1, .insert)]), (0, .commit)]

theorem log_complete_commit : ∃ e,
    Server.run commitAndRollback (start sampleTable 0) = some e ∧ e.LogComplete := by
  have hrun : (Server.run commitAndRollback (start sampleTable 0)).isSome := by decide
  obtain ⟨e, he⟩ := Option.isSome_iff_exists.mp hrun
  exact ⟨e, he, log_complete sampleTable sampleTable_consistent sampleTable_record rfl 0 _ e he
    (by decide)⟩

/-- A row is inserted and deleted by one session. The log has the insertion only. -/
theorem delete_not_logged : ¬ ∀ (t : Table ℕ ℤ), t.Consistent → t.record = (fun _ => none) →
    t.log = [] → ∀ (counter : BitVec 32) (actions : List (ℕ × Statement ℕ)) (e : Server ℕ ℤ),
      Server.run actions (start t counter) = some e → e.LogComplete := by
  intro h
  let row : RID × RecordData ℕ := (slotRid 1 0, ⟨1, 7⟩)
  obtain ⟨e, he⟩ := Option.isSome_iff_exists.mp isSome_run_insert
  have hdelete : ((Server.run [(0, .insert ⟨0, 7⟩)] (start sampleTable 0)).bind fun e =>
      (e.execute 0 (.delete (fun _ => true) [row])).map fun r =>
        (r.1, r.2.table.record row.1, replayed (committedRedo r.2.table.log) row.1)) =
      some (.success, none, some ⟨1, 7⟩) := by decide
  rw [he, Option.bind_some] at hdelete
  obtain ⟨⟨rc, e'⟩, hexecute, heq⟩ := Option.map_eq_some_iff.mp hdelete
  simp only [Prod.mk.injEq] at heq
  obtain ⟨rfl, hrecord, hreplayed⟩ := heq
  have hstep : e.step (0, .delete (fun _ => true) [row]) = some e' := by
    simp only [Server.step, hexecute]
  have hcomplete := h sampleTable sampleTable_consistent sampleTable_record rfl 0
    [(0, .insert ⟨0, 7⟩), (0, .delete (fun _ => true) [row])] e' (by
      rw [Server.run, List.foldlM_cons] at he ⊢
      obtain ⟨e₁, hinsert, hnil⟩ := Option.bind_eq_some_iff.mp he
      cases hnil
      rw [hinsert]
      exact (bind_pure _).trans hstep)
  have hmulti : ∀ who, (e'.sessions who).multi = false := by
    obtain ⟨⟨rc, t⟩, -, heq⟩ := Option.map_eq_some_iff.mp hexecute
    cases heq
    rw [Server.run, List.foldlM_cons] at he
    obtain ⟨e₁, hinsert, hnil⟩ := Option.bind_eq_some_iff.mp he
    cases hnil
    have hinserted : ∀ who, (e.sessions who).multi = false :=
      multi_insert (fun _ => rfl) hinsert
    exact hinserted
  have := hcomplete hmulti row.1
  rw [hrecord, hreplayed] at this
  cases this

end run

end Server

end Miniob.Sql
