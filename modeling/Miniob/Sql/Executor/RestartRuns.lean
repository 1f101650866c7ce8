import Miniob.Lib.Steps
import Miniob.Sql.Executor.ExecuteStage
import Miniob.Storage.Common.RedoLoop

/-!
# Restarts

Sessions run `INSERT`, `BEGIN`, `COMMIT` and `ROLLBACK` on the tables of a database, one statement
after the other. A crash leaves a front part of the log and any state of the data files. The next
process reads the log and redoes the records of the transactions that have been committed.

* `DbTrx`, `DbSession`, `DbServer`: a transaction object, a session and the process.
* `DbServer.execute`, `DbServer.restart`: what a statement and a restart do.
* `RedoesCommitted`: what recovery should do.
* `DbServer.Allowed`: the condition on a statement and on a restart.
* `RightFronts`: every part of the log that a crash may leave is read in the right way.
* `only_committed_redone`: in a run of allowed statements and restarts, recovery does what it should.

Recovery knows a transaction by its number. The numbers start again behind the largest one that has
been redone, the number after `ROLLBACK` is 0, and `INSERT` outside of a transaction writes no begin
record. A record is modelled with the transaction that has written it, which the log does not say.
-/

namespace Miniob.Storage.Transaction

open Miniob.Storage.Common

/-- Source: `trx.h`, `class Trx` -/
structure DbTrx where
  /-- `trx_id_` -/
  trxId : BitVec 32
  /-- `operations_`, each with the name of its table. -/
  operations : List (String × RID × OperationType)

namespace DbTrx

/-- Source: `trx.cpp`, `Trx::Trx` -/
def new (counter : BitVec 32) : DbTrx × BitVec 32 := (⟨counter + 1, []⟩, counter + 1)

/-- The operations on one table. -/
def on (trx : DbTrx) (name : String) : Trx :=
  ⟨trx.trxId, (trx.operations.filter fun op => op.1 = name).map Prod.snd⟩

/-- The operations on one table are changed. -/
def put (trx : DbTrx) (name : String) (x : Trx) : DbTrx :=
  ⟨x.trxId, x.operations.map (fun op => (name, op)) ++
    trx.operations.filter fun op => op.1 ≠ name⟩

/-- Source: `trx.cpp`, `Trx::next_current_id` -/
def nextCurrentId (trx : DbTrx) (counter : BitVec 32) : DbTrx × BitVec 32 :=
  ({ trx with trxId := counter + 1 }, counter + 1)

end DbTrx

end Miniob.Storage.Transaction

namespace Miniob.Storage.Common

open Miniob.Storage.Transaction

variable {V A : Type} [LinearOrder A]

/-- A table is changed. -/
def Db.setTable (db : Db V A) (name : String) (t : Table V A) : Db V A :=
  ⟨Function.update db.openedTables name (some t)⟩

/-- The operations are rolled back one after the other. The code of the last one is kept.
Source: `trx.cpp`, `Trx::rollback` -/
def Db.rollbackOperations [Inhabited V] :
    RC × Db V A → List (String × RID × OperationType) → Option (RC × Db V A)
  | (rc, db), [] => some (rc, db)
  | (_, db), (name, op) :: ops => do
    let t ← db.openedTables name
    let (rc, t) ← t.rollbackOperation op
    rollbackOperations (rc, db.setTable name t) ops

/-- The record ends a transaction. -/
def LogRecord.isCommit : LogRecord V → Bool
  | mtrCommit _ => true
  | _ => false

/-- An insertion writes its redo record with the number of the transaction, or no record. -/
theorem Table.insertRecord_log [Inhabited V] {t t' : Table V A} {x : Trx} {data : RecordData V}
    {r : Except RC RID} {trx' : Option Trx}
    (h : t.insertRecord (some x) data .success = some (r, t', trx')) :
    ∃ x', trx' = some x' ∧ x'.trxId = x.trxId ∧
      ((∃ rid row, r = .ok rid ∧ t'.log = t.log ++ [.redoInsert x.trxId rid row]) ∨
        (∃ rc, r = .error rc) ∧ t'.log = t.log) := by
  unfold Table.insertRecord at h
  obtain ⟨⟨inserted, records⟩, -, h⟩ := Option.bind_eq_some_iff.mp h
  cases inserted with
  | error rc =>
    cases h
    exact ⟨x, rfl, rfl, Or.inr ⟨⟨rc, rfl⟩, rfl⟩⟩
  | ok rid =>
    rcases x.insertRecord_spec rid with ⟨-, hx⟩ | ⟨-, x', hx, hid, -⟩
    · simp only [hx] at h
      cases h
      exact ⟨x, rfl, rfl, Or.inr ⟨⟨_, rfl⟩, rfl⟩⟩
    · simp only [hx, Table.insertEntries] at h
      split at h
      · cases h
        exact ⟨x', rfl, hid, Or.inl ⟨rid, _, rfl, by rw [hid]⟩⟩
      · cases h
        exact ⟨x', rfl, hid, Or.inr ⟨⟨_, rfl⟩, rfl⟩⟩

end Miniob.Storage.Common

namespace Miniob.Sql

open Miniob.Lib Miniob.Storage.Common Miniob.Storage.Index Miniob.Storage.Record
open Miniob.Storage.Transaction

/-! ## Statements and restarts -/

/-- A transaction: the process and the session that it is of, and how many transactions the session
has ended before. -/
structure Writer where
  process : ℕ
  session : ℕ
  ended : ℕ
  deriving DecidableEq

/-- A record of the log, and who has written it. -/
structure LogEntry (V : Type) where
  /-- The table of a redo record. -/
  table : String
  record : LogRecord V
  writer : Writer

/-- What the log says. -/
def LogEntry.read {V : Type} (x : LogEntry V) : String × LogRecord V := (x.table, x.record)

/-- Source: `session.h`, `class Session`, with the number of transactions that have ended -/
structure DbSession where
  /-- `trx_` -/
  trx : Option DbTrx
  /-- `trx_multi_operation_mode_` -/
  multi : Bool
  ended : ℕ

/-- Source: `session.cpp`, `Session::current_trx` -/
def DbSession.currentTrx (session : DbSession) (counter : BitVec 32) : DbTrx × BitVec 32 :=
  match session.trx with
  | some trx => (trx, counter)
  | none => DbTrx.new counter

/-- A statement. The operations of a transaction come in the order in which its hash maps have
them. -/
inductive DbStatement (V : Type)
  /-- `INSERT` -/
  | insert (name : String) (data : RecordData V)
  /-- `BEGIN` -/
  | begin
  /-- `COMMIT` -/
  | commit
  /-- `ROLLBACK` -/
  | rollback (order : List (String × RID × OperationType))

variable {V A : Type} [LinearOrder A]

/-- The process: the database, the log and the sessions. -/
structure DbServer (V A : Type) [LinearOrder A] where
  /-- The tables. -/
  db : Storage.Common.Db V A
  /-- The records appended to the log, by this process and by those before it. -/
  log : List (LogEntry V)
  /-- `Trx::trx_id`, the number that was given to a transaction last. -/
  counter : BitVec 32
  /-- The sessions. -/
  sessions : ℕ → DbSession
  /-- How many processes there have been before. -/
  process : ℕ

namespace DbServer

/-- The first process, with an empty log. -/
def start (db : Storage.Common.Db V A) : DbServer V A := ⟨db, [], 0, fun _ => ⟨none, false, 0⟩, 0⟩

/-- The transaction object of a session, which it makes if it has none. -/
def trx (e : DbServer V A) (who : ℕ) : DbTrx := ((e.sessions who).currentTrx e.counter).1

/-- The transaction of a session. -/
def writer (e : DbServer V A) (who : ℕ) : Writer := ⟨e.process, who, (e.sessions who).ended⟩

/-- What a statement of a session leaves. -/
def put (e : DbServer V A) (who : ℕ) (db : Storage.Common.Db V A)
    (records : List (String × LogRecord V)) (counter : BitVec 32) (session : DbSession) : DbServer V A :=
  { db := db
    log := e.log ++ records.map fun r => ⟨r.1, r.2, e.writer who⟩
    counter := counter
    sessions := Function.update e.sessions who session
    process := e.process }

section execute

variable [Inhabited V]

/-- The statement is not made when the table is not there. The records that the table writes go to
the log of the database.
Source: `execute_stage.cpp`, `ExecuteStage::do_insert`; `insert_stmt.cpp`, `InsertStmt::create` -/
def doInsert (e : DbServer V A) (who : ℕ) (name : String) (data : RecordData V) :
    Option (RC × DbServer V A) :=
  match e.db.openedTables name with
  | none => some (.schemaTableNotExist, e)
  | some t => do
    let session := e.sessions who
    let (trx, counter) := session.currentTrx e.counter
    match ← ({ t with log := [] } : Table V A).insertRecord (some (trx.on name)) data .success with
    | (.ok _, t, some x) =>
      let trx := trx.put name x
      let redo := t.log.map fun r => (name, r)
      if session.multi then
        return (.success, e.put who (e.db.setTable name t) redo counter
          ⟨some trx, true, session.ended⟩)
      else
        let (next, counter) := trx.nextCurrentId counter
        return (.success, e.put who (e.db.setTable name t) (redo ++ [("", .mtrCommit trx.trxId)])
          counter ⟨some next, false, session.ended + 1⟩)
    | (.error rc, t, some x) =>
      return (rc, e.put who (e.db.setTable name t) (t.log.map fun r => (name, r)) counter
        ⟨some (trx.put name x), session.multi, session.ended⟩)
    | _ => none

omit [Inhabited V] in
/-- Source: `execute_stage.cpp`, `ExecuteStage::do_begin` -/
def doBegin (e : DbServer V A) (who : ℕ) : RC × DbServer V A :=
  let session := e.sessions who
  let (trx, counter) := session.currentTrx e.counter
  (.success, e.put who e.db [("", .mtrBegin trx.trxId)] counter ⟨some trx, true, session.ended⟩)

omit [Inhabited V] in
/-- Source: `execute_stage.cpp`, `ExecuteStage::do_commit` -/
def doCommit (e : DbServer V A) (who : ℕ) : RC × DbServer V A :=
  let session := e.sessions who
  let (trx, counter) := session.currentTrx e.counter
  let (next, counter) := trx.nextCurrentId counter
  (.success, e.put who e.db [("", .mtrCommit trx.trxId)] counter
    ⟨some next, false, session.ended + 1⟩)

/-- Source: `execute_stage.cpp`, `ExecuteStage::handle_request`, `case SCF_ROLLBACK` -/
def doRollback (e : DbServer V A) (who : ℕ) (order : List (String × RID × OperationType)) :
    Option (RC × DbServer V A) := do
  let session := e.sessions who
  let (trx, counter) := session.currentTrx e.counter
  if order.Perm trx.operations then
    let (rc, db) ← Storage.Common.Db.rollbackOperations (.success, e.db) order
    return (rc, e.put who db [] counter ⟨some ⟨0, []⟩, false, session.ended + 1⟩)
  else none

/-- Source: `execute_stage.cpp`, `ExecuteStage::handle_request`,
`ExecuteStage::handle_request_with_physical_operator` -/
def execute (e : DbServer V A) (who : ℕ) : DbStatement V → Option (RC × DbServer V A)
  | .insert name data => e.doInsert who name data
  | .begin => some (e.doBegin who)
  | .commit => some (e.doCommit who)
  | .rollback order => e.doRollback who order

omit [Inhabited V] in
/-- A new process, with the data files as they are on disk and the first records of the log.
Source: `default_handler.cpp`, `DefaultHandler::open_db`; `db.cpp`, `Db::recover` -/
def restart (e : DbServer V A) (disk : Storage.Common.Db V A) (kept : ℕ) : RC × DbServer V A :=
  let log := e.log.take kept
  let (rc, db, counter) := disk.recover (log.map LogEntry.read) 0
  (rc, ⟨db, log, counter, fun _ => ⟨none, false, 0⟩, e.process + 1⟩)

end execute

end DbServer

/-- What happens to the process. -/
inductive DbEvent (V A : Type) [LinearOrder A]
  /-- A session runs a statement. -/
  | statement (who : ℕ) (statement : DbStatement V)
  /-- A crash and a restart. -/
  | restart (disk : Storage.Common.Db V A) (kept : ℕ)

namespace DbServer

variable [Inhabited V]

/-- A statement, which may fail, or a restart. A database that fails to recover is opened all the
same. -/
def step (e : DbServer V A) : DbEvent V A → Option (DbServer V A)
  | .statement who statement => (e.execute who statement).map Prod.snd
  | .restart disk kept => some (e.restart disk kept).2

/-- Statements and restarts, in whatever order they come. -/
def run (events : List (DbEvent V A)) (e : DbServer V A) : Option (DbServer V A) :=
  events.foldlM step e

end DbServer

/-! ## What recovery should do -/

/-- The log has a begin record with the number. -/
def Begins (log : List (LogEntry V)) (trxId : BitVec 32) : Prop :=
  ∃ x ∈ log, x.record = .mtrBegin trxId

/-- The log has a commit record with the number. -/
def Commits (log : List (LogEntry V)) (trxId : BitVec 32) : Prop :=
  ∃ x ∈ log, x.record = .mtrCommit trxId

/-- The log has a commit record of the transaction. -/
def hasCommitted (log : List (LogEntry V)) (w : Writer) : Bool :=
  log.any fun x => x.writer = w ∧ x.record.isCommit

/-- The redo records of the transactions whose commit record is in the log. -/
def redoOfCommitted (log : List (LogEntry V)) : List (LogEntry V) :=
  log.filter fun x => x.record.redoTrxId.isSome && hasCommitted log x.writer

/-- **What recovery should do** with a log: it succeeds, and hands the redo records of the
transactions whose commit record is in the log to their tables, in the order of the log. -/
structure RedoesCommitted (disk : Storage.Common.Db V A) (log : List (LogEntry V)) : Prop where
  success : (disk.recover (log.map LogEntry.read) 0).1 = .success
  redone : disk.redone (log.map LogEntry.read) = (redoOfCommitted log).map LogEntry.read
  left : (disk.recover (log.map LogEntry.read) 0).2.1 =
    ((redoOfCommitted log).map LogEntry.read).foldl Storage.Common.Db.redo disk

/-! ## The condition -/

section decidable

variable [DecidableEq V] (log : List (LogEntry V)) (trxId : BitVec 32)

instance : Decidable (Begins log trxId) :=
  inferInstanceAs (Decidable (∃ x ∈ log, x.record = .mtrBegin trxId))

instance : Decidable (Commits log trxId) :=
  inferInstanceAs (Decidable (∃ x ∈ log, x.record = .mtrCommit trxId))

end decidable

/-- The last record is no redo record, or its number has a begin record and no commit record. -/
def NotCut (log : List (LogEntry V)) : Prop :=
  ∀ x ∈ log.getLast?, ∀ trxId ∈ x.record.redoTrxId, Begins log trxId ∧ ¬ Commits log trxId

instance [DecidableEq V] (log : List (LogEntry V)) : Decidable (NotCut log) :=
  decidable_of_iff (∀ x ∈ log.getLast?, (x.record.redoTrxId.all fun trxId =>
    Begins log trxId ∧ ¬ Commits log trxId) = true) (by simp [NotCut, Option.all_eq_true])

namespace DbServer

/-- The redo records with the number of the session are of its transaction or of transactions that
have been committed. -/
def OwnsNumber (e : DbServer V A) (who : ℕ) : Prop :=
  ∀ x ∈ e.log, x.record.redoTrxId = some (e.trx who).trxId →
    x.writer = e.writer who ∨ hasCommitted e.log x.writer

instance (e : DbServer V A) (who : ℕ) : Decidable (e.OwnsNumber who) :=
  inferInstanceAs (Decidable (∀ x ∈ e.log, x.record.redoTrxId = some (e.trx who).trxId →
    x.writer = e.writer who ∨ hasCommitted e.log x.writer))

variable [Inhabited V]

/-- The table takes the row. -/
def Inserts (e : DbServer V A) (who : ℕ) (name : String) (data : RecordData V) : Prop :=
  ∃ t rid t' x, e.db.openedTables name = some t ∧
    ({ t with log := [] } : Table V A).insertRecord (some ((e.trx who).on name)) data .success =
      some (.ok rid, t', x)

/-- The condition. Within a transaction, a row is inserted with a number that has no commit record.
A commit record is only written with a number that the session owns. A crash does not cut between
the two records of an `INSERT`, unless its number has a begin record and no commit record, and the
pages on disk have room for the insertions that have been committed. -/
def Allowed (e : DbServer V A) : DbEvent V A → Prop
  | .statement who (.insert name data) => e.Inserts who name data →
    if (e.sessions who).multi then ¬ Commits e.log (e.trx who).trxId else e.OwnsNumber who
  | .statement who .commit => e.OwnsNumber who
  | .statement _ .begin => True
  | .statement _ (.rollback _) => True
  | .restart disk kept => NotCut (e.log.take kept) ∧
    disk.HasRoomFor ((redoOfCommitted (e.log.take kept)).map LogEntry.read)

variable [DecidableEq V]

instance (e : DbServer V A) (who : ℕ) (name : String) (data : RecordData V) :
    Decidable (e.Inserts who name data) :=
  decidable_of_iff (∃ t ∈ e.db.openedTables name, ∃ r ∈
      ({ t with log := [] } : Table V A).insertRecord (some ((e.trx who).on name)) data .success,
      r.1.isOk = true) <| by
    constructor
    · rintro ⟨t, ht, ⟨_ | rid, t', x⟩, hrun, hok⟩
      · cases hok
      · exact ⟨t, rid, t', x, ht, hrun⟩
    · rintro ⟨t, rid, t', x, ht, hrun⟩
      exact ⟨t, ht, _, hrun, rfl⟩

instance (e : DbServer V A) : (event : DbEvent V A) → Decidable (e.Allowed event)
  | .statement who (.insert name data) => inferInstanceAs (Decidable (e.Inserts who name data →
      if (e.sessions who).multi then ¬ Commits e.log (e.trx who).trxId else e.OwnsNumber who))
  | .statement who .commit => inferInstanceAs (Decidable (e.OwnsNumber who))
  | .statement _ .begin => inferInstanceAs (Decidable True)
  | .statement _ (.rollback _) => inferInstanceAs (Decidable True)
  | .restart disk kept => inferInstanceAs (Decidable (NotCut (e.log.take kept) ∧
      disk.HasRoomFor ((redoOfCommitted (e.log.take kept)).map LogEntry.read)))

end DbServer

/-! ## Parts of the log -/

section log

variable {log log' front : List (LogEntry V)} {x : LogEntry V} {trxId id : BitVec 32} {w : Writer}

@[simp] theorem begins_append :
    Begins (log ++ log') trxId ↔ Begins log trxId ∨ Begins log' trxId := by
  simp [Begins, or_and_right, exists_or]

@[simp] theorem commits_append :
    Commits (log ++ log') trxId ↔ Commits log trxId ∨ Commits log' trxId := by
  simp [Commits, or_and_right, exists_or]

@[simp] theorem begins_singleton : Begins [x] trxId ↔ x.record = .mtrBegin trxId := by
  simp [Begins]

@[simp] theorem commits_singleton : Commits [x] trxId ↔ x.record = .mtrCommit trxId := by
  simp [Commits]

@[simp] theorem hasCommitted_append :
    hasCommitted (log ++ log') w = (hasCommitted log w || hasCommitted log' w) := by
  simp [hasCommitted]

@[simp] theorem hasCommitted_singleton :
    hasCommitted [x] w = true ↔ x.writer = w ∧ x.record.isCommit = true := by
  simp [hasCommitted]

/-- A redo record is no begin record and no commit record. -/
theorem not_mtr_of_redo {r : LogRecord V} (h : r.redoTrxId = some trxId) :
    (∀ id, r ≠ .mtrBegin id) ∧ (∀ id, r ≠ .mtrCommit id) ∧ r.isCommit = false := by
  cases r with
  | redoInsert => exact ⟨by simp, by simp, rfl⟩
  | redoDelete => exact ⟨by simp, by simp, rfl⟩
  | mtrBegin => cases h
  | mtrCommit => cases h

/-- Every redo record has an entry for its number, and the number counts as committed when the
transaction has been committed. -/
structure Right (log : List (LogEntry V)) : Prop where
  entered : ∀ x ∈ log, ∀ id ∈ x.record.redoTrxId, Begins log id ∨ Commits log id
  committed : ∀ x ∈ log, ∀ id ∈ x.record.redoTrxId,
    (Commits log id ↔ hasCommitted log x.writer = true)

/-- Every part of the log that a crash may leave is right. -/
def RightFronts (log : List (LogEntry V)) : Prop :=
  ∀ front, front <+: log → NotCut front → Right front

theorem RightFronts.concat (h : RightFronts log) (hx : NotCut (log ++ [x]) → Right (log ++ [x])) :
    RightFronts (log ++ [x]) := by
  intro front hfront hcut
  rcases List.prefix_concat_iff.mp hfront with rfl | hfront
  · exact hx hcut
  · exact h front hfront hcut

theorem RightFronts.of_prefix (h : RightFronts log) (hfront : front <+: log) : RightFronts front :=
  fun front' hfront' => h front' (hfront'.trans hfront)

theorem notCut_concat : NotCut (log ++ [x]) ↔ ∀ trxId ∈ x.record.redoTrxId,
    Begins log trxId ∧ ¬ Commits log trxId := by
  rw [NotCut, List.getLast?_concat]
  simp only [Option.mem_some_iff, forall_eq', begins_append, commits_append, begins_singleton,
    commits_singleton]
  refine forall₂_congr fun id hid => ?_
  obtain ⟨hbegin, hcommit, -⟩ := not_mtr_of_redo hid
  rw [or_iff_left (hbegin id), or_iff_left (hcommit id)]

/-- The numbers and the transactions that a longer log has as committed. -/
theorem commits_concat : Commits (log ++ [x]) trxId ↔
    Commits log trxId ∨ x.record = .mtrCommit trxId := by
  rw [commits_append, commits_singleton]

theorem hasCommitted_concat : hasCommitted (log ++ [x]) w = true ↔
    hasCommitted log w = true ∨ x.writer = w ∧ x.record.isCommit = true := by
  rw [hasCommitted_append, Bool.or_eq_true, hasCommitted_singleton]

theorem Right.entered_concat (h : Right log)
    (hx : ∀ id ∈ x.record.redoTrxId, Begins log id ∨ Commits log id) :
    ∀ y ∈ log ++ [x], ∀ id ∈ y.record.redoTrxId,
      Begins (log ++ [x]) id ∨ Commits (log ++ [x]) id := by
  intro y hy id hid
  have hold : Begins log id ∨ Commits log id := by
    rcases List.mem_append.mp hy with hy | hy
    · exact h.entered y hy id hid
    · exact hx id (List.mem_singleton.mp hy ▸ hid)
  exact hold.imp (fun hb => begins_append.mpr (Or.inl hb)) fun hc => commits_append.mpr (Or.inl hc)

/-- A begin record is added. -/
theorem Right.begin (h : Right log) (hx : x.record = .mtrBegin id) : Right (log ++ [x]) := by
  have hredo : x.record.redoTrxId = none := by rw [hx]; rfl
  refine ⟨h.entered_concat (by simp [hredo]), fun y hy id' hid' => ?_⟩
  rcases List.mem_append.mp hy with hy | hy
  · rw [commits_concat, hasCommitted_concat, h.committed y hy id' hid', hx]
    simp [LogRecord.isCommit]
  · rw [List.mem_singleton.mp hy, hredo] at hid'
    cases hid'

/-- A redo record is added within a transaction. -/
theorem Right.redo (h : Right log) (hx : x.record.redoTrxId = some id) (hbegin : Begins log id)
    (hcommit : ¬ Commits log id) (hw : hasCommitted log x.writer = false) :
    Right (log ++ [x]) := by
  obtain ⟨-, hnot, hend⟩ := not_mtr_of_redo hx
  refine ⟨h.entered_concat fun id' hid' => ?_, fun y hy id' hid' => ?_⟩
  · cases hx.symm.trans hid'
    exact Or.inl hbegin
  · rw [commits_concat, hasCommitted_concat, or_iff_left (hnot id'), hend]
    rcases List.mem_append.mp hy with hy | hy
    · rw [h.committed y hy id' hid']
      simp
    · rw [List.mem_singleton.mp hy] at hid' ⊢
      cases hx.symm.trans hid'
      rw [hw]
      simp [hcommit]

/-- A commit record is added to a log that is right but for redo records of its transaction. Its
number is that of all redo records of the transaction, and of no other one that has not been
committed. -/
theorem Right.commit (hx : x.record = .mtrCommit id)
    (h : ∀ y ∈ log, ∀ id' ∈ y.record.redoTrxId, y.writer = x.writer ∨
      (Begins log id' ∨ Commits log id') ∧ (Commits log id' ↔ hasCommitted log y.writer = true))
    (hown : ∀ y ∈ log, y.writer = x.writer → ∀ id' ∈ y.record.redoTrxId, id' = id)
    (hfree : ∀ y ∈ log, y.record.redoTrxId = some id →
      y.writer = x.writer ∨ hasCommitted log y.writer = true) : Right (log ++ [x]) := by
  have hredo : x.record.redoTrxId = none := by rw [hx]; rfl
  have hend : x.record.isCommit = true := by rw [hx]; rfl
  have hold : ∀ y ∈ log ++ [x], ∀ id' ∈ y.record.redoTrxId, y ∈ log := by
    intro y hy id' hid'
    refine (List.mem_append.mp hy).resolve_right fun hy => ?_
    rw [List.mem_singleton.mp hy, hredo] at hid'
    cases hid'
  constructor
  · intro y hy id' hid'
    have hy := hold y hy id' hid'
    rcases h y hy id' hid' with hw | ⟨hentered, -⟩
    · exact Or.inr (commits_concat.mpr (Or.inr (by rw [hx, hown y hy hw id' hid'])))
    · exact hentered.imp (fun hb => begins_append.mpr (Or.inl hb))
        fun hc => commits_append.mpr (Or.inl hc)
  · intro y hy id' hid'
    have hy := hold y hy id' hid'
    rw [commits_concat, hasCommitted_concat, hend]
    rcases h y hy id' hid' with hw | ⟨-, hcommitted⟩
    · exact iff_of_true (Or.inr (by rw [hx, hown y hy hw id' hid'])) (Or.inr ⟨hw.symm, rfl⟩)
    · rw [hcommitted, hx]
      constructor
      · rintro (hc | heq)
        · exact Or.inl hc
        · cases heq
          exact (hfree y hy hid').symm.imp_right fun hw => ⟨hw.symm, rfl⟩
      · rintro (hc | ⟨hw, -⟩)
        · exact Or.inl hc
        · exact Or.inr (by rw [hown y hy hw.symm id' hid'])

/-- **Recovery of a right log.** -/
theorem Right.redoesCommitted {log : List (LogEntry V)} (h : Right log)
    {disk : Storage.Common.Db V A}
    (hroom : disk.HasRoomFor ((redoOfCommitted log).map LogEntry.read)) : RedoesCommitted disk log := by
  have hcommits : ∀ x ∈ log, Storage.Common.Db.isCommitted
      (CLogMTRManager.empty.recover (log.map LogEntry.read)).trxCommited x.read =
        (x.record.redoTrxId.isSome && hasCommitted log x.writer) := by
    intro x hx
    rw [Storage.Common.Db.isCommitted]
    cases hid : x.record.redoTrxId with
    | none =>
      rw [show x.read.2.redoTrxId = none from hid]
      rfl
    | some id =>
      rw [show x.read.2.redoTrxId = some id from hid]
      have hiff : (CLogMTRManager.empty.recover (log.map LogEntry.read)).trxCommited id =
          some true ↔ hasCommitted log x.writer = true := by
        rw [CLogMTRManager.trxCommited_recover, ← h.committed x hx id hid, Commits]
        simp [CLogMTRManager.empty, LogEntry.read]
      exact Bool.eq_iff_iff.mpr (by simpa using hiff)
  have hfilter : (log.map LogEntry.read).filter (Storage.Common.Db.isCommitted
      (CLogMTRManager.empty.recover (log.map LogEntry.read)).trxCommited) =
        (redoOfCommitted log).map LogEntry.read := by
    rw [List.filter_map]
    exact congrArg _ (List.filter_congr hcommits)
  have hentry : ∀ r ∈ log.map LogEntry.read, ∀ id ∈ r.2.redoTrxId,
      ∃ r' ∈ log.map LogEntry.read, r'.2 = .mtrBegin id ∨ r'.2 = .mtrCommit id := by
    intro r hr id hid
    obtain ⟨x, hx, rfl⟩ := List.mem_map.mp hr
    rcases h.entered x hx id hid with ⟨y, hy, hmtr⟩ | ⟨y, hy, hmtr⟩
    · exact ⟨y.read, List.mem_map_of_mem hy, Or.inl hmtr⟩
    · exact ⟨y.read, List.mem_map_of_mem hy, Or.inr hmtr⟩
  obtain ⟨hsuccess, hredone⟩ := Storage.Common.Db.recover_committed 0 hentry (hfilter ▸ hroom)
  rw [hfilter] at hredone
  exact ⟨hsuccess, hredone, by rw [Storage.Common.Db.recover_db, hredone]⟩

end log

/-! ## Runs -/

namespace DbServer

variable {e : DbServer V A} {who : ℕ} {db : Storage.Common.Db V A}
  {records : List (String × LogRecord V)}
  {counter : BitVec 32} {session : DbSession}

/-- What holds between two statements. -/
structure Sound (e : DbServer V A) : Prop where
  fronts : RightFronts e.log
  notCut : NotCut e.log
  /-- The transactions of the log have begun. -/
  past : ∀ x ∈ e.log, x.writer.process ≤ e.process ∧
    (x.writer.process = e.process → x.writer.ended ≤ (e.sessions x.writer.session).ended)
  /-- The records of a transaction that has not ended have its number. -/
  own : ∀ who, ∀ x ∈ e.log, x.writer = e.writer who → ∃ trx, (e.sessions who).trx = some trx ∧
    x.record.isCommit = false ∧ ∀ id ∈ x.record.redoTrxId, id = trx.trxId
  begun : ∀ who, (e.sessions who).multi = true →
    ∃ trx, (e.sessions who).trx = some trx ∧ Begins e.log trx.trxId

theorem Sound.right (h : e.Sound) : Right e.log := h.fronts e.log List.prefix_rfl h.notCut

theorem sound_start (db : Storage.Common.Db V A) : (start db).Sound := by
  refine ⟨?_, by simp [NotCut, start], by simp [start], by simp [start], by simp [start]⟩
  intro front hfront _
  rw [List.prefix_nil.mp hfront]
  exact ⟨by simp, by simp⟩

/-- A session that has a transaction object uses it. -/
theorem trx_eq {trx : DbTrx} (h : (e.sessions who).trx = some trx) : e.trx who = trx := by
  rw [DbServer.trx, DbSession.currentTrx, h]

/-- A transaction that has not ended has no commit record. -/
theorem Sound.not_committed (h : e.Sound) (who : ℕ) : hasCommitted e.log (e.writer who) = false := by
  rw [hasCommitted, List.any_eq_false]
  intro x hx hcommit
  obtain ⟨hw, hcommit⟩ := of_decide_eq_true hcommit
  obtain ⟨-, -, hnot, -⟩ := h.own who x hx hw
  rw [hnot] at hcommit
  cases hcommit

/-- The redo records of a transaction that has not ended have the number of the session. -/
theorem Sound.own_number (h : e.Sound) {x : LogEntry V} (hx : x ∈ e.log)
    (hw : x.writer = e.writer who) : ∀ id ∈ x.record.redoTrxId, id = (e.trx who).trxId := by
  obtain ⟨trx, htrx, -, hid⟩ := h.own who x hx hw
  rw [trx_eq htrx]
  exact hid

/-- What a statement of a session does to its transaction: the transaction goes on with its number,
or it ends. -/
structure GoesOn (e : DbServer V A) (who : ℕ) (records : List (String × LogRecord V))
    (session : DbSession) : Prop where
  ended : session.ended = (e.sessions who).ended ∨ session.ended = (e.sessions who).ended + 1
  own : session.ended = (e.sessions who).ended → ∃ trx, session.trx = some trx ∧
    trx.trxId = (e.trx who).trxId ∧ ∀ r ∈ records, r.2.isCommit = false ∧
      ∀ id ∈ r.2.redoTrxId, id = (e.trx who).trxId
  begun : session.multi = true → ∃ trx, session.trx = some trx ∧
    (Begins e.log trx.trxId ∨ ∃ name, (name, .mtrBegin trx.trxId) ∈ records)

/-- The records of a statement are those of the transaction of its session. -/
theorem mem_log_put {x : LogEntry V} (hx : x ∈ (e.put who db records counter session).log) :
    x ∈ e.log ∨ (x.table, x.record) ∈ records ∧ x.writer = e.writer who := by
  refine (List.mem_append.mp hx).imp_right fun hx => ?_
  obtain ⟨r, hr, rfl⟩ := List.mem_map.mp hx
  exact ⟨hr, rfl⟩

theorem Sound.put (h : e.Sound) (hgo : e.GoesOn who records session)
    (hfronts : RightFronts (e.put who db records counter session).log)
    (hcut : NotCut (e.put who db records counter session).log) :
    (e.put who db records counter session).Sound := by
  have hself : (e.put who db records counter session).sessions who = session :=
    Function.update_self ..
  have hother : ∀ who', who' ≠ who →
      (e.put who db records counter session).sessions who' = e.sessions who' :=
    fun who' hne => Function.update_of_ne hne _ _
  have hended : (e.sessions who).ended ≤ session.ended := by
    rcases hgo.ended with heq | heq <;> omega
  refine ⟨hfronts, hcut, fun x hx => ?_, fun who' x hx hw => ?_, fun who' hmulti => ?_⟩
  · rcases mem_log_put hx with hx | ⟨-, hw⟩
    · refine ⟨(h.past x hx).1, fun heq => ((h.past x hx).2 heq).trans ?_⟩
      by_cases hwho : x.writer.session = who
      · rw [hwho, hself]
        exact hended
      · rw [hother _ hwho]
    · rw [hw]
      refine ⟨le_rfl, fun _ => ?_⟩
      show (e.sessions who).ended ≤ ((e.put who db records counter session).sessions who).ended
      rw [hself]
      exact hended
  · by_cases hwho : who' = who
    · subst hwho
      -- a transaction that has just ended is no longer that of the session
      have hsame : session.ended = (e.sessions who').ended := by
        have hwended : x.writer.ended = session.ended := by
          rw [hw, writer, hself]
        rcases mem_log_put hx with hx | ⟨-, hx⟩
        · have hle := (h.past x hx).2 (by rw [hw]; rfl)
          rw [show x.writer.session = who' by rw [hw]; rfl] at hle
          omega
        · exact hwended.symm.trans (by rw [hx]; rfl)
      have hwriter : (e.put who' db records counter session).writer who' = e.writer who' := by
        rw [writer, hself, hsame]
        rfl
      obtain ⟨trx, htrx, hid, hrecords⟩ := hgo.own hsame
      refine ⟨trx, hself.symm ▸ htrx, ?_⟩
      rw [hid]
      rcases mem_log_put hx with hx | ⟨hx, -⟩
      · obtain ⟨-, -, hnot, -⟩ := h.own who' x hx (hw.trans hwriter)
        exact ⟨hnot, h.own_number hx (hw.trans hwriter)⟩
      · exact hrecords _ hx
    · have hwriter : (e.put who db records counter session).writer who' = e.writer who' := by
        rw [writer, hother who' hwho]
        rfl
      rcases mem_log_put hx with hx | ⟨-, hx⟩
      · rw [hother who' hwho]
        exact h.own who' x hx (hw.trans hwriter)
      · exact absurd (congrArg Writer.session (hwriter ▸ hw.symm.trans hx)) hwho
  · by_cases hwho : who' = who
    · subst hwho
      rw [hself] at hmulti ⊢
      obtain ⟨trx, htrx, hbegin⟩ := hgo.begun hmulti
      refine ⟨trx, htrx, begins_append.mpr (hbegin.imp_right ?_)⟩
      rintro ⟨name, hmem⟩
      exact ⟨_, List.mem_map.mpr ⟨_, hmem, rfl⟩, rfl⟩
    · rw [hother who' hwho] at hmulti ⊢
      obtain ⟨trx, htrx, hbegin⟩ := h.begun who' hmulti
      exact ⟨trx, htrx, begins_append.mpr (Or.inl hbegin)⟩

/-- A commit record of the session, behind redo records of its transaction. -/
theorem Sound.right_commit (h : e.Sound) (hnumber : e.OwnsNumber who) (redo : List (LogEntry V))
    (hredo : ∀ y ∈ redo, y.writer = e.writer who ∧ y.record.redoTrxId = some (e.trx who).trxId)
    {x : LogEntry V} (hx : x.record = .mtrCommit (e.trx who).trxId) (hw : x.writer = e.writer who) :
    Right (e.log ++ redo ++ [x]) := by
  refine Right.commit hx (fun y hy id hid => ?_) (fun y hy hyw id hid => ?_) (fun y hy hid => ?_)
  · rcases List.mem_append.mp hy with hy | hy
    · refine Or.inr ⟨?_, ?_⟩
      · exact (h.right.entered y hy id hid).imp (fun hb => begins_append.mpr (Or.inl hb))
          fun hc => commits_append.mpr (Or.inl hc)
      · have hmtr : ¬ Commits redo id := by
          rintro ⟨z, hz, hzid⟩
          exact (not_mtr_of_redo (hredo z hz).2).2.1 id hzid
        have hnone : hasCommitted redo y.writer = false := by
          rw [hasCommitted, List.any_eq_false]
          intro z hz hcommit
          have hnot := (not_mtr_of_redo (hredo z hz).2).2.2
          rw [(of_decide_eq_true hcommit).2] at hnot
          cases hnot
        rw [commits_append, hasCommitted_append, or_iff_left hmtr, hnone, Bool.or_false]
        exact h.right.committed y hy id hid
    · exact Or.inl ((hredo y hy).1.trans hw.symm)
  · rcases List.mem_append.mp hy with hy | hy
    · exact h.own_number hy (hyw.trans hw) id hid
    · exact Option.some.inj (hid.symm.trans (hredo y hy).2)
  · rcases List.mem_append.mp hy with hy | hy
    · rcases hnumber y hy hid with hown | hcommitted
      · exact Or.inl (hown.trans hw.symm)
      · exact Or.inr (by rw [hasCommitted_append, hcommitted, Bool.true_or])
    · exact Or.inl ((hredo y hy).1.trans hw.symm)

theorem Sound.doBegin (h : e.Sound) (who : ℕ) : (e.doBegin who).2.Sound := by
  refine h.put ⟨Or.inl rfl, fun _ => ⟨e.trx who, rfl, rfl, ?_⟩, fun _ => ⟨e.trx who, rfl, ?_⟩⟩
    (h.fronts.concat fun _ => h.right.begin rfl) (notCut_concat.mpr ?_)
  · intro r hr
    rw [List.mem_singleton.mp hr]
    exact ⟨rfl, by simp [LogRecord.redoTrxId]⟩
  · exact Or.inr ⟨"", List.mem_singleton.mpr rfl⟩
  · simp [LogRecord.redoTrxId]

/-- The transaction ends. -/
theorem goesOn_end (e : DbServer V A) (who : ℕ) (records : List (String × LogRecord V))
    (trx : Option DbTrx) : e.GoesOn who records ⟨trx, false, (e.sessions who).ended + 1⟩ := by
  refine ⟨Or.inr rfl, fun heq => ?_, by simp⟩
  exact absurd heq (Nat.succ_ne_self _)

theorem Sound.doCommit (h : e.Sound) (hnumber : e.OwnsNumber who) : (e.doCommit who).2.Sound := by
  refine h.put (goesOn_end ..) (h.fronts.concat fun _ => ?_) (notCut_concat.mpr ?_)
  · have hright := h.right_commit hnumber []
      (x := ⟨"", .mtrCommit (e.trx who).trxId, e.writer who⟩) (by simp) rfl rfl
    rwa [List.append_nil] at hright
  · simp [LogRecord.redoTrxId]

theorem Sound.doRollback [Inhabited V] (h : e.Sound) {order : List (String × RID × OperationType)}
    {rc : RC} {e' : DbServer V A} (hexec : e.doRollback who order = some (rc, e')) : e'.Sound := by
  unfold DbServer.doRollback at hexec
  dsimp only at hexec
  split at hexec
  · obtain ⟨⟨rc', db⟩, -, heq⟩ := Option.bind_eq_some_iff.mp hexec
    cases heq
    refine h.put (goesOn_end ..) ?_ ?_
    · rw [DbServer.put, List.map_nil, List.append_nil]
      exact h.fronts
    · rw [DbServer.put, List.map_nil, List.append_nil]
      exact h.notCut
  · cases hexec

/-- A redo record within a transaction. -/
theorem Sound.redo (h : e.Sound) (hmulti : (e.sessions who).multi = true)
    (hcommit : ¬ Commits e.log (e.trx who).trxId) {x : LogEntry V} (hw : x.writer = e.writer who)
    (hid : x.record.redoTrxId = some (e.trx who).trxId) :
    RightFronts (e.log ++ [x]) ∧ NotCut (e.log ++ [x]) := by
  have hbegin : Begins e.log (e.trx who).trxId := by
    obtain ⟨trx, htrx, hbegin⟩ := h.begun who hmulti
    rwa [trx_eq htrx]
  have hnot : hasCommitted e.log x.writer = false := hw ▸ h.not_committed who
  refine ⟨h.fronts.concat fun _ => h.right.redo hid hbegin hcommit hnot, notCut_concat.mpr ?_⟩
  intro id hid'
  cases hid.symm.trans hid'
  exact ⟨hbegin, hcommit⟩

/-- A redo record and its commit record. A part of the log that ends between them is right if it
does not cut there. -/
theorem Sound.redo_commit (h : e.Sound) (hnumber : e.OwnsNumber who) {x y : LogEntry V}
    (hw : x.writer = e.writer who) (hid : x.record.redoTrxId = some (e.trx who).trxId)
    (hy : y.record = .mtrCommit (e.trx who).trxId) (hyw : y.writer = e.writer who) :
    RightFronts (e.log ++ [x] ++ [y]) ∧ NotCut (e.log ++ [x] ++ [y]) := by
  constructor
  · refine RightFronts.concat (h.fronts.concat fun hcut => ?_) fun _ => ?_
    · obtain ⟨hbegin, hcommit⟩ := notCut_concat.mp hcut _ hid
      exact h.right.redo hid hbegin hcommit (hw ▸ h.not_committed who)
    · refine h.right_commit hnumber [x] (fun z hz => ?_) hy hyw
      rw [List.mem_singleton.mp hz]
      exact ⟨hw, hid⟩
  · rw [notCut_concat, hy]
    simp [LogRecord.redoTrxId]

/-- **What an insertion does**: the table is not there or does not take the row, or a redo record is
written, outside of a transaction with a commit record. -/
theorem doInsert_cases [Inhabited V] {name : String} {data : RecordData V} {rc : RC}
    {e' : DbServer V A} (hexec : e.doInsert who name data = some (rc, e')) :
    e' = e ∨ ∃ db counter trx, trx.trxId = (e.trx who).trxId ∧
      (e' = e.put who db [] counter ⟨some trx, (e.sessions who).multi, (e.sessions who).ended⟩ ∨
      e.Inserts who name data ∧ ∃ rid row,
        ((e.sessions who).multi = true ∧
          e' = e.put who db [(name, .redoInsert (e.trx who).trxId rid row)] counter
            ⟨some trx, true, (e.sessions who).ended⟩ ∨
        (e.sessions who).multi = false ∧
          e' = e.put who db [(name, .redoInsert (e.trx who).trxId rid row),
            ("", .mtrCommit (e.trx who).trxId)] (trx.nextCurrentId counter).2
            ⟨some (trx.nextCurrentId counter).1, false, (e.sessions who).ended + 1⟩)) := by
  unfold DbServer.doInsert at hexec
  cases hdb : e.db.openedTables name with
  | none =>
    rw [hdb] at hexec
    cases hexec
    exact Or.inl rfl
  | some t =>
    rw [hdb] at hexec
    obtain ⟨⟨r, t', trx'⟩, hrun, hexec⟩ := Option.bind_eq_some_iff.mp hexec
    obtain ⟨x, rfl, hid, hcase⟩ := Table.insertRecord_log hrun
    have hnumber : ((e.trx who).put name x).trxId = (e.trx who).trxId := hid
    refine Or.inr ⟨e.db.setTable name t', ((e.sessions who).currentTrx e.counter).2,
      (e.trx who).put name x, hnumber, ?_⟩
    rcases hcase with ⟨rid, row, rfl, hlog⟩ | ⟨⟨rc', rfl⟩, hlog⟩
    · have hlog : t'.log = [.redoInsert (e.trx who).trxId rid row] := hlog
      refine Or.inr ⟨⟨t, rid, t', some x, hdb, hrun⟩, rid, row, ?_⟩
      cases hmulti : (e.sessions who).multi with
      | true =>
        simp only [hmulti, if_true, hlog] at hexec
        cases hexec
        exact Or.inl ⟨rfl, rfl⟩
      | false =>
        simp only [hmulti, Bool.false_eq_true, if_false, hlog] at hexec
        cases hexec
        refine Or.inr ⟨rfl, ?_⟩
        rw [← hnumber]
        rfl
    · have hlog : t'.log = [] := hlog
      simp only [hlog] at hexec
      cases hexec
      exact Or.inl rfl

theorem Sound.doInsert [Inhabited V] (h : e.Sound) {name : String} {data : RecordData V}
    (hallowed : e.Allowed (.statement who (.insert name data))) {rc : RC} {e' : DbServer V A}
    (hexec : e.doInsert who name data = some (rc, e')) : e'.Sound := by
  rcases doInsert_cases hexec with
    rfl | ⟨db, counter, trx, hid, rfl | ⟨hinserts, rid, row, ⟨hmulti, rfl⟩ | ⟨hmulti, rfl⟩⟩⟩
  · exact h
  · refine h.put ⟨Or.inl rfl, fun _ => ⟨trx, rfl, hid, by simp⟩, fun hmulti => ?_⟩ ?_ ?_
    · obtain ⟨old, hold, hbegin⟩ := h.begun who hmulti
      exact ⟨trx, rfl, Or.inl (by rwa [hid, trx_eq hold])⟩
    · rw [DbServer.put, List.map_nil, List.append_nil]
      exact h.fronts
    · rw [DbServer.put, List.map_nil, List.append_nil]
      exact h.notCut
  · have hcond := hallowed hinserts
    rw [if_pos hmulti] at hcond
    obtain ⟨hfronts, hcut⟩ := h.redo hmulti hcond
      (x := ⟨name, .redoInsert (e.trx who).trxId rid row, e.writer who⟩) rfl rfl
    refine h.put ⟨Or.inl rfl, fun _ => ⟨trx, rfl, hid, fun r hr => ?_⟩, fun _ => ?_⟩ hfronts hcut
    · rw [List.mem_singleton.mp hr]
      exact ⟨rfl, fun id hid => (Option.some.inj hid).symm⟩
    · obtain ⟨old, hold, hbegin⟩ := h.begun who hmulti
      exact ⟨trx, rfl, Or.inl (by rwa [hid, trx_eq hold])⟩
  · have hcond := hallowed hinserts
    rw [if_neg (by rw [hmulti]; simp)] at hcond
    obtain ⟨hfronts, hcut⟩ := h.redo_commit hcond
      (x := ⟨name, .redoInsert (e.trx who).trxId rid row, e.writer who⟩)
      (y := ⟨"", .mtrCommit (e.trx who).trxId, e.writer who⟩) rfl rfl rfl rfl
    rw [List.append_assoc] at hfronts hcut
    exact h.put (goesOn_end ..) hfronts hcut

/-- **A statement keeps the log right.** -/
theorem Sound.execute [Inhabited V] (h : e.Sound) {statement : DbStatement V}
    (hallowed : e.Allowed (.statement who statement)) {rc : RC} {e' : DbServer V A}
    (hexec : e.execute who statement = some (rc, e')) : e'.Sound := by
  cases statement with
  | insert name data => exact h.doInsert hallowed hexec
  | begin =>
    cases hexec
    exact h.doBegin who
  | commit =>
    cases hexec
    exact h.doCommit hallowed
  | rollback order => exact h.doRollback hexec

/-- **A restart keeps the log right.** -/
theorem Sound.restart (h : e.Sound) (disk : Storage.Common.Db V A) {kept : ℕ}
    (hcut : NotCut (e.log.take kept)) :
    (e.restart disk kept).2.Sound := by
  have hfront : e.log.take kept <+: e.log := List.take_prefix kept e.log
  have hpast : ∀ x ∈ e.log.take kept, x.writer.process ≤ e.process :=
    fun x hx => (h.past x (hfront.subset hx)).1
  refine ⟨h.fronts.of_prefix hfront, hcut, fun x hx => ?_, fun who x hx hw => ?_, ?_⟩
  · have hle := hpast x hx
    exact ⟨Nat.le_succ_of_le hle, fun heq => absurd (heq ▸ hle) (Nat.not_succ_le_self _)⟩
  · have hle := hpast x hx
    rw [hw] at hle
    exact absurd hle (Nat.not_succ_le_self _)
  · intro who hmulti
    cases hmulti

variable [Inhabited V]

theorem Sound.step (h : e.Sound) {event : DbEvent V A} (hallowed : e.Allowed event)
    {e' : DbServer V A} (hstep : e.step event = some e') : e'.Sound := by
  cases event with
  | statement who statement =>
    obtain ⟨⟨rc, e'⟩, hexec, rfl⟩ := Option.map_eq_some_iff.mp hstep
    exact h.execute hallowed hexec
  | restart disk kept =>
    cases hstep
    exact h.restart disk hallowed.1

end DbServer

/-- **Only committed work is redone.** In a run whose statements and restarts meet the condition,
recovery succeeds at every restart, and redoes the records of the transactions whose commit record
is in the log. -/
theorem only_committed_redone [Inhabited V] (db : Storage.Common.Db V A)
    (events : List (DbEvent V A))
    (hall : AllSteps DbServer.step DbServer.Allowed events (.start db)) {e : DbServer V A}
    (hrun : (DbServer.start db).run events = some e) {disk : Storage.Common.Db V A} {kept : ℕ}
    (hrestart : e.Allowed (.restart disk kept)) : RedoesCommitted disk (e.log.take kept) := by
  have hsound : e.Sound := hall.invariant DbServer.Sound hrun
    (fun _ _ _ h hallowed hstep => h.step hallowed hstep) (DbServer.sound_start db)
  have hfront : e.log.take kept <+: e.log := List.take_prefix kept e.log
  exact (hsound.fronts _ hfront hrestart.1).redoesCommitted hrestart.2

/-- All tables have one page, with room for 3 records. -/
def roomyDb : Storage.Common.Db ℕ ℤ :=
  ⟨fun _ => some ⟨3, ((RecordFile.empty (.const .newestFirst)).allocatePage 3).2, [], []⟩⟩

/-- One session commits two rows, another one rolls a row back. The crash leaves pages without the
rows, and the next process inserts one more. -/
def commitsAndRestarts : List (DbEvent ℕ ℤ) :=
  [.statement 1 .begin, .statement 1 (.insert "t" ⟨0, 9⟩), .statement 0 .begin,
    .statement 0 (.insert "t" ⟨0, 7⟩), .statement 0 (.insert "t" ⟨0, 8⟩), .statement 0 .commit,
    .statement 1 (.rollback [("t", slotRid 1 0, .insert)]), .restart roomyDb 6,
    .statement 0 (.insert "t" ⟨0, 4⟩)]

theorem only_committed_redone_insert : ∃ e : DbServer ℕ ℤ,
    (DbServer.start roomyDb).run commitsAndRestarts = some e ∧ e.log.length = 8 ∧
      RedoesCommitted roomyDb (e.log.take 8) := by
  have hrun : ((DbServer.start roomyDb).run commitsAndRestarts).map (fun e =>
      (e.log.length, decide (e.Allowed (.restart roomyDb 8)))) = some (8, true) := by decide
  obtain ⟨e, he, hcheck⟩ := Option.map_eq_some_iff.mp hrun
  obtain ⟨hlength, hrestart⟩ := Prod.mk.inj hcheck
  exact ⟨e, he, hlength, only_committed_redone roomyDb _ (by decide) he
    (of_decide_eq_true hrestart)⟩

/-- A transaction inserts a row, and the process crashes after all has been written to disk. The
next process inserts a row with the same number, and the restart behind it redoes both. -/
theorem unfinished_redone : ∃ e e' : DbServer ℕ ℤ,
    (DbServer.start roomyDb).run [.statement 0 .begin, .statement 0 (.insert "t" ⟨0, 7⟩)] =
      some e ∧
    e.run [.restart e.db 2, .statement 0 (.insert "t" ⟨0, 8⟩)] = some e' ∧
    ¬ RedoesCommitted e'.db (e'.log.take 4) := by
  have hcount : (do
      let e ← (DbServer.start roomyDb).run
        [.statement 0 .begin, .statement 0 (.insert "t" ⟨0, 7⟩)]
      let e' ← e.run [.restart e.db 2, .statement 0 (.insert "t" ⟨0, 8⟩)]
      some ((e'.db.redone ((e'.log.take 4).map LogEntry.read)).length,
        (redoOfCommitted (e'.log.take 4)).length) : Option (ℕ × ℕ)) = some (2, 1) := by
    decide
  obtain ⟨e, hrun, hcount⟩ := Option.bind_eq_some_iff.mp hcount
  obtain ⟨e', hrun', hcount⟩ := Option.bind_eq_some_iff.mp hcount
  refine ⟨e, e', hrun, hrun', fun h => ?_⟩
  rw [h.redone, List.length_map, Option.some_inj, Prod.mk.injEq] at hcount
  omega

end Miniob.Sql
