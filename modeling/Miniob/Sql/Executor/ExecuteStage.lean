import Miniob.Storage.Common.Consistent

/-!
# Statements that change a table

Sessions run statements one after the other on one table. A session has a transaction object, which
it makes when a statement first asks for it, and a flag that is set between `BEGIN` and the end of
the transaction.

* `Statement`: the statements; `Session`, `Server`: the sessions and what they share.
* `Server.execute`: what the executor does with a statement.
* `Server.run`: statements of the sessions, in whatever order they come.

`INSERT` passes the transaction of the session to the table and writes a commit record to the log
unless the flag is set, but it leaves the operations in the transaction object, and so does
`COMMIT`. `DELETE` and `LOAD DATA` pass no transaction. `CLOG_SYNC` goes on with what `ROLLBACK`
does. The log and the buffer pool do not fail here.
-/

namespace Miniob.Storage.Transaction.Trx

/-- Source: `trx.cpp`, `Trx::next_current_id` -/
def nextCurrentId (trx : Trx) (counter : BitVec 32) : Trx × BitVec 32 :=
  ({ trx with trxId := counter + 1 }, counter + 1)

end Miniob.Storage.Transaction.Trx

namespace Miniob.Sql

open Miniob.Storage.Common Miniob.Storage.Index Miniob.Storage.Record Miniob.Storage.Transaction

/-- Source: `session.h`, `class Session` -/
structure Session where
  /-- `trx_` -/
  trx : Option Trx
  /-- `trx_multi_operation_mode_` -/
  multi : Bool
  deriving DecidableEq

/-- Source: `session.cpp`, `Session::current_trx` -/
def Session.currentTrx (session : Session) (counter : BitVec 32) : Trx × BitVec 32 :=
  match session.trx with
  | some trx => (trx, counter)
  | none => Trx.new counter

/-- A statement. The operations of a transaction come in the order in which its hash set has
them. -/
inductive Statement (V : Type)
  /-- `INSERT` -/
  | insert (data : RecordData V)
  /-- `DELETE`, with its condition and the rows that the child of its operator returns. -/
  | delete (condition : V → Bool) (rows : List (RID × RecordData V))
  /-- `LOAD DATA`, with the rows that the lines of the file give. -/
  | loadData (rows : List (RecordData V)) (order : List (RID × OperationType))
  /-- `BEGIN` -/
  | begin
  /-- `COMMIT` -/
  | commit
  /-- `ROLLBACK` -/
  | rollback (order : List (RID × OperationType))
  /-- `CLOG_SYNC` -/
  | clogSync (order : List (RID × OperationType))

variable {V A : Type} [LinearOrder A]

/-- The sessions and the table. -/
structure Server (V A : Type) [LinearOrder A] where
  /-- The table. -/
  table : Table V A
  /-- `Trx::trx_id`, the number that was given to a transaction last. -/
  counter : BitVec 32
  /-- The sessions. -/
  sessions : ℕ → Session

namespace Server

/-- No session has run a statement yet. -/
def start (t : Table V A) (counter : BitVec 32) : Server V A := ⟨t, counter, fun _ => ⟨none, false⟩⟩

/-- What a statement of a session leaves. -/
def put (e : Server V A) (who : ℕ) (t : Table V A) (counter : BitVec 32) (session : Session) :
    Server V A :=
  ⟨t, counter, Function.update e.sessions who session⟩

/-- A record is appended to the log. -/
def clogAppendRecord (t : Table V A) (r : LogRecord V) : Table V A := { t with log := t.log ++ [r] }

section execute

variable [Inhabited V]

/-- Source: `execute_stage.cpp`, `ExecuteStage::do_insert` -/
def doInsert (e : Server V A) (who : ℕ) (data : RecordData V) : Option (RC × Server V A) := do
  let session := e.sessions who
  let (trx, counter) := session.currentTrx e.counter
  match ← e.table.insertRecord (some trx) data .success with
  | (.ok _, t, some trx) =>
    if session.multi then return (.success, e.put who t counter ⟨some trx, true⟩)
    else
      let t := clogAppendRecord t (.mtrCommit trx.trxId)
      let (trx, counter) := trx.nextCurrentId counter
      return (.success, e.put who t counter ⟨some trx, false⟩)
  | (.error rc, t, trx) => return (rc, e.put who t counter ⟨trx, session.multi⟩)
  | _ => none

omit [Inhabited V] in
/-- The rows are rows of the table that the condition holds of.
Source: `delete_physical_operator.cpp`, `DeletePhysicalOperator::next` -/
def deleteRows [DecidableEq V] (condition : V → Bool) (counter : BitVec 32) :
    List (RID × RecordData V) → Table V A → Option (RC × Table V A)
  | [], t => some (.success, t)
  | (rid, data) :: rows, t =>
    if t.record rid = some data ∧ condition data.values then
      match t.deleteRecord counter none rid data .success with
      | (.success, t, _) => deleteRows condition counter rows t
      | (rc, t, _) => some (rc, t)
    else none

/-- Source: `default_storage_stage.cpp`, `DefaultStorageStage::load_data` -/
def loadRows : List (RecordData V) → Table V A → Option (RC × Table V A)
  | [], t => some (.success, t)
  | data :: rows, t => do
    match ← t.insertRecord none data .success with
    | (.ok _, t, _) => loadRows rows t
    | (.error rc, t, _) => return (rc, t)

/-- Without the flag, `Trx::commit` comes at the end.
Source: `default_storage_stage.cpp`, `DefaultStorageStage::handle_event` -/
def doLoadData (e : Server V A) (who : ℕ) (rows : List (RecordData V))
    (order : List (RID × OperationType)) : Option (RC × Server V A) := do
  let session := e.sessions who
  let (trx, counter) := session.currentTrx e.counter
  let (rc, t) ← loadRows rows e.table
  if session.multi then return (rc, e.put who t counter ⟨some trx, true⟩)
  else if order.Perm trx.operations then
    let (_, t, trx) ← trx.commit order t
    return (rc, e.put who t counter ⟨some trx, false⟩)
  else none

omit [Inhabited V] in
/-- Source: `execute_stage.cpp`, `ExecuteStage::do_begin` -/
def doBegin (e : Server V A) (who : ℕ) : RC × Server V A :=
  let (trx, counter) := (e.sessions who).currentTrx e.counter
  (.success, e.put who (clogAppendRecord e.table (.mtrBegin trx.trxId)) counter ⟨some trx, true⟩)

omit [Inhabited V] in
/-- Source: `execute_stage.cpp`, `ExecuteStage::do_commit` -/
def doCommit (e : Server V A) (who : ℕ) : RC × Server V A :=
  let (trx, counter) := (e.sessions who).currentTrx e.counter
  let t := clogAppendRecord e.table (.mtrCommit trx.trxId)
  let (trx, counter) := trx.nextCurrentId counter
  (.success, e.put who t counter ⟨some trx, false⟩)

omit [Inhabited V] in
/-- Source: `execute_stage.cpp`, `ExecuteStage::handle_request`, `case SCF_ROLLBACK` -/
def doRollback (e : Server V A) (who : ℕ) (order : List (RID × OperationType)) :
    Option (RC × Server V A) := do
  let (trx, counter) := (e.sessions who).currentTrx e.counter
  if order.Perm trx.operations then
    let (rc, t, trx) ← trx.rollback order e.table
    return (rc, e.put who t counter ⟨some trx, false⟩)
  else none

variable [DecidableEq V]

/-- There is no `break` between `case SCF_CLOG_SYNC` and `case SCF_ROLLBACK`.
Source: `execute_stage.cpp`, `ExecuteStage::handle_request`,
`ExecuteStage::handle_request_with_physical_operator` -/
def execute (e : Server V A) (who : ℕ) : Statement V → Option (RC × Server V A)
  | .insert data => e.doInsert who data
  | .delete condition rows => (deleteRows condition e.counter rows e.table).map fun (rc, t) =>
      (rc, { e with table := t })
  | .loadData rows order => e.doLoadData who rows order
  | .begin => some (e.doBegin who)
  | .commit => some (e.doCommit who)
  | .rollback order => e.doRollback who order
  | .clogSync order => e.doRollback who order

/-- A statement that succeeds. -/
def step (e : Server V A) (action : ℕ × Statement V) : Option (Server V A) :=
  match e.execute action.1 action.2 with
  | some (.success, e) => some e
  | _ => none

/-- Statements that succeed, in whatever order the sessions run them. -/
def run (actions : List (ℕ × Statement V)) (e : Server V A) : Option (Server V A) :=
  actions.foldlM step e

end execute

end Server

end Miniob.Sql
