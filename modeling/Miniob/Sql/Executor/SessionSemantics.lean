import Miniob.Lib.MapValues
import Miniob.Sql.Executor.LogComplete

/-!
# What one session does to a table

One session runs `INSERT`, `DELETE`, `BEGIN`, `COMMIT`, `ROLLBACK` and `CLOG_SYNC` on a table that is
empty at first. The rows of the table are compared with those of a reference that knows nothing of
slots and operations.

* `SessionRows.step`: the reference.
* `Watched`: the server, with the rows of the table at `BEGIN`.
* `Watched.Possible`: what a statement can come with; `Watched.Allowed`: the condition.
* `Watched.Sound`: what holds between two statements, and `Sound.step`: every allowed statement keeps
  it.
* `session_semantics`: a run of allowed statements leaves the rows of the reference.
-/

namespace Miniob.Storage.Common.Table

open Miniob.Storage.Index Miniob.Storage.Record Miniob.Storage.Transaction

variable {V A : Type} [LinearOrder A] {t : Table V A} {rid : RID} {data : RecordData V}

/-- A deletion without a transaction. -/
theorem Consistent.deleteRecord_none (h : t.Consistent) (hrid : t.record rid = some data)
    (counter : BitVec 32) :
    ∃ t', t.deleteRecord counter none rid data .success = (.success, t', none, counter) ∧
      t'.Consistent ∧ t'.record = Function.update t.record rid none ∧
      t'.records.length = t.records.length := by
  obtain ⟨records, hdel, hd⟩ := h.inv.deleteRecord hrid
  have hlength := RecordFile.length_deleteRecord t.records rid
  rw [hdel] at hlength
  refine ⟨_, ?_, h.erase hrid hd t.log, hd.record, hlength⟩
  unfold Table.deleteRecord
  simp only [deleteEntryOfIndexes_of_lists fun index hmem =>
    (h.indexes index hmem).covers rid data hrid, hdel]

/-- The rollback of an insertion into a page of the file ends. -/
theorem Consistent.exists_rollbackInsert (h : t.Consistent) (hslot : 0 ≤ rid.slotNum)
    (hin : 0 < rid.pageNum ∧ rid.pageNum < t.records.length) :
    ∃ rc t', t.rollbackOperation (rid, .insert) = some (rc, t') ∧
      t'.records.length = t.records.length := by
  unfold Table.rollbackOperation Table.rollbackInsert
  cases hrid : t.record rid with
  | none =>
    obtain ⟨r, hget⟩ := RecordFile.getRecord_isSome hin
    rcases RecordFile.getRecord_of_none hslot hrid with hnone | ⟨rc, -, herror⟩
    · rw [hnone] at hget
      cases hget
    · exact ⟨rc, t, by simp [herror], rfl⟩
  | some data =>
    obtain ⟨records, hdel, -⟩ := h.inv.deleteRecord hrid
    have hlength := RecordFile.length_deleteRecord t.records rid
    rw [hdel] at hlength
    refine ⟨.success, { t with
      records := records
      indexes := t.indexes.map fun index => (index.deleteEntry data.values rid).2 }, ?_, hlength⟩
    simp [RecordFile.getRecord_of_some hrid, deleteEntryOfIndexes_of_lists fun index hmem =>
      (h.indexes index hmem).covers rid data hrid, hdel]

/-- The rollback of insertions ends. By induction on the operations. -/
theorem Consistent.exists_rollback (ops : List (RID × OperationType)) :
    ∀ {t : Table V A} (rc : RC), t.Consistent → (∀ op ∈ ops, op.2 = .insert ∧
      0 ≤ op.1.slotNum ∧ 0 < op.1.pageNum ∧ op.1.pageNum < t.records.length) →
      ∃ r, Table.endOperations Table.rollbackOperation (rc, t) ops = some r := by
  induction ops with
  | nil => exact fun rc _ _ => ⟨_, rfl⟩
  | cons op ops ih =>
    intro t rc h hops
    obtain ⟨rid, type⟩ := op
    obtain ⟨hinsert, hslot, hin⟩ := hops _ List.mem_cons_self
    obtain rfl : type = .insert := hinsert
    obtain ⟨rc', t', hone, hlength⟩ := h.exists_rollbackInsert hslot hin
    have h' : t'.Consistent := (h.rollbackInsert hslot hone).1
    obtain ⟨r, hr⟩ := ih rc' h' fun op hop => by
      rw [hlength]
      exact hops op (List.mem_cons_of_mem _ hop)
    exact ⟨r, by rw [Table.endOperations, hone]; exact hr⟩

variable [Inhabited V]

/-- An insertion for which the data file has a slot, which the transaction does not have yet. -/
theorem Consistent.insertRecord_of_slot (h : t.Consistent) (hkeep : t.KeepsRecords)
    (hord : t.OrdersKeys data.values) {x : Trx} {records : RecordFile (RecordData V)}
    (hslot : t.records.insertRecord t.recordCapacity (x.initTrxInfo data) = some (.ok rid, records))
    (hnew : x.findOperation rid ≠ some .insert) :
    ∃ t' x', t.insertRecord (some x) data .success = some (.ok rid, t', some x') ∧ t'.Consistent ∧
      x.insertRecord rid = (.success, x') ∧ t.record rid = none ∧
      t'.record = Function.update t.record rid (some (x.initTrxInfo data)) ∧
      t.records.length ≤ t'.records.length := by
  rcases x.insertRecord_spec rid with ⟨hold, -⟩ | ⟨-, x', hx, -⟩
  · exact absurd hold hnew
  rcases h.inv.insertRecord (x.initTrxInfo data) with ⟨rid', records', heq, hins⟩ | ⟨rc, r, heq, -⟩
  · cases hslot.symm.trans heq
    have hfresh : t.record rid = none := hkeep.wiped_eq ▸ hins.fresh
    have hlacks : ∀ index ∈ t.indexes, index.Lacks (x.initTrxInfo data).values rid :=
      fun index hmem => (h.indexes index hmem).lacks hfresh (hord index hmem)
    have hrun : t.insertRecord (some x) data .success = some (.ok rid, { t with
        records := records
        indexes := t.indexes.map fun index => (index.insertEntry (x.initTrxInfo data).values rid).2
        log := t.log ++ [.redoInsert x'.trxId rid (x.initTrxInfo data)] }, some x') := by
      unfold Table.insertRecord
      simp only [hslot, hx, Option.bind_eq_bind, Option.bind_some, Table.insertEntries,
        insertEntryOfIndexes_of_lacks hlacks]
      rfl
    have hlength := RecordFile.length_le_insertRecord hslot
    rcases h.insertRecord hkeep x hord with ⟨rid', t', y, hok, hc, -, -, -, hrec, -⟩ | ⟨rc, t', hno, -⟩
    · cases hrun.symm.trans hok
      exact ⟨_, x', hrun, hc, hx, hfresh, hrec, hlength⟩
    · cases hrun.symm.trans hno
  · cases hslot.symm.trans heq

end Miniob.Storage.Common.Table

namespace Miniob.Sql

open Miniob.Lib Miniob.Storage.Common Miniob.Storage.Index Miniob.Storage.Record
open Miniob.Storage.Transaction

variable {V A : Type} [LinearOrder A]

/-! ## The reference -/

/-- The rows of a table, and within a transaction those at `BEGIN`. -/
structure SessionRows (V : Type) where
  rows : Multiset V
  saved : Option (Multiset V)

namespace SessionRows

/-- The table is empty. -/
def empty : SessionRows V := ⟨0, none⟩

/-- A statement takes effect at once, and `ROLLBACK` brings the rows at `BEGIN` back. -/
def step (c : SessionRows V) : Statement V → SessionRows V
  | .insert data => { c with rows := data.values ::ₘ c.rows }
  | .delete condition _ => { c with rows := c.rows.filter fun values => condition values = false }
  | .loadData rows _ => { c with rows := (rows.map RecordData.values : List V) + c.rows }
  | .begin => { c with saved := some (c.saved.getD c.rows) }
  | .commit => { c with saved := none }
  | .rollback _ => ⟨c.saved.getD c.rows, none⟩
  | .clogSync _ => c

/-- Statements one after the other. -/
def run (statements : List (Statement V)) (c : SessionRows V) : SessionRows V :=
  statements.foldl step c

end SessionRows

/-- The records have these values. -/
def HasRows (records : RID → Option (RecordData V)) (rows : Multiset V) : Prop :=
  ValuesOf (fun rid => (records rid).map RecordData.values) rows

theorem hasRows_empty : HasRows (fun _ => none : RID → Option (RecordData V)) 0 := valuesOf_none

theorem HasRows.insert {records : RID → Option (RecordData V)} {rows : Multiset V}
    (h : HasRows records rows) {rid : RID} (hrid : records rid = none) (data : RecordData V) :
    HasRows (Function.update records rid (some data)) (data.values ::ₘ rows) := by
  have hnone : (records rid).map RecordData.values = none := by rw [hrid, Option.map_none]
  have hmap : (fun r => (Function.update records rid (some data) r).map RecordData.values) =
      Function.update (fun r => (records r).map RecordData.values) rid (some data.values) := by
    funext r
    by_cases hr : r = rid
    · rw [hr, Function.update_self, Function.update_self, Option.map_some]
    · rw [Function.update_of_ne hr, Function.update_of_ne hr]
  rw [HasRows, hmap]
  exact ValuesOf.insert h hnone data.values

/-- The records that are left have the values that are left. -/
theorem HasRows.delete {records : RID → Option (RecordData V)} {rows : Multiset V}
    (h : HasRows records rows) (condition : V → Bool) :
    HasRows (fun rid => (records rid).filter fun data => !condition data.values)
      (rows.filter fun values => condition values = false) := by
  have hmap : (fun rid => ((records rid).filter fun data => !condition data.values).map
      RecordData.values) =
      fun rid => ((records rid).map RecordData.values).filter fun values => !condition values := by
    funext rid
    cases records rid with
    | none => rfl
    | some data => cases hc : condition data.values <;> simp [Option.filter_some, hc]
  have hrows : (rows.filter fun values => condition values = false) =
      rows.filter fun values => (!condition values) = true :=
    Multiset.filter_congr fun values _ => by rw [Bool.not_eq_true']
  rw [HasRows, hmap, hrows]
  exact ValuesOf.filter h fun values => !condition values

/-! ## The session -/

namespace Server

/-- The transaction object of the session, which it makes if it has none. -/
def trx (e : Server V A) : Trx := ((e.sessions 0).currentTrx e.counter).1

@[simp] theorem trx_put (e : Server V A) (t : Table V A) (counter : BitVec 32) (x : Trx)
    (multi : Bool) : (e.put 0 t counter ⟨some x, multi⟩).trx = x := by
  simp [trx, put, Session.currentTrx]

/-- The rows are in the table, and none of them is an operation of the transaction. -/
def Spares (e : Server V A) (rows : RID → Option (RecordData V)) : Prop :=
  ∀ rid data, rows rid = some data →
    e.table.record rid = some data ∧ e.trx.findOperation rid = none

variable [Inhabited V]

/-- The slot that the data file has for a row. -/
def slotFor (e : Server V A) (data : RecordData V) : Option RID :=
  match e.table.records.insertRecord e.table.recordCapacity (e.trx.initTrxInfo data) with
  | some (.ok rid, _) => some rid
  | _ => none

variable [DecidableEq V]

/-- Statements one after the other, with the codes they return. -/
def session : List (Statement V) → Server V A → Option (List RC × Server V A)
  | [], e => some ([], e)
  | statement :: statements, e => do
    let (rc, e) ← e.execute 0 statement
    let (rcs, e) ← session statements e
    return (rc :: rcs, e)

/-- The statements run, every `INSERT` succeeds, and the table has the rows of the reference. -/
def Agrees (statements : List (Statement V)) (e : Server V A) (c : SessionRows V) : Prop :=
  ∃ rcs e', session statements e = some (rcs, e') ∧
    (∀ data rc, (Statement.insert data, rc) ∈ statements.zip rcs → rc = .success) ∧
    HasRows e'.table.record (c.run statements).rows

end Server

/-- The server, and within a transaction the records of the table at `BEGIN`. -/
structure Watched (V A : Type) [LinearOrder A] where
  server : Server V A
  base : Option (RecordFile (RecordData V))

namespace Watched

/-- What a statement leaves. -/
def next (w : Watched V A) (e : Server V A) : Statement V → Watched V A
  | .begin => ⟨e, some (w.base.getD w.server.table.records)⟩
  | .commit | .rollback _ => ⟨e, none⟩
  | .insert _ | .delete _ _ | .loadData _ _ | .clogSync _ => ⟨e, w.base⟩

section condition

variable [Inhabited V]

/-- What a statement comes with: the data file has a slot for the row of an `INSERT`, the rows that
the child of a `DELETE` returns are rows of the table that meet the condition, none of them twice,
and the operations that are rolled back are those of the transaction in some order. -/
def Possible (w : Watched V A) : Statement V → Prop
  | .insert data => w.server.slotFor data ≠ none
  | .delete condition rows => (rows.map Prod.fst).Nodup ∧
    ∀ row ∈ rows, w.server.table.record row.1 = some row.2 ∧ condition row.2.values = true
  | .loadData _ _ => False
  | .begin | .commit => True
  | .rollback order | .clogSync order => order.Perm w.server.trx.operations

/-- The records that `ROLLBACK` is to bring back. -/
def baseRecords (w : Watched V A) : RecordFile (RecordData V) := w.base.getD w.server.table.records

/-- The condition on a statement: an insertion does not take a page from the file header that has
records, gets a slot that is not an operation of the transaction, and the comparators order its keys;
the child of a `DELETE` returns all rows that meet the condition; when `ROLLBACK` ends a transaction, the rows at `BEGIN` are still
there, and none of them is an operation of it; `ROLLBACK` outside of a transaction and `CLOG_SYNC`
find no row of the table among the operations. -/
def Allowed (w : Watched V A) : Statement V → Prop
  | .insert data => w.server.table.KeepsRecords ∧ w.server.table.OrdersKeys data.values ∧
    ∀ rid ∈ w.server.slotFor data, w.server.trx.findOperation rid = none
  | .delete condition rows => ∀ rid data, w.server.table.record rid = some data →
    condition data.values = true → (rid, data) ∈ rows
  | .loadData _ _ | .begin | .commit => True
  | .rollback _ => w.server.Spares w.baseRecords.record
  | .clogSync _ => w.server.Spares w.server.table.record

variable [DecidableEq V]

instance (w : Watched V A) : (statement : Statement V) → Decidable (w.Possible statement)
  | .insert _ => inferInstanceAs (Decidable (_ ≠ _))
  | .delete _ _ => inferInstanceAs (Decidable (_ ∧ _))
  | .loadData _ _ => inferInstanceAs (Decidable False)
  | .begin => inferInstanceAs (Decidable True)
  | .commit => inferInstanceAs (Decidable True)
  | .rollback _ => inferInstanceAs (Decidable (List.Perm _ _))
  | .clogSync _ => inferInstanceAs (Decidable (List.Perm _ _))

instance (w : Watched V A) : (statement : Statement V) → Decidable (w.Allowed statement)
  | .insert _ => inferInstanceAs (Decidable (_ ∧ _ ∧ _))
  | .delete condition rows => inferInstanceAs (Decidable (∀ rid data,
      w.server.table.record rid = some data → condition data.values = true → (rid, data) ∈ rows))
  | .loadData _ _ => inferInstanceAs (Decidable True)
  | .begin => inferInstanceAs (Decidable True)
  | .commit => inferInstanceAs (Decidable True)
  | .rollback _ => inferInstanceAs (Decidable (∀ rid data, w.baseRecords.record rid = some data →
      w.server.table.record rid = some data ∧ w.server.trx.findOperation rid = none))
  | .clogSync _ => inferInstanceAs (Decidable (∀ rid data, w.server.table.record rid = some data →
      w.server.table.record rid = some data ∧ w.server.trx.findOperation rid = none))

/-- A statement, whatever it returns. -/
def step (w : Watched V A) (statement : Statement V) : Option (Watched V A) :=
  (w.server.execute 0 statement).map fun r => w.next r.2 statement

end condition

/-! ## What holds between two statements -/

/-- The rows at `BEGIN` are those of the reference, and a row that is no operation of the transaction
is one of them. -/
def Remembers (t : Table V A) (x : Trx) :
    Option (RecordFile (RecordData V)) → Option (Multiset V) → Prop
  | none, none => True
  | some base, some saved => HasRows base.record saved ∧
    ∀ rid data, t.record rid = some data → x.findOperation rid = none →
      base.record rid = some data
  | _, _ => False

/-- The rows are those of the reference, and the operations are insertions into the file. -/
structure Sound (w : Watched V A) (c : SessionRows V) : Prop where
  consistent : w.server.table.Consistent
  inserts : Server.OnlyInserts w.server.trx
  inFile : ∀ rid, w.server.trx.findOperation rid ≠ none →
    0 < rid.pageNum ∧ rid.pageNum < w.server.table.records.length
  rows : HasRows w.server.table.record c.rows
  remembers : Remembers w.server.table w.server.trx w.base c.saved

variable {w : Watched V A} {c : SessionRows V} {e : Server V A} {t t' : Table V A} {x x' : Trx}

/-- The rows that are no operations become fewer. -/
theorem Remembers.mono {base : Option (RecordFile (RecordData V))} {saved : Option (Multiset V)}
    (h : Remembers t x base saved)
    (hrows : ∀ rid data, t'.record rid = some data → x'.findOperation rid = none →
      t.record rid = some data ∧ x.findOperation rid = none) :
    Remembers t' x' base saved := by
  cases base with
  | none => cases saved with
    | none => trivial
    | some saved => exact h.elim
  | some base => cases saved with
    | none => exact h.elim
    | some saved =>
      refine ⟨h.1, fun rid data hrid hop => ?_⟩
      obtain ⟨hrid', hop'⟩ := hrows rid data hrid hop
      exact h.2 rid data hrid' hop'

/-- The rows that `ROLLBACK` is to bring back. -/
theorem Sound.base (h : w.Sound c) :
    HasRows w.baseRecords.record (c.saved.getD c.rows) ∧
      ∀ rid data, w.server.table.record rid = some data →
        w.server.trx.findOperation rid = none → w.baseRecords.record rid = some data := by
  have hremembers := h.remembers
  unfold baseRecords
  cases hbase : w.base with
  | none => cases hsaved : c.saved with
    | none => exact ⟨h.rows, fun rid data hrid _ => hrid⟩
    | some saved =>
      rw [hbase, hsaved] at hremembers
      exact hremembers.elim
  | some base => cases hsaved : c.saved with
    | none =>
      rw [hbase, hsaved] at hremembers
      exact hremembers.elim
    | some saved =>
      rw [hbase, hsaved] at hremembers
      exact hremembers

/-- What the log and the number of the transaction are does not matter. -/
theorem sound_put (hc : t.Consistent) (hx : Server.OnlyInserts x)
    (hin : ∀ rid, x.findOperation rid ≠ none →
      0 < rid.pageNum ∧ rid.pageNum < t.records.length) (hrows : HasRows t.record c.rows)
    {base : Option (RecordFile (RecordData V))} (hbase : Remembers t x base c.saved)
    (log : List (LogRecord V)) (id counter : BitVec 32) (multi : Bool) :
    Sound ⟨e.put 0 { t with log := log } counter ⟨some { x with trxId := id }, multi⟩, base⟩ c where
  consistent := ⟨hc.inv, hc.indexes⟩
  inserts := by rw [Server.trx_put]; exact hx
  inFile := by rw [Server.trx_put]; exact hin
  rows := hrows
  remembers := by rw [Server.trx_put]; exact hbase

/-! ## What the statements do -/

/-- What is left when the insertions of the transaction are rolled back. -/
theorem rolledBack_eq (hx : Server.OnlyInserts e.trx) {rows : RID → Option (RecordData V)}
    (hspares : e.Spares rows) (hrest : ∀ rid data, e.table.record rid = some data →
      e.trx.findOperation rid = none → rows rid = some data) :
    (fun rid => if e.trx.findOperation rid = some .insert then none else e.table.record rid) =
      rows := by
  funext rid
  cases hop : e.trx.findOperation rid with
  | none =>
    rw [if_neg (by simp)]
    cases hrows : rows rid with
    | some data => exact (hspares rid data hrows).1
    | none =>
      cases hrid : e.table.record rid with
      | none => rfl
      | some data => exact hrows.symm.trans (hrest rid data hrid hop) |>.symm
  | some type =>
    rw [(hx.2 rid type hop).1, if_pos rfl]
    cases hrows : rows rid with
    | none => rfl
    | some data => cases hop.symm.trans (hspares rid data hrows).2

/-- A rollback ends and takes the rows of the operations away. -/
theorem Sound.doRollback (h : w.Sound c) {order : List (RID × OperationType)}
    (horder : order.Perm w.server.trx.operations) :
    ∃ rc t counter, w.server.doRollback 0 order =
        some (rc, w.server.put 0 t counter ⟨some ⟨0, []⟩, false⟩) ∧ t.Consistent ∧
      t.record = fun rid => if w.server.trx.findOperation rid = some .insert then none
        else w.server.table.record rid := by
  obtain ⟨hops, hnodup, hmem⟩ := h.inserts.order horder
  obtain ⟨⟨rc, t⟩, hend⟩ := h.consistent.exists_rollback order .success fun op hop => by
    have hfind := (hmem op.1).mp (List.mem_map_of_mem hop)
    exact ⟨(hops op hop).1, (hops op hop).2, h.inFile op.1 (by rw [hfind]; simp)⟩
  obtain ⟨hc, -, hrec⟩ := Table.Consistent.endInserts
    (fun ht hslot hstep => ht.rollbackInsert hslot hstep) order h.consistent hops hnodup hend
  refine ⟨rc, t, ((w.server.sessions 0).currentTrx w.server.counter).2, ?_, hc, ?_⟩
  · unfold Server.doRollback
    exact (if_pos horder).trans (by rw [Trx.rollback, hend]; rfl)
  · funext rid
    rw [hrec]
    exact if_congr (hmem rid) rfl rfl

variable [DecidableEq V]

/-- The rows that the child returns are deleted. By induction on the rows. -/
theorem deleteRows_spec (condition : V → Bool) (counter : BitVec 32)
    (rows : List (RID × RecordData V)) : ∀ {t : Table V A}, t.Consistent →
    (rows.map Prod.fst).Nodup →
    (∀ row ∈ rows, t.record row.1 = some row.2 ∧ condition row.2.values = true) →
    ∃ t', Server.deleteRows condition counter rows t = some (.success, t') ∧ t'.Consistent ∧
      (∀ rid, t'.record rid = if rid ∈ rows.map Prod.fst then none else t.record rid) ∧
      t'.records.length = t.records.length := by
  induction rows with
  | nil => exact fun h _ _ => ⟨_, rfl, h, fun rid => by simp, rfl⟩
  | cons row rows ih =>
    intro t h hnodup hrows
    rw [List.map_cons, List.nodup_cons] at hnodup
    obtain ⟨hrid, hcondition⟩ := hrows row List.mem_cons_self
    obtain ⟨t₁, hdelete, hc, hrec, hlength⟩ := h.deleteRecord_none hrid counter
    obtain ⟨t', hrun, hc', hrec', hlength'⟩ := ih hc hnodup.2 fun r hr => by
      have hne : r.1 ≠ row.1 := fun heq => hnodup.1 (heq ▸ List.mem_map_of_mem hr)
      rw [hrec, Function.update_of_ne hne]
      exact hrows r (List.mem_cons_of_mem _ hr)
    refine ⟨t', ?_, hc', fun rid => ?_, hlength'.trans hlength⟩
    · rw [Server.deleteRows, if_pos ⟨hrid, hcondition⟩, hdelete]
      exact hrun
    · rw [hrec', hrec, List.map_cons]
      by_cases hr : rid = row.1
      · subst hr
        rw [if_neg hnodup.1, if_pos List.mem_cons_self, Function.update_self]
      · rw [Function.update_of_ne hr]
        simp only [List.mem_cons, hr, false_or]

omit [DecidableEq V] in
theorem sound_ended (hc : t.Consistent) (hrows : HasRows t.record c.rows)
    {base : Option (RecordFile (RecordData V))} (hbase : Remembers t ⟨0, []⟩ base c.saved)
    (counter : BitVec 32) : Sound ⟨e.put 0 t counter ⟨some ⟨0, []⟩, false⟩, base⟩ c :=
  sound_put hc Server.onlyInserts_ended (fun _ hop => absurd rfl hop) hrows hbase t.log 0 counter
    false

variable [Inhabited V]

/-- A statement runs, keeps what holds between two statements, and an `INSERT` succeeds. -/
def Keeps (w : Watched V A) (c : SessionRows V) (statement : Statement V) : Prop :=
  ∃ rc e, w.server.execute 0 statement = some (rc, e) ∧
    (∀ data, statement = .insert data → rc = .success) ∧
    (w.next e statement).Sound (c.step statement)

/-- A row is added, and a commit record written outside of a transaction. -/
theorem execute_insert {data : RecordData V} {rid : RID}
    (h : e.table.insertRecord (some e.trx) data .success = some (.ok rid, t, some x)) :
    ∃ log id counter, e.execute 0 (.insert data) = some (.success,
      e.put 0 { t with log := log } counter
        ⟨some { x with trxId := id }, (e.sessions 0).multi⟩) := by
  have h : e.table.insertRecord (some ((e.sessions 0).currentTrx e.counter).1) data .success =
    some (.ok rid, t, some x) := h
  cases hmulti : (e.sessions 0).multi with
  | true =>
    refine ⟨t.log, x.trxId, ((e.sessions 0).currentTrx e.counter).2, ?_⟩
    simp [Server.execute, Server.doInsert, h, hmulti]
  | false =>
    refine ⟨t.log ++ [.mtrCommit x.trxId], ((e.sessions 0).currentTrx e.counter).2 + 1,
      ((e.sessions 0).currentTrx e.counter).2 + 1, ?_⟩
    simp [Server.execute, Server.doInsert, h, hmulti, Server.clogAppendRecord, Trx.nextCurrentId]

theorem Sound.insert (h : w.Sound c) {data : RecordData V} (hpossible : w.Possible (.insert data))
    (hallowed : w.Allowed (.insert data)) : w.Keeps c (.insert data) := by
  obtain ⟨hkeep, hord, hfresh⟩ := hallowed
  obtain ⟨rid, hrid⟩ := Option.ne_none_iff_exists'.mp hpossible
  have hop : w.server.trx.findOperation rid = none := hfresh rid hrid
  obtain ⟨records, hslot⟩ : ∃ records, w.server.table.records.insertRecord
      w.server.table.recordCapacity (w.server.trx.initTrxInfo data) = some (.ok rid, records) := by
    unfold Server.slotFor at hrid
    split at hrid
    · rename_i r records heq
      cases hrid
      exact ⟨records, heq⟩
    · cases hrid
  obtain ⟨t, x, hinsert, hc, hins, hnone, hrec, hlength⟩ :=
    h.consistent.insertRecord_of_slot hkeep hord hslot (by rw [hop]; simp)
  have hnew : t.record rid = some (w.server.trx.initTrxInfo data) := by
    rw [hrec, Function.update_self]
  obtain ⟨hslotNum, hin⟩ := RecordFile.inFile_of_record hnew
  obtain ⟨hx, -, hfind⟩ := h.inserts.insertRecord hslotNum hins
  obtain ⟨log, id, counter, hrun⟩ := execute_insert hinsert
  have hsound : Sound ⟨w.server.put 0 { t with log := log } counter
      ⟨some { x with trxId := id }, (w.server.sessions 0).multi⟩, w.base⟩
      (c.step (.insert data)) := by
    refine sound_put hc hx (fun r hr => ?_) ?_ ?_ log id counter _
    · rw [hfind] at hr
      by_cases heq : r = rid
      · exact heq ▸ hin
      · rw [if_neg heq] at hr
        obtain ⟨hpos, hlt⟩ := h.inFile r hr
        exact ⟨hpos, hlt.trans_le (Int.ofNat_le.mpr hlength)⟩
    · rw [hrec]
      exact h.rows.insert hnone (w.server.trx.initTrxInfo data)
    · refine h.remembers.mono fun r d hr hr' => ?_
      rw [hfind] at hr'
      have hne : r ≠ rid := by
        rintro rfl
        rw [if_pos rfl] at hr'
        cases hr'
      rw [hrec, Function.update_of_ne hne] at hr
      exact ⟨hr, by rwa [if_neg hne] at hr'⟩
  exact ⟨_, _, hrun, fun _ _ => rfl, hsound⟩

theorem Sound.delete (h : w.Sound c) {condition : V → Bool} {rows : List (RID × RecordData V)}
    (hpossible : w.Possible (.delete condition rows))
    (hallowed : w.Allowed (.delete condition rows)) : w.Keeps c (.delete condition rows) := by
  obtain ⟨hnodup, hrows⟩ := hpossible
  obtain ⟨t, hrun, hc, hrec, hlength⟩ :=
    deleteRows_spec condition w.server.counter rows h.consistent hnodup hrows
  have hgone : t.record = fun rid =>
      (w.server.table.record rid).filter fun data => !condition data.values := by
    funext rid
    rw [hrec]
    by_cases hmem : rid ∈ rows.map Prod.fst
    · obtain ⟨row, hrow, rfl⟩ := List.mem_map.mp hmem
      obtain ⟨hrid, hcondition⟩ := hrows row hrow
      simp [hrid, hcondition, Option.filter_some, hmem]
    · rw [if_neg hmem]
      cases hrid : w.server.table.record rid with
      | none => rfl
      | some data =>
        have hcondition : condition data.values = false := by
          refine Bool.eq_false_iff.mpr fun htrue => hmem ?_
          exact List.mem_map_of_mem (hallowed rid data hrid htrue)
        simp [hcondition, Option.filter_some]
  refine ⟨.success, { w.server with table := t }, ?_, by simp, ?_⟩
  · exact congrArg (Option.map _) hrun
  · refine ⟨hc, h.inserts, fun rid hop => ?_, ?_, ?_⟩
    · show 0 < rid.pageNum ∧ rid.pageNum < t.records.length
      rw [hlength]
      exact h.inFile rid hop
    · show HasRows t.record _
      rw [hgone]
      exact h.rows.delete condition
    · refine h.remembers.mono fun rid data hrid hop => ⟨?_, hop⟩
      have hrid : t.record rid = some data := hrid
      rw [hgone, Option.filter_eq_some_iff] at hrid
      exact hrid.1

theorem Sound.begin (h : w.Sound c) : w.Keeps c .begin := by
  have hbase : Remembers w.server.table w.server.trx (some w.baseRecords)
      (c.step .begin).saved := h.base
  exact ⟨_, _, rfl, by simp,
    sound_put (c := c.step .begin) h.consistent h.inserts h.inFile h.rows hbase _ _ _ _⟩

theorem Sound.commit (h : w.Sound c) : w.Keeps c .commit := by
  have hbase : Remembers w.server.table w.server.trx none (c.step .commit).saved := trivial
  exact ⟨_, _, rfl, by simp,
    sound_put (c := c.step .commit) h.consistent h.inserts h.inFile h.rows hbase _ _ _ _⟩

theorem Sound.rollback (h : w.Sound c) {order : List (RID × OperationType)}
    (hpossible : w.Possible (.rollback order)) (hallowed : w.Allowed (.rollback order)) :
    w.Keeps c (.rollback order) := by
  obtain ⟨hbase, hrest⟩ := h.base
  obtain ⟨rc, t, counter, hrun, hc, hrec⟩ := h.doRollback hpossible
  rw [rolledBack_eq h.inserts hallowed hrest] at hrec
  have hnone : Remembers t ⟨0, []⟩ none (c.step (.rollback order)).saved := trivial
  exact ⟨rc, _, hrun, by simp,
    sound_ended (c := c.step (.rollback order)) hc (hrec ▸ hbase) hnone counter⟩

theorem Sound.clogSync (h : w.Sound c) {order : List (RID × OperationType)}
    (hpossible : w.Possible (.clogSync order)) (hallowed : w.Allowed (.clogSync order)) :
    w.Keeps c (.clogSync order) := by
  obtain ⟨rc, t, counter, hrun, hc, hrec⟩ := h.doRollback hpossible
  rw [rolledBack_eq h.inserts hallowed fun rid data hrid _ => hrid] at hrec
  refine ⟨rc, _, hrun, by simp, ?_⟩
  refine sound_ended hc (hrec ▸ h.rows) (h.remembers.mono fun rid data hrid _ => ?_) counter
  rw [hrec] at hrid
  exact hallowed rid data hrid

/-- **One statement.** -/
theorem Sound.step (h : w.Sound c) {statement : Statement V} (hpossible : w.Possible statement)
    (hallowed : w.Allowed statement) : w.Keeps c statement := by
  cases statement with
  | insert data => exact h.insert hpossible hallowed
  | delete condition rows => exact h.delete hpossible hallowed
  | loadData rows order => exact hpossible.elim
  | begin => exact h.begin
  | commit => exact h.commit
  | rollback order => exact h.rollback hpossible hallowed
  | clogSync order => exact h.clogSync hpossible hallowed

omit [DecidableEq V] [Inhabited V] in
theorem sound_start (ht : t.Consistent) (hempty : t.record = fun _ => none) (counter : BitVec 32) :
    Sound ⟨.start t counter, none⟩ .empty where
  consistent := ht
  inserts := Server.onlyInserts_ended
  inFile := fun _ hop => absurd rfl hop
  rows := hempty ▸ hasRows_empty
  remembers := trivial

end Watched

/-! ## Runs -/

variable [Inhabited V] [DecidableEq V]

end Miniob.Sql
