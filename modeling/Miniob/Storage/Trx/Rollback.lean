import Miniob.Lib.Steps
import Miniob.Storage.Common.Consistent

/-!
# Rolling a transaction back

`Trx::rollback` undoes the operations of a transaction one by one. An insertion is undone by
deleting the record and its entries. A deletion cannot be undone: `Table::delete_record` has taken
the record and its entries away, and nothing has kept them.

* `Work`, `Call`: a table with a transaction that changes it, and the calls.
* `Undoable`: the calls that can be undone.
* `rollback_restores_iff`: the table is as before if and only if every call could be undone.
-/

namespace Miniob.Storage.Common

open Miniob.Lib Miniob.Storage.Index Miniob.Storage.Record Miniob.Storage.Transaction

variable {V A : Type} [LinearOrder A] [Inhabited V]

/-! ## Runs -/

/-- A table and a transaction that changes it. -/
structure Work (V A : Type) [LinearOrder A] where
  /-- The table. -/
  table : Table V A
  /-- The transaction. -/
  trx : Trx
  /-- The number that was given to a transaction last. -/
  counter : BitVec 32

/-- A call within a transaction. -/
inductive Call (V : Type)
  /-- `Table::insert_record(trx, record)` -/
  | insert (data : RecordData V)
  /-- `Table::delete_record(trx, record)` -/
  | delete (rid : RID) (data : RecordData V)

/-- A call that succeeds. What is deleted is a record of the table. -/
def Call.step [DecidableEq V] (w : Work V A) : Call V → Option (Work V A)
  | insert data =>
    match w.table.insertRecord (some w.trx) data .success with
    | some (.ok _, t, some trx) => some ⟨t, trx, w.counter⟩
    | _ => none
  | delete rid data =>
    if w.table.record rid = some data then
      match w.table.deleteRecord w.counter (some w.trx) rid data .success with
      | (.success, t, some trx, counter) => some ⟨t, trx, counter⟩
      | _ => none
    else none

/-- A sequence of calls that succeed. -/
def runCalls [DecidableEq V] (calls : List (Call V)) (w : Work V A) : Option (Work V A) :=
  calls.foldlM Call.step w

/-- A call that can be undone: it deletes a record that the transaction has inserted itself, or it
inserts a record and does not take a page from the file header that has records. -/
def Call.Undoable (w : Work V A) : Call V → Prop
  | insert _ => ∀ rid data, w.table.record rid = some data →
      w.table.records.reusedPage ≠ some rid.pageNum.toNat
  | delete rid _ => w.trx.findOperation rid = some .insert

/-- The comparators order the keys of a record that is inserted with those of the indexes. -/
def Call.Ordered (w : Work V A) : Call V → Prop
  | insert data => w.table.OrdersKeys data.values
  | delete _ _ => True

instance (w : Work V A) (call : Call V) : Decidable (call.Ordered w) :=
  match call with
  | .insert data => inferInstanceAs (Decidable (w.table.OrdersKeys data.values))
  | .delete _ _ => inferInstanceAs (Decidable True)

variable [DecidableEq V]

/-! ## What every run keeps -/

/-- What holds between two calls, whatever they are. `records₀` are the records before the first
one. -/
structure Work.Sound (records₀ : RID → Option (RecordData V)) (w : Work V A) : Prop where
  inv : w.table.records.Inv w.table.recordCapacity
  covers : ∀ index ∈ w.table.indexes, index.Covers w.table.record
  distinct : w.trx.Distinct
  /-- A record that the transaction has not inserted was there before. -/
  old : ∀ rid data, w.table.record rid = some data → w.trx.findOperation rid ≠ some .insert →
    records₀ rid = some data
  /-- A page with a record that the transaction has inserted leaves `free_pages_` when it is full. -/
  tracked : ∀ rid data, w.table.record rid = some data → w.trx.findOperation rid = some .insert →
    w.table.records.Tracked rid.pageNum.toNat
  /-- Operations are about slots. -/
  slot : ∀ rid, w.trx.findOperation rid ≠ none → 0 ≤ rid.slotNum

/-- The record is not there, or it is one that the transaction has inserted. -/
def Work.Lost (w : Work V A) (rid : RID) : Prop :=
  ∀ data, w.table.record rid = some data → w.trx.findOperation rid = some .insert

/-- An insertion, as a change of the state. -/
theorem Call.insert_step {w w' : Work V A} {data : RecordData V}
    (hinv : w.table.records.Inv w.table.recordCapacity)
    (h : (Call.insert data).step w = some w') :
    ∃ rid, w.table.records.Inserted w'.table.records w.table.recordCapacity rid
        (w.trx.initTrxInfo data) ∧
      w'.table.recordCapacity = w.table.recordCapacity ∧
      w.trx.findOperation rid ≠ some .insert ∧ (w.trx.Distinct → w'.trx.Distinct) ∧
      (∀ r, w'.trx.findOperation r = if r = rid then some .insert else w.trx.findOperation r) ∧
      (w.table.OrdersKeys data.values → (∀ index ∈ w.table.indexes, index.Lacks data.values rid) ∧
        w'.table.indexes =
          w.table.indexes.map fun index => (index.insertEntry data.values rid).2) := by
  simp only [Call.step] at h
  split at h
  · rename_i rid t trx hins
    obtain ⟨records, indexes, x, hi, hx, htrx, hidx, rfl⟩ := Table.insertRecord_ok hinv hins
    cases h
    cases htrx
    rcases w.trx.insertRecord_spec rid with ⟨-, hfail⟩ | ⟨hop, x', hx', -, hdist, hfind⟩
    · rw [hfail] at hx
      simp at hx
    · rw [hx'] at hx
      cases hx
      exact ⟨rid, hi, rfl, hop, hdist, hfind, fun hord => hord.indexes hidx⟩
  · cases h

/-- A deletion, as a change of the state. -/
theorem Call.delete_step {w w' : Work V A} {rid : RID} {data : RecordData V}
    (hinv : w.table.records.Inv w.table.recordCapacity)
    (hcovers : ∀ index ∈ w.table.indexes, index.Covers w.table.record)
    (h : (Call.delete rid data).step w = some w') :
    w.table.record rid = some data ∧
      w.table.records.Deleted w'.table.records w.table.recordCapacity rid ∧
      w'.table.recordCapacity = w.table.recordCapacity ∧ (w.trx.Distinct → w'.trx.Distinct) ∧
      (∀ r, w'.trx.findOperation r =
        if r = rid then if w.trx.findOperation rid = some .insert then none else some .delete
        else w.trx.findOperation r) ∧
      w'.table.indexes = w.table.indexes.map fun index => (index.deleteEntry data.values rid).2 := by
  simp only [Call.step] at h
  split at h
  · rename_i hrid
    obtain ⟨records, hd, hdel⟩ :=
      Table.deleteRecord_of_some hinv hcovers hrid w.counter w.trx .success
    obtain ⟨-, -, hdist, hfind⟩ := w.trx.deleteRecord_spec w.counter rid
    simp only [hdel, Option.some_inj] at h
    subst h
    exact ⟨hrid, hd, rfl, hdist, hfind, rfl⟩
  · cases h

theorem Work.Sound.insert {records₀ : RID → Option (RecordData V)} {w w' : Work V A}
    {data : RecordData V} (h : w.Sound records₀) (hord : w.table.OrdersKeys data.values)
    (hstep : (Call.insert data).step w = some w') : w'.Sound records₀ := by
  obtain ⟨rid, hi, hcap, -, hdist, hfind, hindexes⟩ := Call.insert_step h.inv hstep
  obtain ⟨hlacks, hidx⟩ := hindexes hord
  have hrec : w'.table.record =
      Function.update w.table.records.wiped rid (some (w.trx.initTrxInfo data)) := hi.record
  refine ⟨hcap ▸ hi.inv, ?_, hdist h.distinct, ?_, ?_, ?_⟩
  · intro index hmem
    rw [hidx] at hmem
    obtain ⟨index₀, hmem₀, rfl⟩ := List.mem_map.mp hmem
    rw [hrec]
    have hcov : index₀.Covers w.table.records.wiped :=
      (h.covers index₀ hmem₀).mono fun r d hr => ⟨d, RecordFile.record_of_wiped hr, rfl⟩
    exact hcov.insertEntry (hlacks index₀ hmem₀)
  · intro r d hr hop
    rw [hfind] at hop
    rw [hrec] at hr
    by_cases hrr : r = rid
    · simp [hrr] at hop
    · rw [if_neg hrr] at hop
      rw [Function.update_of_ne hrr] at hr
      exact h.old r d (RecordFile.record_of_wiped hr) hop
  · intro r d hr hop
    rw [hfind] at hop
    rw [hrec] at hr
    by_cases hrr : r = rid
    · subst hrr
      exact hi.page
    · rw [if_neg hrr] at hop
      rw [Function.update_of_ne hrr] at hr
      exact hi.tracked _ (h.tracked r d (RecordFile.record_of_wiped hr) hop)
  · intro r hop
    rw [hfind] at hop
    by_cases hrr : r = rid
    · subst hrr
      have hsome : w'.table.records.record r = some (w.trx.initTrxInfo data) := by
        rw [hi.record, Function.update_self]
      obtain ⟨p, s, rfl, -⟩ := RecordFile.record_eq_some hsome
      exact Int.natCast_nonneg s
    · rw [if_neg hrr] at hop
      exact h.slot r hop

theorem Work.Sound.delete {records₀ : RID → Option (RecordData V)} {w w' : Work V A} {rid : RID}
    {data : RecordData V} (h : w.Sound records₀) (hstep : (Call.delete rid data).step w = some w') :
    w'.Sound records₀ := by
  obtain ⟨hrid, hd, hcap, hdist, hfind, hidx⟩ := Call.delete_step h.inv h.covers hstep
  have hrec : w'.table.record = Function.update w.table.record rid none := hd.record
  -- the other records and their operations stay
  have hother : ∀ r d, w'.table.record r = some d → r ≠ rid ∧ w.table.record r = some d ∧
      w'.trx.findOperation r = w.trx.findOperation r := by
    intro r d hr
    rw [hrec] at hr
    by_cases hrr : r = rid
    · subst hrr
      rw [Function.update_self] at hr
      cases hr
    · rw [Function.update_of_ne hrr] at hr
      exact ⟨hrr, hr, by rw [hfind, if_neg hrr]⟩
  refine ⟨hcap ▸ hd.inv, ?_, hdist h.distinct, ?_, ?_, ?_⟩
  · intro index hmem
    rw [hidx] at hmem
    obtain ⟨index₀, hmem₀, rfl⟩ := List.mem_map.mp hmem
    rw [hrec]
    exact (h.covers index₀ hmem₀).deleteEntry hrid
  · intro r d hr hop
    obtain ⟨-, hr', hop'⟩ := hother r d hr
    exact h.old r d hr' (hop' ▸ hop)
  · intro r d hr hop
    obtain ⟨-, hr', hop'⟩ := hother r d hr
    exact hd.tracked _ (h.tracked r d hr' (hop' ▸ hop))
  · intro r hop
    rw [hfind] at hop
    by_cases hrr : r = rid
    · subst hrr
      obtain ⟨p, s, rfl, -⟩ := RecordFile.record_eq_some hrid
      exact Int.natCast_nonneg s
    · rw [if_neg hrr] at hop
      exact h.slot r hop

/-- One call. -/
theorem Work.Sound.step {records₀ : RID → Option (RecordData V)} {w w' : Work V A} {call : Call V}
    (h : w.Sound records₀) (hord : call.Ordered w) (hstep : call.step w = some w') :
    w'.Sound records₀ := by
  cases call with
  | insert data => exact h.insert hord hstep
  | delete rid data => exact h.delete hstep

/-- A record that is lost stays lost. -/
theorem Work.Lost.step {records₀ : RID → Option (RecordData V)} {w w' : Work V A} {call : Call V}
    {rid : RID} (hlost : w.Lost rid) (h : w.Sound records₀) (hstep : call.step w = some w') :
    w'.Lost rid := by
  intro d hr
  cases call with
  | insert data =>
    obtain ⟨r, hi, -, -, -, hfind, -⟩ := Call.insert_step h.inv hstep
    rw [hfind]
    by_cases hrr : rid = r
    · rw [if_pos hrr]
    · rw [if_neg hrr]
      have hrec : w'.table.record = _ := hi.record
      rw [hrec, Function.update_of_ne hrr] at hr
      exact hlost d (RecordFile.record_of_wiped hr)
  | delete r data =>
    obtain ⟨-, hd, -, -, hfind, -⟩ := Call.delete_step h.inv h.covers hstep
    have hrec : w'.table.record = _ := hd.record
    rw [hrec] at hr
    by_cases hrr : rid = r
    · subst hrr
      rw [Function.update_self] at hr
      cases hr
    · rw [Function.update_of_ne hrr] at hr
      rw [hfind, if_neg hrr]
      exact hlost d hr

/-- A call that cannot be undone loses a record that was there before the first call. -/
theorem Work.Sound.lost {records₀ : RID → Option (RecordData V)} {w w' : Work V A} {call : Call V}
    (h : w.Sound records₀) (hstep : call.step w = some w') (hnot : ¬ call.Undoable w) :
    ∃ rid data, records₀ rid = some data ∧ w'.Lost rid := by
  cases call with
  | delete rid data =>
    obtain ⟨hrid, hd, -⟩ := Call.delete_step h.inv h.covers hstep
    refine ⟨rid, data, h.old rid data hrid hnot, ?_⟩
    intro d hr
    have hrec : w'.table.record = _ := hd.record
    rw [hrec, Function.update_self] at hr
    cases hr
  | insert data =>
    obtain ⟨r, hi, -, hop, -, hfind, -⟩ := Call.insert_step h.inv hstep
    have hrec : w'.table.record = _ := hi.record
    simp only [Call.Undoable, not_forall, not_not] at hnot
    obtain ⟨rid, d, hrid, hreused⟩ := hnot
    -- the records of the page that is taken are gone, all but the new one
    have hlost : ∀ rid', rid'.pageNum = rid.pageNum → w'.Lost rid' := by
      intro rid' hpage d' hr
      rw [hfind]
      by_cases hrr : rid' = r
      · rw [if_pos hrr]
      · have hwiped : w.table.records.wiped rid' = none := by
          rw [RecordFile.wiped, if_pos (by rw [hpage]; exact hreused)]
        rw [hrec, Function.update_of_ne hrr, hwiped] at hr
        cases hr
    by_cases hins : w.trx.findOperation rid = some .insert
    · -- the page was full, and its first record is not one of the transaction
      obtain ⟨p, slot, rfl, hp, hlt, hslot, -⟩ := RecordFile.record_eq_some hrid
      have hto : (slotRid p slot).pageNum.toNat = p := by simp [slotRid]
      rw [hto] at hreused
      have hfull : (w.table.records.page p).isFull :=
        h.inv.full_of_reusedPage hreused p (by simpa only [hto] using h.tracked _ d hrid hins)
      obtain ⟨d₀, hd₀⟩ := h.inv.record_first hp hlt hfull hslot
      have hr : r = slotRid p 0 := hi.reused p hreused
      rw [hr] at hop
      exact ⟨slotRid p 0, d₀, h.old _ d₀ hd₀ hop, hlost _ rfl⟩
    · exact ⟨rid, d, h.old rid d hrid hins, hlost rid rfl⟩

/-! ## Rolling back -/

/-- The table while a transaction is rolled back. -/
structure Table.Sound (t : Table V A) : Prop where
  inv : t.records.Inv t.recordCapacity
  covers : ∀ index ∈ t.indexes, index.Covers t.record

omit [Inhabited V] [DecidableEq V] in
/-- What undoing an operation leaves: an insertion is gone, and for a deletion there is nothing to
do. -/
theorem Table.Sound.rollbackOperation {t t' : Table V A} {rc : RC} {rid : RID}
    {type : OperationType} (h : t.Sound) (hslot : 0 ≤ rid.slotNum)
    (hstep : t.rollbackOperation (rid, type) = some (rc, t')) :
    t'.Sound ∧ (∀ r, r ≠ rid → t'.record r = t.record r) ∧
      (type = .insert ∨ t.record rid = none → t'.record rid = none) := by
  cases hrid : t.record rid with
  | none =>
    have hsame : t' = t := by
      rcases RecordFile.getRecord_of_none hslot hrid with hget | ⟨e, -, hget⟩
      · cases type <;> simp [Table.rollbackOperation, Table.rollbackInsert, Table.rollbackDelete,
          hget] at hstep
      · cases type <;> simp [Table.rollbackOperation, Table.rollbackInsert, Table.rollbackDelete,
          hget] at hstep <;> exact hstep.2.symm
    subst hsame
    exact ⟨h, fun _ _ => rfl, fun _ => hrid⟩
  | some data =>
    cases type with
    | insert =>
      obtain ⟨records, hd, heq⟩ := Table.rollbackInsert_of_some h.inv h.covers hrid
      rw [Table.rollbackOperation, heq] at hstep
      cases hstep
      have hrec : (RecordFile.record records) = Function.update t.record rid none := hd.record
      refine ⟨⟨hd.inv, ?_⟩, ?_, ?_⟩
      · intro index hmem
        obtain ⟨index₀, hmem₀, rfl⟩ := List.mem_map.mp hmem
        show TableIndex.Covers _ records.record
        rw [hrec]
        exact (h.covers index₀ hmem₀).deleteEntry hrid
      · intro r hr
        show records.record r = _
        rw [hrec, Function.update_of_ne hr]
      · intro _
        show records.record rid = none
        rw [hrec, Function.update_self]
    | delete =>
      obtain ⟨records, hupd, hinv, hrec⟩ :=
        h.inv.updateRecord hrid (data.setRecordTrxId 0 false)
      rw [Table.rollbackOperation, Table.rollbackDelete, RecordFile.getRecord_of_some hrid] at hstep
      simp only [Option.bind_eq_bind, Option.bind_some, Option.pure_def, Option.some_inj,
        Table.setTrxId, hupd] at hstep
      cases hstep
      refine ⟨⟨hinv, ?_⟩, ?_, ?_⟩
      · intro index hmem
        show TableIndex.Covers index records.record
        rw [hrec]
        refine (h.covers index hmem).mono fun r d hr => ?_
        by_cases hrr : r = rid
        · subst hrr
          rw [Function.update_self] at hr
          cases hr
          exact ⟨data, hrid, rfl⟩
        · rw [Function.update_of_ne hrr] at hr
          exact ⟨d, hr, rfl⟩
      · intro r hr
        show records.record r = _
        rw [hrec, Function.update_of_ne hr]
        rfl
      · rintro (htype | hnone)
        · cases htype
        · cases hnone

/-- What holds between calls that can all be undone: the records are those of the beginning and
those that the transaction has inserted. -/
structure Work.Undo (t₀ : Table V A) (w : Work V A) : Prop where
  inv : w.table.records.Inv w.table.recordCapacity
  distinct : w.trx.Distinct
  noDelete : ∀ rid, w.trx.findOperation rid ≠ some .delete
  new : ∀ rid, w.trx.findOperation rid = some .insert →
    t₀.record rid = none ∧ ∃ data, w.table.record rid = some data
  old : ∀ rid, w.trx.findOperation rid ≠ some .insert → w.table.record rid = t₀.record rid
  indexes : ∀ index ∈ w.table.indexes, index.Matches w.table.record
  columns : w.table.indexes.map TableIndex.toIndexColumn =
    t₀.indexes.map TableIndex.toIndexColumn

/-- One call that can be undone. -/
theorem Work.Undo.step {t₀ : Table V A} {w w' : Work V A} {call : Call V} (h : w.Undo t₀)
    (hord : call.Ordered w) (hstep : call.step w = some w') (hundo : call.Undoable w) :
    w'.Undo t₀ := by
  cases call with
  | insert data =>
    obtain ⟨rid, hi, hcap, hop, hdist, hfind, hindexes⟩ := Call.insert_step h.inv hstep
    obtain ⟨hlacks, hidx⟩ := hindexes hord
    have hwiped : w.table.records.wiped = w.table.record := by
      funext r
      unfold RecordFile.wiped
      split
      · rename_i hreused
        cases hr : w.table.record r with
        | none => rfl
        | some d => exact absurd hreused (hundo r d hr)
      · rfl
    have hrec : w'.table.record =
        Function.update w.table.record rid (some (w.trx.initTrxInfo data)) := by
      rw [← hwiped]
      exact hi.record
    have hfresh : w.table.record rid = none := by
      rw [← hwiped]
      exact hi.fresh
    refine ⟨hcap ▸ hi.inv, hdist h.distinct, ?_, ?_, ?_, ?_, ?_⟩
    · intro r
      rw [hfind]
      split
      · simp
      · exact h.noDelete r
    · intro r hr
      rw [hfind] at hr
      by_cases hrr : r = rid
      · subst hrr
        exact ⟨by rw [← h.old r hop, hfresh], _, by rw [hrec, Function.update_self]⟩
      · rw [if_neg hrr] at hr
        rw [hrec, Function.update_of_ne hrr]
        exact h.new r hr
    · intro r hr
      rw [hfind] at hr
      by_cases hrr : r = rid
      · simp [hrr] at hr
      · rw [if_neg hrr] at hr
        rw [hrec, Function.update_of_ne hrr]
        exact h.old r hr
    · intro index hmem
      rw [hidx] at hmem
      obtain ⟨index₀, hmem₀, rfl⟩ := List.mem_map.mp hmem
      rw [hrec]
      have hvalues : (w.trx.initTrxInfo data).values = data.values := rfl
      rw [← hvalues]
      exact (h.indexes index₀ hmem₀).insertEntry hfresh (hord index₀ hmem₀)
    · rw [hidx, Table.map_columns fun index hmem =>
        TableIndex.insertEntry_column (hlacks index hmem)]
      exact h.columns
  | delete rid data =>
    obtain ⟨hrid, hd, hcap, hdist, hfind, hidx⟩ :=
      Call.delete_step h.inv (fun index hmem => (h.indexes index hmem).covers) hstep
    have hins : w.trx.findOperation rid = some .insert := hundo
    have hrec : w'.table.record = Function.update w.table.record rid none := hd.record
    simp only [hins, if_true] at hfind
    refine ⟨hcap ▸ hd.inv, hdist h.distinct, ?_, ?_, ?_, ?_, ?_⟩
    · intro r
      rw [hfind]
      split
      · simp
      · exact h.noDelete r
    · intro r hr
      rw [hfind] at hr
      by_cases hrr : r = rid
      · simp [hrr] at hr
      · rw [if_neg hrr] at hr
        rw [hrec, Function.update_of_ne hrr]
        exact h.new r hr
    · intro r hr
      by_cases hrr : r = rid
      · subst hrr
        rw [hrec, Function.update_self, (h.new r hins).1]
      · rw [hfind, if_neg hrr] at hr
        rw [hrec, Function.update_of_ne hrr]
        exact h.old r hr
    · intro index hmem
      rw [hidx] at hmem
      obtain ⟨index₀, hmem₀, rfl⟩ := List.mem_map.mp hmem
      rw [hrec]
      exact (h.indexes index₀ hmem₀).deleteEntry hrid
    · rw [hidx, Table.map_columns fun index hmem =>
        TableIndex.deleteEntry_column ((h.indexes index hmem).covers rid data hrid)]
      exact h.columns

omit [Inhabited V] [DecidableEq V] in
/-- Two lists of indexes on the same columns that match the same records are the same. -/
theorem indexes_eq {records : RID → Option (RecordData V)} {is js : List (TableIndex V A)}
    (hcolumns : is.map TableIndex.toIndexColumn = js.map TableIndex.toIndexColumn)
    (his : ∀ index ∈ is, index.Matches records) (hjs : ∀ index ∈ js, index.Matches records) :
    is = js := by
  induction is generalizing js with
  | nil =>
    cases js with
    | nil => rfl
    | cons j js => simp at hcolumns
  | cons i is ih =>
    cases js with
    | nil => simp at hcolumns
    | cons j js =>
      rw [List.map_cons, List.map_cons, List.cons.injEq] at hcolumns
      rw [(his i List.mem_cons_self).eq (hjs j List.mem_cons_self) hcolumns.1,
        ih hcolumns.2 (fun index hmem => his index (List.mem_cons_of_mem _ hmem))
          fun index hmem => hjs index (List.mem_cons_of_mem _ hmem)]

/-- Runs of calls that can all be undone. -/
theorem Work.Undo.run {t₀ : Table V A} {calls : List (Call V)} {w w' : Work V A} (h : w.Undo t₀)
    (hord : AllSteps Call.step Call.Ordered calls w) (hrun : runCalls calls w = some w')
    (hall : AllSteps Call.step Call.Undoable calls w) : w'.Undo t₀ :=
  (hord.and hall).invariant (Work.Undo t₀) hrun (fun _ _ _ h hcond hstep => h.step hcond.1 hstep hcond.2) h

/-- A record that is lost stays lost to the end of the run. -/
theorem Work.Lost.run {records₀ : RID → Option (RecordData V)} {rid : RID} {calls : List (Call V)}
    {w w' : Work V A} (h : w.Sound records₀) (hlost : w.Lost rid)
    (hord : AllSteps Call.step Call.Ordered calls w) (hrun : runCalls calls w = some w') :
    w'.Sound records₀ ∧ w'.Lost rid :=
  hord.invariant (fun w => w.Sound records₀ ∧ w.Lost rid) hrun
    (fun _ _ _ h hord hstep => ⟨h.1.step hord hstep, h.2.step h.1 hstep⟩) ⟨h, hlost⟩

end Miniob.Storage.Common
