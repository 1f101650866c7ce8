import Miniob.Storage.Common.CachedTable

/-!
# Commits that an eviction loses

Transactions insert and delete records of a table and end, while the pages of the table are loaded,
flushed and evicted at any time between the calls. `Trx::commit` and `Trx::rollback` go through the
operations of a transaction one by one, and pages can be evicted between two of them.

* `Clients`, `ClientOp`: a table over page frames with the transactions that change it, and the
  steps.
* `Books`: the records that each transaction has written, and those that a commit or a rollback has
  settled.
* `ClientOp.Keeps`: a page is evicted only while its frame is dirty or holds what is on disk; an
  insertion does not take a page that has records; and the slot of an operation that ends still has
  its record.
* `settled_record_reads_back`: in a run of such steps every settled record reads back as committed.
* `ending_is_endOperations`: without evictions in between, the steps of an ending are
  `Trx::commit` and `Trx::rollback`.
-/

namespace Miniob.Storage.Common

open Miniob.Lib Miniob.Storage.Index Miniob.Storage.Record Miniob.Storage.Transaction

variable {V A : Type} [LinearOrder A]

/-! ## Steps -/

/-- The way a transaction ends. -/
inductive Ending
  /-- `Trx::commit` -/
  | commit
  /-- `Trx::rollback` -/
  | rollback
  deriving DecidableEq, Repr

/-- A table and the transactions that change it. -/
structure Clients (V A : Type) [LinearOrder A] where
  /-- The table. -/
  cached : CachedTable V A
  /-- The transactions. -/
  trx : ℕ → Trx
  /-- The operations that are left of a transaction that ends, in the order of the hash set. -/
  ending : ℕ → Option (Ending × List (RID × OperationType))
  /-- The number that was given to a transaction last. -/
  counter : BitVec 32

/-- A step. -/
inductive ClientOp (V : Type)
  /-- `Table::insert_record(trx, record)`. The log returns the code. -/
  | insert (i : ℕ) (data : RecordData V) (logRc : RC)
  /-- `Table::delete_record(trx, record)` -/
  | delete (i : ℕ) (rid : RID) (data : RecordData V) (logRc : RC)
  /-- `Trx::commit` or `Trx::rollback` starts. -/
  | startEnding (i : ℕ) (ending : Ending) (order : List (RID × OperationType))
  /-- The next operation of a transaction that ends. After the last one the transaction is new. -/
  | endOperation (i : ℕ)
  /-- A page is read into a frame. -/
  | load (p : ℕ)
  /-- A page is written to disk. -/
  | flush (p : ℕ)
  /-- The frame of a page is given to another page. -/
  | evict (p : ℕ)

variable [Inhabited V]

/-- What an ending does to an operation.
Source: `trx.cpp`, `Trx::commit`, `Trx::rollback` -/
def Ending.cachedOperation : Ending → CachedTable V A → RID × OperationType →
    Option (RC × CachedTable V A)
  | .commit => CachedTable.commitOperation
  | .rollback => CachedTable.rollbackOperation

/-- One step. A transaction makes no calls while it ends, and what it deletes is a record of the
table. -/
def Clients.step [DecidableEq V] (σ : Clients V A) : ClientOp V → Option (Clients V A)
  | .insert i data logRc =>
    if σ.ending i = none then
      (σ.cached.insertRecord (σ.trx i) data logRc).map fun (_, cached, trx) =>
        { σ with cached := cached, trx := Function.update σ.trx i (trx.getD (σ.trx i)) }
    else none
  | .delete i rid data logRc =>
    if σ.ending i = none ∧ σ.cached.view.record rid = some data then
      let (_, cached, trx, counter) := σ.cached.deleteRecord σ.counter (σ.trx i) rid data logRc
      some { σ with
        cached := cached
        trx := Function.update σ.trx i (trx.getD (σ.trx i))
        counter := counter }
    else none
  | .startEnding i ending order =>
    if σ.ending i = none ∧ order.isPerm (σ.trx i).operations then
      some { σ with ending := Function.update σ.ending i (some (ending, order)) }
    else none
  | .endOperation i =>
    match σ.ending i with
    | none => none
    | some (_, []) => some { σ with
        trx := Function.update σ.trx i ⟨0, []⟩
        ending := Function.update σ.ending i none }
    | some (ending, op :: ops) =>
      (ending.cachedOperation σ.cached op).map fun (_, cached) =>
        { σ with cached := cached, ending := Function.update σ.ending i (some (ending, ops)) }
  | .load p => some { σ with cached := σ.cached.getThisPage p }
  | .flush p => some { σ with cached := σ.cached.flushPage p }
  | .evict p => some { σ with cached := σ.cached.evict p }

/-- Transactions that have done nothing yet. -/
def Clients.start (c : CachedTable V A) (ids : ℕ → BitVec 32) (counter : BitVec 32) :
    Clients V A where
  cached := c
  trx := fun i => ⟨ids i, []⟩
  ending := fun _ => none
  counter := counter

/-! ## Books -/

/-- What a run has done to the records. -/
structure Books (V : Type) where
  /-- The values of the record that a transaction has inserted or deleted last at a place. -/
  written : ℕ → RID → Option V
  /-- The records whose insertion has been committed or whose deletion has been rolled back, and
  that nobody has deleted since. -/
  settled : RID → Option V

/-- Nothing has been done. -/
def Books.empty : Books V := ⟨fun _ _ => none, fun _ => none⟩

/-- Write down the record of a transaction. -/
def Books.write (books : Books V) (i : ℕ) (rid : RID) (values : Option V) : Books V :=
  { books with
    written := Function.update books.written i (Function.update (books.written i) rid values) }

/-- The operation ends with its record in the table: its insertion is committed or its deletion is
rolled back. -/
def Ending.Settles (ending : Ending) (type : OperationType) : Bool :=
  match ending, type with
  | .commit, .insert | .rollback, .delete => true
  | _, _ => false

/-- The books after a step from `σ` to `σ'`. -/
def ClientOp.note (books : Books V) (σ σ' : Clients V A) : ClientOp V → Books V
  | insert i data _ =>
    match σ.cached.view.records.insertRecord σ.cached.view.recordCapacity
      ((σ.trx i).initTrxInfo data) with
    | some (.ok rid, _) =>
      books.write i rid ((σ'.cached.view.record rid).map RecordData.values)
    | _ => books
  | delete i rid data _ =>
    if σ'.cached.view.record rid = none then
      { books.write i rid (some data.values) with
        settled := Function.update books.settled rid none }
    else books
  | endOperation i =>
    match σ.ending i with
    | some (ending, (rid, type) :: _) =>
      match ending.Settles type, books.written i rid with
      | true, some values =>
        { books with settled := Function.update books.settled rid (some values) }
      | _, _ => books
    | _ => books
  | startEnding _ _ _ | load _ | flush _ | evict _ => books

/-- A run. -/
def runClients [DecidableEq V] :
    List (ClientOp V) → Clients V A × Books V → Option (Clients V A × Books V)
  | [], s => some s
  | op :: ops, (σ, books) =>
    (σ.step op).bind fun σ' => runClients ops (σ', op.note books σ σ')

/-! ## When the records are kept -/

/-- **What the step must not do**: evict a page whose frame is not dirty and differs from what is on
disk; take a page that has records for an insertion; settle an operation whose slot does not have
its record any more; or delete a settled record when an operation ends. -/
def ClientOp.Keeps (books : Books V) (σ : Clients V A) : ClientOp V → Prop
  | evict p => σ.cached.cache.Kept p
  | insert _ _ _ => σ.cached.view.KeepsRecords
  | endOperation i => ∀ ending rid type ops, σ.ending i = some (ending, (rid, type) :: ops) →
      if ending.Settles type then ∀ values, books.written i rid = some values →
        ∃ data, σ.cached.view.record rid = some data ∧ data.values = values
      else books.settled rid = none
  | delete _ _ _ _ | startEnding _ _ _ | load _ | flush _ => True

/-- Every step of the run keeps the records. -/
def AllKeep [DecidableEq V] : List (ClientOp V) → Clients V A → Books V → Prop
  | [], _, _ => True
  | op :: ops, σ, books =>
    op.Keeps books σ ∧ ∀ σ', σ.step op = some σ' → AllKeep ops σ' (op.note books σ σ')

/-- **The record reads back as committed**: with the transaction number 0 and without the deleted
flag, so that every transaction sees it. -/
def CachedTable.ReadsBack (c : CachedTable V A) (rid : RID) (values : V) : Prop :=
  ∃ data, (c.getThisPage rid.pageNum.toNat).view.record rid = some data ∧ data.values = values ∧
    data.getRecordTrxId = (0, false) ∧ ∀ trx : Trx, trx.isVisible data = true

omit [Inhabited V] in
theorem CachedTable.readsBack_of_record {c : CachedTable V A} {rid : RID} {values : V}
    (h : c.view.record rid = some ⟨0, values⟩) : c.ReadsBack rid values := by
  have hget : (⟨0, values⟩ : RecordData V).getRecordTrxId = (0, false) := by
    simp [RecordData.getRecordTrxId]
  refine ⟨⟨0, values⟩, ?_, rfl, hget, ?_⟩
  · rw [CachedTable.view_getThisPage, h]
  · intro trx
    simp only [Trx.isVisible, hget, true_or, if_true, Bool.not_false]

/-- What holds between two steps. -/
structure Clients.Sound (σ : Clients V A) (books : Books V) : Prop where
  inv : σ.cached.view.records.Inv σ.cached.view.recordCapacity
  /-- Operations are about slots. -/
  slots : ∀ i, ∀ op ∈ (σ.trx i).operations, 0 ≤ op.1.slotNum
  left : ∀ i ending ops, σ.ending i = some (ending, ops) → ∀ op ∈ ops, 0 ≤ op.1.slotNum
  settled : ∀ rid values, books.settled rid = some values →
    σ.cached.view.record rid = some ⟨0, values⟩

/-! ## What a call keeps -/

section calls

variable {t t' : Table V A} {rid : RID}

omit [Inhabited V] in
/-- A deletion leaves the other records. -/
theorem record_deleted (hinv : t.records.Inv t.recordCapacity) (hslot : 0 ≤ rid.slotNum)
    (hcap : t'.recordCapacity = t.recordCapacity)
    (h : t'.records = t.records ∨ t'.records = (t.records.deleteRecord rid).2) :
    t'.records.Inv t'.recordCapacity ∧ ∀ r, r ≠ rid → t'.record r = t.record r := by
  rw [hcap]
  rcases h with heq | heq
  · exact ⟨heq ▸ hinv, fun r _ => by rw [Table.record, heq, Table.record]⟩
  · cases hrid : t.records.record rid with
    | none =>
      obtain ⟨rc, hdel, -⟩ := RecordFile.deleteRecord_of_none hslot hrid
      rw [hdel] at heq
      exact ⟨heq ▸ hinv, fun r _ => by rw [Table.record, heq, Table.record]⟩
    | some data =>
      obtain ⟨file, hdel, hd⟩ := hinv.deleteRecord hrid
      rw [hdel] at heq
      refine ⟨heq ▸ hd.inv, fun r hr => ?_⟩
      rw [Table.record, heq, hd.record, Function.update_of_ne hr, Table.record]

/-- An insertion that takes no page with records leaves the records that are there. -/
theorem record_inserted (hinv : t.records.Inv t.recordCapacity) (hkeep : t.KeepsRecords)
    {trx : Trx} {trx' : Option Trx} {data : RecordData V} {logRc : RC} {r : Except RC RID}
    (h : t.insertRecord (some trx) data logRc = some (r, t', trx')) :
    t'.records.Inv t'.recordCapacity ∧
      (∀ r d, t.record r = some d → t'.record r = some d) ∧
      ∃ x, trx' = some x ∧ ∀ op ∈ x.operations, op ∈ trx.operations ∨ 0 ≤ op.1.slotNum := by
  have hwiped := hkeep.wiped_eq
  obtain ⟨hcap, ⟨rc, file, hins, heq, hx⟩ | ⟨rid, file, hins, hx, heq⟩⟩ :=
    CachedTable.insertRecord_records h
  · rcases hinv.insertRecord (trx.initTrxInfo data) with
      ⟨rid, file₁, heq₁, -⟩ | ⟨rc₁, file₁, heq₁, hc⟩
    · rw [heq₁] at hins
      cases hins
    · rw [heq₁] at hins
      cases hins
      refine ⟨?_, ?_, trx, hx, fun op hop => Or.inl hop⟩
      · rw [hcap, heq]
        exact hc.inv
      · intro r d hr
        rw [Table.record, heq, hc.record, hwiped, hr]
  · rcases hinv.insertRecord (trx.initTrxInfo data) with
      ⟨rid₁, file₁, heq₁, hi⟩ | ⟨rc₁, file₁, heq₁, -⟩
    · rw [heq₁] at hins
      cases hins
      have hsome : file.record rid = some (trx.initTrxInfo data) := by
        rw [hi.record, Function.update_self]
      obtain ⟨p, slot, hrid, -⟩ := RecordFile.record_eq_some hsome
      have hold : ∀ r d, t.record r = some d → r ≠ rid ∧ file.record r = some d := by
        intro r d hr
        rw [← hwiped] at hr
        have hne : r ≠ rid := by
          rintro rfl
          rw [hi.fresh] at hr
          cases hr
        exact ⟨hne, by rw [hi.record, Function.update_of_ne hne, hr]⟩
      obtain ⟨file', hdel, hd⟩ := hi.inv.deleteRecord hsome
      rw [hdel] at heq
      refine ⟨?_, ?_, _, hx, ?_⟩
      · rw [hcap]
        rcases heq with heq | heq
        · exact heq ▸ hi.inv
        · exact heq ▸ hd.inv
      · intro r d hr
        obtain ⟨hne, hr'⟩ := hold r d hr
        rcases heq with heq | heq
        · rw [Table.record, heq, hr']
        · rw [Table.record, heq, hd.record, Function.update_of_ne hne, hr']
      · intro op hop
        rcases Trx.mem_insertRecord hop with hop | hop
        · exact Or.inl hop
        · rw [hop, hrid]
          exact Or.inr (Int.natCast_nonneg slot)
    · rw [heq₁] at hins
      cases hins

omit [Inhabited V] in
/-- Clearing the transaction field of a record leaves its values and the other records. -/
theorem record_committed (hinv : t.records.Inv t.recordCapacity) {rc : RC}
    (h : t.commitInsert rid = some (rc, t')) (hslot : 0 ≤ rid.slotNum) :
    t'.records.Inv t'.recordCapacity ∧ (∀ r, r ≠ rid → t'.record r = t.record r) ∧
      t'.record rid = (t.record rid).map fun data => data.setRecordTrxId 0 false := by
  obtain ⟨hcap, ⟨rc', hget, heq⟩ | ⟨data, hget, heq⟩⟩ := CachedTable.commitInsert_records h
  · cases hrid : t.record rid with
    | none =>
      refine ⟨?_, fun r _ => ?_, ?_⟩
      · rw [hcap, heq]
        exact hinv
      · rw [Table.record, heq, Table.record]
      · rw [Table.record, heq]
        exact hrid
    | some data =>
      rw [RecordFile.getRecord_of_some hrid] at hget
      cases hget
  · cases hrid : t.record rid with
    | none =>
      rcases RecordFile.getRecord_of_none hslot hrid with hnone | ⟨rc', -, herr⟩
      · rw [hnone] at hget
        cases hget
      · rw [herr] at hget
        cases hget
    | some data' =>
      rw [RecordFile.getRecord_of_some hrid] at hget
      cases hget
      obtain ⟨file, hupd, hinv', hrec⟩ := hinv.updateRecord hrid (data.setRecordTrxId 0 false)
      rw [hupd] at heq
      refine ⟨?_, fun r hr => ?_, ?_⟩
      · rw [hcap, heq]
        exact hinv'
      · rw [Table.record, heq, hrec, Function.update_of_ne hr, Table.record]
      · rw [Table.record, heq, hrec, Function.update_self]
        rfl

end calls

/-! ## Endings -/

/-- What an ending does to an operation on the table that clients see.
Source: `trx.cpp`, `Trx::commit`, `Trx::rollback` -/
def Ending.operation : Ending → Table V A → RID × OperationType → Option (RC × Table V A)
  | .commit => Table.commitOperation
  | .rollback => Table.rollbackOperation

/-- To its clients, a write of the transaction field is that of the table that they see. -/
theorem view_writeTrxId {c c' : CachedTable V A} {rid : RID} {rc : RC}
    (h : c.writeTrxId Table.commitInsert rid = some (rc, c')) :
    c.view.commitInsert rid = some (rc, c'.view) := by
  obtain ⟨⟨rc₁, t⟩, hstep, heq⟩ := Option.map_eq_some_iff.mp h
  cases heq
  obtain ⟨-, hrecords⟩ := CachedTable.commitInsert_records hstep
  rw [hstep]
  rcases hrecords with ⟨_, -, heq⟩ | ⟨data, -, heq⟩
  · have hsame : t.records = c.view.records ∨
        t.records = (c.view.records.updateRecord rid default).2 := Or.inl heq
    rw [CachedTable.view_modify hsame]
  · rw [CachedTable.view_modify (Or.inr heq)]

/-- To its clients, an ending does to an operation what it does on the table that they see. -/
theorem Ending.view_cachedOperation {ending : Ending} {c c' : CachedTable V A}
    {op : RID × OperationType} {rc : RC} (h : ending.cachedOperation c op = some (rc, c')) :
    ending.operation c.view op = some (rc, c'.view) := by
  obtain ⟨rid, type⟩ := op
  cases ending with
  | commit =>
    cases type with
    | insert => exact view_writeTrxId h
    | delete =>
      obtain ⟨⟨rc₁, t⟩, hstep, heq⟩ := Option.map_eq_some_iff.mp h
      cases heq
      rw [CachedTable.view_deleted (CachedTable.commitDelete_records hstep).2]
      exact hstep
  | rollback =>
    cases type with
    | insert =>
      obtain ⟨⟨rc₁, t⟩, hstep, heq⟩ := Option.map_eq_some_iff.mp h
      cases heq
      rw [CachedTable.view_deleted (CachedTable.rollbackInsert_records hstep).2]
      exact hstep
    | delete => exact view_writeTrxId h

omit [Inhabited V] in
/-- The end of an operation changes its record only. If it settles the record, the transaction field
is cleared. -/
theorem Ending.operation_record {ending : Ending} {t t' : Table V A} {rid : RID}
    {type : OperationType} {rc : RC} (hinv : t.records.Inv t.recordCapacity)
    (hslot : 0 ≤ rid.slotNum) (h : ending.operation t (rid, type) = some (rc, t')) :
    t'.records.Inv t'.recordCapacity ∧ (∀ r, r ≠ rid → t'.record r = t.record r) ∧
      (ending.Settles type = true →
        t'.record rid = (t.record rid).map fun data => data.setRecordTrxId 0 false) := by
  cases ending with
  | commit =>
    cases type with
    | insert =>
      obtain ⟨hinv', hother, hrid⟩ := record_committed hinv h hslot
      exact ⟨hinv', hother, fun _ => hrid⟩
    | delete =>
      obtain ⟨hcap, hrecords⟩ := CachedTable.commitDelete_records h
      obtain ⟨hinv', hother⟩ := record_deleted hinv hslot hcap hrecords
      exact ⟨hinv', hother, fun hsettles => by cases hsettles⟩
  | rollback =>
    cases type with
    | insert =>
      obtain ⟨hcap, hrecords⟩ := CachedTable.rollbackInsert_records h
      obtain ⟨hinv', hother⟩ := record_deleted hinv hslot hcap hrecords
      exact ⟨hinv', hother, fun hsettles => by cases hsettles⟩
    | delete =>
      obtain ⟨hinv', hother, hrid⟩ := record_committed hinv h hslot
      exact ⟨hinv', hother, fun _ => hrid⟩

/-! ## Steps and runs -/

section steps

variable {σ σ' : Clients V A} {books : Books V}

omit [Inhabited V] in
/-- A step that leaves what clients see and the transactions. -/
theorem Clients.Sound.of_view (h : σ.Sound books) {cached : CachedTable V A}
    (hview : cached.view = σ.cached.view) : Clients.Sound { σ with cached := cached } books := by
  refine ⟨?_, h.slots, h.left, ?_⟩
  · rw [hview]
    exact h.inv
  · rw [hview]
    exact h.settled

/-- A transaction gets another operation on a slot. -/
theorem slots_update {trx : ℕ → Trx} (h : ∀ i, ∀ op ∈ (trx i).operations, 0 ≤ op.1.slotNum) {i : ℕ}
    {x : Trx} (hx : ∀ op ∈ x.operations, op ∈ (trx i).operations ∨ 0 ≤ op.1.slotNum) :
    ∀ j, ∀ op ∈ (Function.update trx i x j).operations, 0 ≤ op.1.slotNum := by
  intro j op hop
  by_cases hj : j = i
  · subst hj
    rw [Function.update_self] at hop
    rcases hx op hop with hop | hop
    · exact h j op hop
    · exact hop
  · rw [Function.update_of_ne hj] at hop
    exact h j op hop

/-- A transaction starts to end, or goes on with it. -/
theorem left_update {left : ℕ → Option (Ending × List (RID × OperationType))}
    (h : ∀ i ending ops, left i = some (ending, ops) → ∀ op ∈ ops, 0 ≤ op.1.slotNum) {i : ℕ}
    {next : Option (Ending × List (RID × OperationType))}
    (hnext : ∀ ending ops, next = some (ending, ops) → ∀ op ∈ ops, 0 ≤ op.1.slotNum) :
    ∀ j ending ops, Function.update left i next j = some (ending, ops) →
      ∀ op ∈ ops, 0 ≤ op.1.slotNum := by
  intro j ending ops hj
  by_cases hji : j = i
  · subst hji
    rw [Function.update_self] at hj
    exact hnext ending ops hj
  · rw [Function.update_of_ne hji] at hj
    exact h j ending ops hj

theorem note_insert_settled {i : ℕ} {data : RecordData V} {logRc : RC} :
    ((ClientOp.insert i data logRc).note books σ σ').settled = books.settled := by
  simp only [ClientOp.note]
  split <;> rfl

variable [DecidableEq V]

theorem Clients.Sound.insert (h : σ.Sound books) {i : ℕ} {data : RecordData V} {logRc : RC}
    (hkeep : (ClientOp.insert i data logRc).Keeps books σ)
    (hstep : σ.step (.insert i data logRc) = some σ') :
    σ'.Sound ((ClientOp.insert i data logRc).note books σ σ') := by
  simp only [Clients.step] at hstep
  split_ifs at hstep
  obtain ⟨⟨r, cached, trx⟩, hins, rfl⟩ := Option.map_eq_some_iff.mp hstep
  obtain ⟨⟨r₁, t, trx₁⟩, hins, heq⟩ := Option.map_eq_some_iff.mp hins
  cases heq
  obtain ⟨hinv, hold, x, rfl, hops⟩ := record_inserted h.inv hkeep hins
  have hview := CachedTable.view_inserted hins
  refine ⟨?_, slots_update h.slots hops, h.left, ?_⟩
  · dsimp only
    rw [hview]
    exact hinv
  · intro rid values hrid
    rw [note_insert_settled] at hrid
    dsimp only
    rw [hview]
    exact hold _ _ (h.settled rid values hrid)

theorem Clients.Sound.delete (h : σ.Sound books) {i : ℕ} {rid : RID} {data : RecordData V}
    {logRc : RC} (hstep : σ.step (.delete i rid data logRc) = some σ') :
    σ'.Sound ((ClientOp.delete i rid data logRc).note books σ σ') := by
  simp only [Clients.step] at hstep
  split_ifs at hstep with hrid
  obtain ⟨p, slot, hslot, -⟩ := RecordFile.record_eq_some hrid.2
  have hnat : 0 ≤ rid.slotNum := hslot ▸ Int.natCast_nonneg slot
  unfold CachedTable.deleteRecord at hstep
  generalize hdel : σ.cached.view.deleteRecord σ.counter (some (σ.trx i)) rid data logRc = result
    at hstep
  obtain ⟨rc, t, trx, counter⟩ := result
  cases hstep
  obtain ⟨hcap, hrecords, htrx⟩ := CachedTable.deleteRecord_records _ _ _ _ _ _ hdel
  obtain ⟨hinv, hother⟩ := record_deleted h.inv hnat hcap hrecords
  have hview : (σ.cached.deleted rid t).view = t := CachedTable.view_deleted hrecords
  refine ⟨?_, slots_update h.slots ?_, h.left, ?_⟩
  · dsimp only
    rw [hview]
    exact hinv
  · intro op hop
    rcases htrx with rfl | rfl
    · exact Or.inl hop
    · rcases Trx.mem_deleteRecord hop with hop | hop
      · exact Or.inl hop
      · rw [hop]
        exact Or.inr hnat
  · intro r values hr
    simp only [ClientOp.note, hview] at hr ⊢
    by_cases hrr : r = rid
    · subst hrr
      split_ifs at hr with hnone
      · simp at hr
      · have hsame : t.record r = σ.cached.view.record r := by
          rcases hrecords with heq | heq
          · rw [Table.record, heq, Table.record]
          · obtain ⟨file, hfile, hd⟩ := h.inv.deleteRecord hrid.2
            rw [hfile] at heq
            refine absurd ?_ hnone
            rw [Table.record, heq, hd.record, Function.update_self]
        rw [hsame]
        exact h.settled r values hr
    · rw [hother r hrr]
      refine h.settled r values ?_
      split_ifs at hr
      · simpa only [Function.update_of_ne hrr] using hr
      · exact hr

theorem Clients.Sound.startEnding (h : σ.Sound books) {i : ℕ} {ending : Ending}
    {order : List (RID × OperationType)}
    (hstep : σ.step (.startEnding i ending order) = some σ') : σ'.Sound books := by
  simp only [Clients.step] at hstep
  split_ifs at hstep with horder
  cases hstep
  refine ⟨h.inv, h.slots, left_update h.left ?_, h.settled⟩
  intro e ops heq op hop
  cases heq
  exact h.slots i op ((List.isPerm_iff.mp horder.2).mem_iff.mp hop)

theorem Clients.Sound.endOperation (h : σ.Sound books) {i : ℕ}
    (hkeep : (ClientOp.endOperation i : ClientOp V).Keeps books σ)
    (hstep : σ.step (.endOperation i) = some σ') :
    σ'.Sound ((ClientOp.endOperation i).note books σ σ') := by
  simp only [Clients.step] at hstep
  split at hstep
  · cases hstep
  · -- the transaction is new
    rename_i ending hending
    cases hstep
    have hnote : (ClientOp.endOperation i : ClientOp V).note books σ { σ with
        trx := Function.update σ.trx i ⟨0, []⟩
        ending := Function.update σ.ending i none } = books := by
      simp [ClientOp.note, hending]
    rw [hnote]
    exact ⟨h.inv, slots_update h.slots (by simp), left_update h.left (by simp), h.settled⟩
  · rename_i ending op ops hending
    obtain ⟨rid, type⟩ := op
    obtain ⟨⟨rc, cached⟩, hop, rfl⟩ := Option.map_eq_some_iff.mp hstep
    have hslot : 0 ≤ rid.slotNum := h.left i _ _ hending _ List.mem_cons_self
    obtain ⟨hinv, hother, hrid⟩ :=
      Ending.operation_record h.inv hslot (Ending.view_cachedOperation hop)
    have hkeep' := hkeep ending rid type ops hending
    refine ⟨hinv, h.slots, left_update h.left ?_, ?_⟩
    · intro e ops' heq
      cases heq
      exact fun op hmem => h.left i _ _ hending op (List.mem_cons_of_mem _ hmem)
    · intro r values hr
      simp only [ClientOp.note, hending] at hr
      by_cases hrr : r = rid
      · subst hrr
        cases hsettles : ending.Settles type with
        | false =>
          -- a settled record would be deleted
          rw [hsettles, if_neg Bool.false_ne_true] at hkeep'
          rw [hsettles] at hr
          exact absurd (hkeep'.symm.trans hr) (by simp)
        | true =>
          rw [hsettles, if_pos rfl] at hkeep'
          rw [hsettles] at hr
          dsimp only
          rw [hrid hsettles]
          cases hwritten : books.written i r with
          | none =>
            rw [hwritten] at hr
            rw [h.settled r values hr]
            rfl
          | some v =>
            simp only [hwritten, Function.update_self] at hr
            cases hr
            obtain ⟨data, hdata, rfl⟩ := hkeep' values hwritten
            rw [hdata]
            rfl
      · dsimp only
        rw [hother r hrr]
        refine h.settled r values ?_
        split at hr
        · simpa only [Function.update_of_ne hrr] using hr
        · exact hr

/-- One step. -/
theorem Clients.Sound.step (h : σ.Sound books) {op : ClientOp V} (hkeep : op.Keeps books σ)
    (hstep : σ.step op = some σ') : σ'.Sound (op.note books σ σ') := by
  cases op with
  | insert i data logRc => exact h.insert hkeep hstep
  | delete i rid data logRc => exact h.delete hstep
  | startEnding i ending order => exact h.startEnding hstep
  | endOperation i => exact h.endOperation hkeep hstep
  | load p =>
    cases hstep
    exact h.of_view CachedTable.view_getThisPage
  | flush p =>
    cases hstep
    exact h.of_view CachedTable.view_flushPage
  | evict p =>
    cases hstep
    exact h.of_view (CachedTable.view_evict hkeep)

/-- A run. -/
theorem Clients.Sound.run (ops : List (ClientOp V)) :
    ∀ {σ σ' : Clients V A} {books books' : Books V}, σ.Sound books → AllKeep ops σ books →
      runClients ops (σ, books) = some (σ', books') → σ'.Sound books' := by
  induction ops with
  | nil =>
    intro σ σ' books books' h _ hrun
    cases hrun
    exact h
  | cons op ops ih =>
    intro σ σ' books books' h hkeep hrun
    obtain ⟨σ₁, hstep, hrest⟩ := Option.bind_eq_some_iff.mp hrun
    exact ih (h.step hkeep.1 hstep) (hkeep.2 σ₁ hstep) hrest

/-- Without other steps in between, the steps of an ending are `Trx::commit` or `Trx::rollback` on
the table that clients see. By induction on the operations that are left. -/
theorem ending_is_endOperations {i : ℕ} {ending : Ending} (order : List (RID × OperationType)) :
    ∀ {σ σ' : Clients V A} (rc : RC), σ.ending i = some (ending, order) →
      (List.replicate (order.length + 1) (ClientOp.endOperation i)).foldlM Clients.step σ =
        some σ' → ∃ rc', Table.endOperations ending.operation (rc, σ.cached.view) order =
          some (rc', σ'.cached.view) ∧ σ'.trx i = ⟨0, []⟩ := by
  induction order with
  | nil =>
    intro σ σ' rc hending hrun
    simp only [List.length_nil, List.replicate_succ, List.replicate_zero, List.foldlM_cons,
      List.foldlM_nil, Clients.step, hending] at hrun
    cases hrun
    exact ⟨rc, rfl, Function.update_self ..⟩
  | cons op ops ih =>
    intro σ σ' rc hending hrun
    rw [List.length_cons, List.replicate_succ, List.foldlM_cons] at hrun
    obtain ⟨σ₁, hstep, hrest⟩ := Option.bind_eq_some_iff.mp hrun
    simp only [Clients.step, hending] at hstep
    obtain ⟨⟨rc₁, cached⟩, hop, rfl⟩ := Option.map_eq_some_iff.mp hstep
    obtain ⟨rc', hend, htrx⟩ := ih rc₁ (Function.update_self ..) hrest
    refine ⟨rc', ?_, htrx⟩
    rw [Table.endOperations, Ending.view_cachedOperation hop]
    exact hend

/-- A run in which no page is evicted while its frame is clean and differs from what is on disk, no
page with records is taken for an insertion, and the slots of the operations that end have their
records: the records that a commit or a rollback has settled read back as committed. -/
theorem settled_record_reads_back {c : CachedTable V A}
    (hinv : c.view.records.Inv c.view.recordCapacity) (ids : ℕ → BitVec 32) (counter : BitVec 32)
    (ops : List (ClientOp V)) {σ : Clients V A} {books : Books V}
    (hrun : runClients ops (.start c ids counter, .empty) = some (σ, books))
    (hkeep : AllKeep ops (.start c ids counter) .empty) {rid : RID} {values : V}
    (hsettled : books.settled rid = some values) : σ.cached.ReadsBack rid values := by
  have hstart : (Clients.start c ids counter).Sound Books.empty := by
    refine ⟨hinv, ?_, ?_, ?_⟩
    · exact fun i op hop => by cases hop
    · exact fun i ending ops hending => by cases hending
    · exact fun rid values hrid => by cases hrid
  exact CachedTable.readsBack_of_record ((hstart.run ops hkeep hrun).settled rid values hsettled)

end steps

/-! ## One record -/

/-- An empty table with no page in memory, and transactions 1, 2, … -/
def sampleClients : Clients ℕ ℤ :=
  .start ⟨sampleTable, .cold sampleTable.records.page⟩ (fun i => i + 1) 1

/-- A record is inserted and committed, and its page is evicted. -/
def keptCommit : List (ClientOp ℕ) :=
  [.insert 0 ⟨0, 7⟩ .success, .startEnding 0 .commit [(slotRid 1 0, .insert)], .endOperation 0,
    .evict 1]

/-- The page is evicted before the commit, too. -/
def lostCommit : List (ClientOp ℕ) :=
  [.insert 0 ⟨0, 7⟩ .success, .evict 1, .startEnding 0 .commit [(slotRid 1 0, .insert)],
    .endOperation 0, .evict 1]

/-- What is looked at in a run of the sample: the first transaction and the first record of the
first page. -/
structure Glance where
  /-- The operations that are left of the transaction that ends. -/
  left : Option (Ending × List (RID × OperationType))
  /-- The record. -/
  record : Option (RecordData ℕ)
  /-- What the transaction has written. -/
  written : Option ℕ
  /-- What has been settled. -/
  settled : Option ℕ
  /-- `dirty_` of the frame of the page. -/
  dirty : Option Bool
  deriving DecidableEq

/-- Look at a state of a run. -/
def glance (s : Clients ℕ ℤ × Books ℕ) : Glance where
  left := s.1.ending 0
  record := s.1.cached.view.record (slotRid 1 0)
  written := s.2.written 0 (slotRid 1 0)
  settled := s.2.settled (slotRid 1 0)
  dirty := (s.1.cached.cache.lines 1).map CacheLine.dirty

/-- The page is still dirty from the insertion. -/
theorem settled_record_reads_back_kept : ∃ σ books,
    runClients keptCommit (sampleClients, .empty) = some (σ, books) ∧
      books.settled (slotRid 1 0) = some 7 ∧ σ.cached.ReadsBack (slotRid 1 0) 7 := by
  have hend : (runClients keptCommit (sampleClients, .empty)).map glance =
      some ⟨some (.commit, []), some ⟨0, 7⟩, some 7, some 7, none⟩ := by decide
  have htwo : (runClients (keptCommit.take 2) (sampleClients, .empty)).map glance =
      some ⟨some (.commit, [(slotRid 1 0, .insert)]), some ⟨1, 7⟩, some 7, none, some true⟩ := by
    decide
  have hthree : (runClients (keptCommit.take 3) (sampleClients, .empty)).map glance =
      some ⟨some (.commit, []), some ⟨0, 7⟩, some 7, some 7, some true⟩ := by decide
  obtain ⟨⟨σ, books⟩, hrun, hglance⟩ := Option.map_eq_some_iff.mp hend
  have hsettled : books.settled (slotRid 1 0) = some 7 := congrArg Glance.settled hglance
  have hinv : sampleClients.cached.view.records.Inv sampleClients.cached.view.recordCapacity :=
    RecordFile.inv_empty _ 2
  suffices hkeep : AllKeep keptCommit sampleClients .empty from
    ⟨σ, books, hrun, hsettled, settled_record_reads_back hinv _ _ _ hrun hkeep hsettled⟩
  refine ⟨Table.keepsRecords_of_reusedPage rfl, fun σ₁ h₁ => ⟨trivial, fun σ₂ h₂ => ?_⟩⟩
  refine ⟨?_, fun σ₃ h₃ => ⟨?_, fun _ _ => trivial⟩⟩
  · obtain ⟨s₂, hrun₂, hglance₂⟩ := Option.map_eq_some_iff.mp htwo
    simp only [keptCommit, List.take, runClients, h₁, h₂, Option.bind_some,
      Option.some_inj] at hrun₂
    subst hrun₂
    intro ending rid type ops hending
    rw [show σ₂.ending 0 = _ from congrArg Glance.left hglance₂] at hending
    cases hending
    have hsettles : Ending.commit.Settles .insert = true := rfl
    rw [if_pos hsettles]
    intro values hvalues
    refine ⟨_, congrArg Glance.record hglance₂, ?_⟩
    exact Option.some.inj ((congrArg Glance.written hglance₂).symm.trans hvalues)
  · obtain ⟨s₃, hrun₃, hglance₃⟩ := Option.map_eq_some_iff.mp hthree
    simp only [keptCommit, List.take, runClients, h₁, h₂, h₃, Option.bind_some,
      Option.some_inj] at hrun₃
    subst hrun₃
    intro line hline hdirty
    have htrue := congrArg Glance.dirty hglance₃
    simp only [glance, hline, Option.map_some, hdirty, Option.some_inj] at htrue
    cases htrue

/-- The commit writes into a clean frame, and the second eviction loses the write: the record still
has the number of the transaction. -/
theorem commit_lost_by_eviction : ∃ σ books,
    runClients lostCommit (sampleClients, .empty) = some (σ, books) ∧
      books.settled (slotRid 1 0) = some 7 ∧ ¬ σ.cached.ReadsBack (slotRid 1 0) 7 := by
  have hend : (runClients lostCommit (sampleClients, .empty)).map glance =
      some ⟨some (.commit, []), some ⟨1, 7⟩, some 7, some 7, none⟩ := by decide
  obtain ⟨⟨σ, books⟩, hrun, hglance⟩ := Option.map_eq_some_iff.mp hend
  refine ⟨σ, books, hrun, congrArg Glance.settled hglance, ?_⟩
  rintro ⟨data, hdata, -, htrx, -⟩
  have hrecord : σ.cached.view.record (slotRid 1 0) = some ⟨1, 7⟩ := congrArg Glance.record hglance
  rw [CachedTable.view_getThisPage, hrecord] at hdata
  cases hdata
  exact absurd htrx (by decide)

end Miniob.Storage.Common
