import Miniob.Basic

/-!
# Transactions

Every record has a field for the transaction that wrote it: the number of the transaction and a
bit that says "deleted", 0 once the record is committed. A transaction keeps the records that it
has inserted and deleted in a set with one operation for each record.

* `RecordData`: a record with its transaction field, `setRecordTrxId` and `getRecordTrxId`.
* `Trx`: the number and the operations, `insertRecord`, `deleteRecord` and `isVisible`.

The numbers come from one counter, which is passed along explicitly.
-/

namespace Miniob.Storage.Transaction

/-- The bytes of a record: the transaction field and the values of the columns. -/
structure RecordData (V : Type) where
  /-- `__trx` -/
  trx : BitVec 32
  /-- The values. -/
  values : V
  deriving DecidableEq, Inhabited

/-- Source: `trx.cpp`, `DELETED_FLAG_BIT_MASK` -/
def deletedFlagBitMask : BitVec 32 := 0x80000000#32

/-- Source: `trx.cpp`, `TRX_ID_BIT_MASK` -/
def trxIdBitMask : BitVec 32 := 0x7FFFFFFF#32

namespace RecordData

variable {V : Type}

/-- Source: `trx.cpp`, `Trx::set_record_trx_id` -/
def setRecordTrxId (data : RecordData V) (trxId : BitVec 32) (deleted : Bool) : RecordData V :=
  { data with trx := if deleted then trxId ||| deletedFlagBitMask else trxId }

/-- Source: `trx.cpp`, `Trx::get_record_trx_id` -/
def getRecordTrxId (data : RecordData V) : BitVec 32 × Bool :=
  (data.trx &&& trxIdBitMask, data.trx &&& deletedFlagBitMask ≠ 0)

@[simp] theorem setRecordTrxId_values (data : RecordData V) (trxId : BitVec 32) (deleted : Bool) :
    (data.setRecordTrxId trxId deleted).values = data.values := rfl

@[simp] theorem setRecordTrxId_trx (data : RecordData V) (trxId : BitVec 32) :
    (data.setRecordTrxId trxId false).trx = trxId := rfl

end RecordData

/-- The operations that a transaction records. Source: `trx.h`, `enum class Operation::Type` -/
inductive OperationType
  | insert
  | delete
  deriving DecidableEq, Repr

/-- Source: `trx.h`, `class Trx`, with the operations on one table -/
structure Trx where
  /-- `trx_id_` -/
  trxId : BitVec 32
  /-- `operations_`, at most one for each record. -/
  operations : List (RID × OperationType)
  deriving DecidableEq

namespace Trx

/-- Source: `trx.cpp`, `Trx::find_operation` -/
def findOperation (trx : Trx) (rid : RID) : Option OperationType := trx.operations.lookup rid

/-- Source: `trx.cpp`, `Trx::insert_operation` -/
def insertOperation (trx : Trx) (type : OperationType) (rid : RID) : Trx :=
  if (trx.findOperation rid).isSome then trx
  else { trx with operations := (rid, type) :: trx.operations }

/-- Source: `trx.cpp`, `Trx::delete_operation` -/
def deleteOperation (trx : Trx) (rid : RID) : Trx :=
  { trx with operations := trx.operations.filter fun op => op.1 ≠ rid }

/-- Source: `trx.cpp`, `Trx::insert_record` -/
def insertRecord (trx : Trx) (rid : RID) : RC × Trx :=
  match trx.findOperation rid with
  | some .insert => (.genericError, trx)
  | some .delete => (.success, (trx.deleteOperation rid).insertOperation .insert rid)
  | none => (.success, trx.insertOperation .insert rid)

/-- The counter is the number that was given out last.
Source: `trx.cpp`, `Trx::start_if_not_started`, `Trx::next_trx_id` -/
def startIfNotStarted (trx : Trx) (counter : BitVec 32) : Trx × BitVec 32 :=
  if trx.trxId = 0 then ({ trx with trxId := counter + 1 }, counter + 1) else (trx, counter)

/-- The record is marked as deleted after its slot has been emptied, which nobody sees.
Source: `trx.cpp`, `Trx::delete_record` -/
def deleteRecord (trx : Trx) (counter : BitVec 32) (rid : RID) : RC × Trx × BitVec 32 :=
  let (trx, counter) := trx.startIfNotStarted counter
  match trx.findOperation rid with
  | some .insert => (.success, trx.deleteOperation rid, counter)
  | some .delete => (.genericError, trx, counter)
  | none => (.success, trx.insertOperation .delete rid, counter)

/-- Source: `trx.cpp`, `Trx::init_trx_info` -/
def initTrxInfo {V : Type} (trx : Trx) (data : RecordData V) : RecordData V :=
  data.setRecordTrxId trx.trxId false

/-- Source: `trx.cpp`, `Trx::is_visible` -/
def isVisible {V : Type} (trx : Trx) (data : RecordData V) : Bool :=
  let (recordTrxId, recordDeleted) := data.getRecordTrxId
  if recordTrxId = 0 ∨ recordTrxId = trx.trxId then !recordDeleted else recordDeleted

/-- A record that carries the number of another transaction is not visible. -/
theorem isVisible_of_other {V : Type} {trx : Trx} {data : RecordData V} (hne : data.trx ≠ 0)
    (hsmall : data.trx.toNat < 2147483648) (hother : data.trx ≠ trx.trxId) :
    trx.isVisible data = false := by
  have hid : data.trx &&& trxIdBitMask = data.trx := by
    apply BitVec.eq_of_toNat_eq
    rw [BitVec.toNat_and, show trxIdBitMask.toNat = 2 ^ 31 - 1 from rfl,
      Nat.and_two_pow_sub_one_eq_mod]
    exact Nat.mod_eq_of_lt hsmall
  have hflag : data.trx &&& deletedFlagBitMask = 0 := by
    rw [← hid, BitVec.and_assoc, show trxIdBitMask &&& deletedFlagBitMask = 0 from rfl]
    exact BitVec.and_zero
  have hfalse : ¬ (data.trx = 0 ∨ data.trx = trx.trxId) := not_or.mpr ⟨hne, hother⟩
  unfold isVisible RecordData.getRecordTrxId
  rw [hid, hflag]
  simp only [if_neg hfalse]
  rfl

/-- A new transaction object.
Source: `trx.cpp`, `Trx::Trx` -/
def new (counter : BitVec 32) : Trx × BitVec 32 :=
  ({ trxId := counter + 1, operations := [] }, counter + 1)

/-! ## The set of operations -/

/-- One operation for each record. -/
def Distinct (trx : Trx) : Prop := (trx.operations.map Prod.fst).Nodup

theorem findOperation_eq_some {trx : Trx} (h : trx.Distinct) {rid : RID} {type : OperationType} :
    trx.findOperation rid = some type ↔ (rid, type) ∈ trx.operations := by
  unfold findOperation
  unfold Distinct at h
  generalize trx.operations = ops at h ⊢
  induction ops with
  | nil => simp
  | cons op ops ih =>
    obtain ⟨rid', type'⟩ := op
    rw [List.map_cons, List.nodup_cons] at h
    rw [List.lookup_cons, List.mem_cons]
    by_cases hrid : rid = rid'
    · subst hrid
      have hnot : (rid, type) ∉ ops := fun hmem => h.1 (List.mem_map.mpr ⟨_, hmem, rfl⟩)
      simp [hnot, eq_comm]
    · rw [beq_eq_false_iff_ne.mpr hrid]
      simp [ih h.2, hrid]

theorem findOperation_deleteOperation (trx : Trx) (rid rid' : RID) :
    (trx.deleteOperation rid).findOperation rid' =
      if rid' = rid then none else trx.findOperation rid' := by
  unfold findOperation deleteOperation
  induction trx.operations with
  | nil => simp
  | cons op ops ih =>
    obtain ⟨r, type⟩ := op
    by_cases hr : r = rid
    · subst hr
      by_cases hrid : rid' = r
      · subst hrid
        simpa [List.lookup_cons] using ih
      · have hne : (rid' == r) = false := beq_eq_false_iff_ne.mpr hrid
        simpa [List.lookup_cons, hrid, hne] using ih
    · by_cases hrid : rid' = r
      · subst hrid
        simp [hr]
      · have hne : (rid' == r) = false := beq_eq_false_iff_ne.mpr hrid
        simpa [List.lookup_cons, hr, hne] using ih

theorem findOperation_insertOperation (trx : Trx) (type : OperationType) (rid rid' : RID) :
    (trx.insertOperation type rid).findOperation rid' =
      if rid' = rid then some ((trx.findOperation rid).getD type) else trx.findOperation rid' := by
  unfold insertOperation
  cases hfind : trx.findOperation rid with
  | some old =>
    by_cases hrid : rid' = rid
    · simp [hrid, hfind]
    · simp [hrid]
  | none =>
    by_cases hrid : rid' = rid
    · simp [hrid, findOperation]
    · have hne : (rid' == rid) = false := beq_eq_false_iff_ne.mpr hrid
      simp [hrid, findOperation, List.lookup_cons, hne]

theorem Distinct.deleteOperation {trx : Trx} (h : trx.Distinct) (rid : RID) :
    (trx.deleteOperation rid).Distinct :=
  h.sublist (List.filter_sublist.map _)

theorem Distinct.insertOperation {trx : Trx} (h : trx.Distinct) (type : OperationType) (rid : RID) :
    (trx.insertOperation type rid).Distinct := by
  unfold Trx.insertOperation
  split
  · exact h
  · rename_i hnone
    refine List.nodup_cons.mpr ⟨?_, h⟩
    intro hmem
    obtain ⟨⟨r, type'⟩, hop, rfl⟩ := List.mem_map.mp hmem
    rw [(findOperation_eq_some h).mpr hop] at hnone
    exact hnone rfl

/-- An insertion is recorded unless the record is there already as an insertion. -/
theorem insertRecord_spec (trx : Trx) (rid : RID) :
    (trx.findOperation rid = some .insert ∧ trx.insertRecord rid = (.genericError, trx)) ∨
    trx.findOperation rid ≠ some .insert ∧ ∃ trx', trx.insertRecord rid = (.success, trx') ∧
      trx'.trxId = trx.trxId ∧ (trx.Distinct → trx'.Distinct) ∧
      ∀ r, trx'.findOperation r = if r = rid then some .insert else trx.findOperation r := by
  unfold insertRecord
  cases hfind : trx.findOperation rid with
  | none =>
    refine Or.inr ⟨by simp, _, rfl, ?_, fun h => h.insertOperation _ _, ?_⟩
    · simp [insertOperation, hfind]
    · intro r
      rw [findOperation_insertOperation, hfind]
      rfl
  | some type =>
    cases type with
    | insert => exact Or.inl ⟨rfl, rfl⟩
    | delete =>
      have hgone : (trx.deleteOperation rid).findOperation rid = none := by
        rw [findOperation_deleteOperation, if_pos rfl]
      refine Or.inr ⟨by simp, _, rfl, ?_, fun h => (h.deleteOperation _).insertOperation _ _, ?_⟩
      · simp only [insertOperation, hgone]
        rfl
      · intro r
        rw [findOperation_insertOperation, hgone, findOperation_deleteOperation]
        by_cases hr : r = rid <;> simp [hr]

/-- A deletion takes the insertion of the same record back, or is recorded. -/
theorem deleteRecord_spec (trx : Trx) (counter : BitVec 32) (rid : RID) :
    (trx.deleteRecord counter rid).2 =
      ((trx.deleteRecord counter rid).2.1, (trx.startIfNotStarted counter).2) ∧
    (trx.deleteRecord counter rid).2.1.trxId = (trx.startIfNotStarted counter).1.trxId ∧
    (trx.Distinct → (trx.deleteRecord counter rid).2.1.Distinct) ∧
    ∀ r, (trx.deleteRecord counter rid).2.1.findOperation r =
      if r = rid then if trx.findOperation rid = some .insert then none else some .delete
      else trx.findOperation r := by
  have hops : (trx.startIfNotStarted counter).1.operations = trx.operations := by
    unfold startIfNotStarted
    split <;> rfl
  have hfind : ∀ r, (trx.startIfNotStarted counter).1.findOperation r = trx.findOperation r := by
    intro r
    rw [findOperation, hops, findOperation]
  have hdist : trx.Distinct → (trx.startIfNotStarted counter).1.Distinct := by
    intro h
    rwa [Distinct, hops]
  unfold deleteRecord
  generalize htrx : trx.startIfNotStarted counter = started at *
  obtain ⟨trx', counter'⟩ := started
  simp only at hfind hdist ⊢
  rw [hfind]
  cases hold : trx.findOperation rid with
  | none =>
    refine ⟨rfl, ?_, fun h => (hdist h).insertOperation _ _, ?_⟩
    · simp [insertOperation, hfind, hold]
    · intro r
      rw [findOperation_insertOperation, hfind, hfind, hold]
      simp
  | some type =>
    cases type with
    | insert =>
      refine ⟨rfl, rfl, fun h => (hdist h).deleteOperation _, ?_⟩
      intro r
      rw [findOperation_deleteOperation, hfind]
      simp
    | delete =>
      refine ⟨rfl, rfl, hdist, ?_⟩
      intro r
      rw [hfind]
      by_cases hr : r = rid <;> simp [hr, hold]

theorem mem_insertOperation {trx : Trx} {type : OperationType} {rid : RID}
    {op : RID × OperationType} (h : op ∈ (trx.insertOperation type rid).operations) :
    op ∈ trx.operations ∨ op.1 = rid := by
  unfold insertOperation at h
  split at h
  · exact Or.inl h
  · rcases List.mem_cons.mp h with rfl | h
    · exact Or.inr rfl
    · exact Or.inl h

theorem mem_deleteOperation {trx : Trx} {rid : RID} {op : RID × OperationType}
    (h : op ∈ (trx.deleteOperation rid).operations) : op ∈ trx.operations :=
  (List.mem_filter.mp h).1

theorem mem_insertRecord {trx : Trx} {rid : RID} {op : RID × OperationType}
    (h : op ∈ (trx.insertRecord rid).2.operations) : op ∈ trx.operations ∨ op.1 = rid := by
  unfold insertRecord at h
  split at h
  · exact Or.inl h
  · rcases mem_insertOperation h with h | h
    · exact Or.inl (mem_deleteOperation h)
    · exact Or.inr h
  · exact mem_insertOperation h

theorem mem_deleteRecord {trx : Trx} {counter : BitVec 32} {rid : RID} {op : RID × OperationType}
    (h : op ∈ (trx.deleteRecord counter rid).2.1.operations) :
    op ∈ trx.operations ∨ op.1 = rid := by
  have hstart : (trx.startIfNotStarted counter).1.operations = trx.operations := by
    unfold startIfNotStarted
    split <;> rfl
  unfold deleteRecord at h
  dsimp only at h
  rw [← hstart]
  split at h
  · exact Or.inl (mem_deleteOperation h)
  · exact Or.inl h
  · exact mem_insertOperation h

end Trx

end Miniob.Storage.Transaction
