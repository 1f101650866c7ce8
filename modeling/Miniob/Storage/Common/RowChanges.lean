import Miniob.Storage.Common.Consistent

/-!
# Changing a row when a step fails

`Table::insert_record` and `Table::delete_record` change the records, the operations of the
transaction, the indexes and the log one after the other. One of these steps may fail without
changing anything.

* `RowFault`: the step that fails. `tryInsertRecord` and `tryDeleteRecord` are the two calls with
  such a step; without it they are `insertRecord` and `deleteRecord`.
* `tryInsertEntries_cases`, `tryDeleteEntries_cases`: the loops over the indexes end at one of them,
  with those before it changed.
* `Unchanged`: what a failed call should leave. `row_change_restored_iff` says which of them do.

An insertion is undone by hand but for the operation of the transaction; a deletion is not undone.
-/

namespace Miniob.Storage.Common

open Miniob.Common Miniob.Storage.Index Miniob.Storage.Record Miniob.Storage.Transaction

/-! ## Steps that fail -/

/-- A code that is returned for an error. -/
abbrev Failure := {rc : RC // rc ≠ .success}

/-- A step that fails and changes nothing. -/
inductive RowFault
  /-- The page of the record cannot be had. -/
  | record (rc : Failure)
  /-- The entry cannot be put into the index with this number, or taken out of it. -/
  | index (k : ℕ) (rc : Failure)
  /-- The record of the log cannot be made or appended. -/
  | log (rc : Failure)
  deriving DecidableEq

/-- The index that fails. -/
def indexFault : Option RowFault → Option (ℕ × Failure)
  | some (.index k rc) => some (k, rc)
  | _ => none

/-- The step on the next index, if it is not the one at hand that fails. -/
def nextFault : Option (ℕ × Failure) → Option (ℕ × Failure)
  | some (k + 1, rc) => some (k, rc)
  | _ => none

/-- What the log returns. -/
def logRc : Option RowFault → RC
  | some (.log rc) => rc
  | _ => .success

variable {V A : Type} [LinearOrder A]

/-- The loop over the indexes, which ends at the first one that fails. -/
def tryEntries (step : TableIndex V A → RC × TableIndex V A) :
    Option (ℕ × Failure) → List (TableIndex V A) → RC × List (TableIndex V A)
  | _, [] => (.success, [])
  | some (0, rc), index :: indexes => (rc.1, index :: indexes)
  | fault, index :: indexes =>
    let (rc, index) := step index
    if rc ≠ .success then (rc, index :: indexes)
    else
      let (rc, indexes) := tryEntries step (nextFault fault) indexes
      (rc, index :: indexes)

/-- Source: `table.cpp`, `Table::insert_entry_of_indexes` -/
def tryInsertEntries (fault : Option (ℕ × Failure)) (indexes : List (TableIndex V A)) (values : V)
    (rid : RID) : RC × List (TableIndex V A) :=
  tryEntries (fun index => index.insertEntry values rid) fault indexes

/-- Source: `table.cpp`, `Table::delete_entry_of_indexes`, with `error_on_not_exists` false -/
def tryDeleteEntries (fault : Option (ℕ × Failure)) (indexes : List (TableIndex V A)) (values : V)
    (rid : RID) : RC × List (TableIndex V A) :=
  tryEntries (fun index => index.deleteEntry values rid) fault indexes

theorem tryInsertEntries_none (indexes : List (TableIndex V A)) (values : V) (rid : RID) :
    tryInsertEntries none indexes values rid = insertEntryOfIndexes indexes values rid := by
  unfold tryInsertEntries
  induction indexes with
  | nil => rfl
  | cons index indexes ih =>
    rw [tryEntries, insertEntryOfIndexes, nextFault, ih]
    · exact fun _ _ h => by cases h
    · exact fun _ h => by cases h

theorem tryDeleteEntries_none (indexes : List (TableIndex V A)) (values : V) (rid : RID) :
    tryDeleteEntries none indexes values rid = deleteEntryOfIndexes false indexes values rid := by
  unfold tryDeleteEntries
  induction indexes with
  | nil => rfl
  | cons index indexes ih =>
    rw [tryEntries, deleteEntryOfIndexes.eq_def, nextFault, ih]
    · dsimp only
      by_cases hrc : (index.deleteEntry values rid).1 = .success
      · cases indexes with
        | nil => simp [hrc, deleteEntryOfIndexes]
        | cons => simp [hrc]
      · simp [hrc]
    · exact fun _ _ h => by cases h
    · exact fun _ h => by cases h

/-- The indexes up to the first one that fails, and the cause. -/
structure StopsAt (step : TableIndex V A → RC × TableIndex V A) (fault : Option (ℕ × Failure))
    (indexes pre : List (TableIndex V A)) (index : TableIndex V A)
    (post : List (TableIndex V A)) : Prop where
  indexes_eq : indexes = pre ++ index :: post
  before : ∀ i ∈ pre, (step i).1 = .success
  notBefore : ∀ k rc, fault = some (k, rc) → pre.length ≤ k
  cause : (∃ rc, fault = some (pre.length, rc)) ∨ (step index).1 ≠ .success

/-- The loop changes all indexes, or those before the one that fails. By induction on the
indexes. -/
theorem tryEntries_cases {step : TableIndex V A → RC × TableIndex V A}
    (indexes : List (TableIndex V A))
    (hstep : ∀ index ∈ indexes, (step index).1 ≠ .success → (step index).2 = index) :
    ∀ fault : Option (ℕ × Failure),
      (tryEntries step fault indexes = (.success, indexes.map fun index => (step index).2) ∧
        (∀ index ∈ indexes, (step index).1 = .success) ∧
        ∀ k rc, fault = some (k, rc) → indexes.length ≤ k) ∨
      ∃ pre index post rc, StopsAt step fault indexes pre index post ∧ rc ≠ .success ∧
        tryEntries step fault indexes =
          (rc, (pre.map fun index => (step index).2) ++ index :: post) := by
  induction indexes with
  | nil => exact fun fault => Or.inl ⟨by cases fault <;> rfl, by simp, fun _ _ _ => Nat.zero_le _⟩
  | cons index indexes ih =>
    intro fault
    by_cases hzero : ∃ rc, fault = some (0, rc)
    · obtain ⟨rc, rfl⟩ := hzero
      exact Or.inr ⟨[], index, indexes, rc, ⟨rfl, by simp, fun _ _ _ => Nat.zero_le _,
        Or.inl ⟨rc, rfl⟩⟩, rc.2, rfl⟩
    · have hunfold : tryEntries step fault (index :: indexes) =
          if (step index).1 ≠ .success then ((step index).1, (step index).2 :: indexes)
          else ((tryEntries step (nextFault fault) indexes).1,
            (step index).2 :: (tryEntries step (nextFault fault) indexes).2) := by
        rw [tryEntries]
        exact fun rc h => hzero ⟨rc, h⟩
      rw [hunfold]
      by_cases hrc : (step index).1 = .success
      · rw [if_neg (not_not.mpr hrc)]
        rcases ih (fun i hi => hstep i (List.mem_cons_of_mem _ hi)) (nextFault fault) with
          ⟨heq, hall, hlen⟩ | ⟨pre, i, post, rc, hstops, hne, heq⟩
        · refine Or.inl ⟨by rw [heq]; rfl, fun i hi => ?_, ?_⟩
          · rcases List.mem_cons.mp hi with rfl | hi
            · exact hrc
            · exact hall i hi
          · rintro k rc' rfl
            cases k with
            | zero => exact absurd ⟨rc', rfl⟩ hzero
            | succ k => exact Nat.succ_le_succ (hlen k rc' rfl)
        · refine Or.inr ⟨index :: pre, i, post, rc, ⟨?_, ?_, ?_, ?_⟩, hne, by rw [heq]; rfl⟩
          · rw [hstops.indexes_eq]
            rfl
          · intro j hj
            rcases List.mem_cons.mp hj with rfl | hj
            · exact hrc
            · exact hstops.before j hj
          · rintro k rc' rfl
            cases k with
            | zero => exact absurd ⟨rc', rfl⟩ hzero
            | succ k => exact Nat.succ_le_succ (hstops.notBefore k rc' rfl)
          · refine hstops.cause.imp_left ?_
            rintro ⟨rc', hfault⟩
            refine ⟨rc', ?_⟩
            unfold nextFault at hfault
            split at hfault
            · cases hfault
              rfl
            · cases hfault
      · rw [if_pos hrc, hstep index List.mem_cons_self hrc]
        refine Or.inr ⟨[], index, indexes, _, ⟨rfl, by simp, fun _ _ _ => Nat.zero_le _,
          Or.inr hrc⟩, hrc, rfl⟩

/-! ## Undoing the entries -/

section entries

variable {index : TableIndex V A} {values : V} {rid : RID}

theorem insertEntry_success_iff (hord : index.Orders [index.field values]) :
    (index.insertEntry values rid).1 = .success ↔ ¬ index.Lists values rid := by
  rcases hord.lists_or_lacks rid with h | h
  · exact iff_of_false (by simp [TableIndex.insertEntry_of_lists h]) (not_not.mpr h)
  · exact iff_of_true (by rw [TableIndex.insertEntry_of_lacks h]) (hord.not_lists_iff.mpr h)

theorem insertEntry_of_failure (hord : index.Orders [index.field values])
    (h : (index.insertEntry values rid).1 ≠ .success) :
    (index.insertEntry values rid).2 = index := by
  rw [TableIndex.insertEntry_of_lists (not_not.mp (mt (insertEntry_success_iff hord).mpr h))]

theorem deleteEntry_success_iff (hord : index.Orders [index.field values]) :
    (index.deleteEntry values rid).1 = .success ↔ index.Lists values rid := by
  rcases hord.lists_or_lacks rid with h | h
  · exact iff_of_true (by rw [TableIndex.deleteEntry_of_lists h]) h
  · obtain ⟨rc, heq, hrc, -⟩ := TableIndex.deleteEntry_of_lacks h
    exact iff_of_false (by rwa [heq]) (hord.not_lists_iff.mpr h)

theorem deleteEntry_of_failure (hord : index.Orders [index.field values])
    (h : (index.deleteEntry values rid).1 ≠ .success) :
    (index.deleteEntry values rid).2 = index := by
  obtain ⟨rc, heq, -⟩ := TableIndex.deleteEntry_of_lacks
    (hord.not_lists_iff.mp (mt (deleteEntry_success_iff hord).mpr h))
  rw [heq]

/-- An index that loses an entry changes. -/
theorem deleteEntry_ne (h : index.Lists values rid) : (index.deleteEntry values rid).2 ≠ index := by
  intro heq
  obtain ⟨e, he, hkey⟩ := h.2
  have hgone := (TableIndex.mem_deleteEntry h (e := e)).not.mpr fun hboth => hboth.2 hkey
  rw [heq] at hgone
  exact hgone he

/-- A new entry can be taken out again. -/
theorem deleteEntry_insertEntry (h : index.Lacks values rid) :
    (index.insertEntry values rid).2.deleteEntry values rid = (.success, index) := by
  have horders := h.1.insertEntry h
  have hmem := fun e => @TableIndex.mem_insertEntry _ _ _ _ _ _ h e
  rw [TableIndex.insertEntry_of_lacks h] at horders hmem ⊢
  rw [TableIndex.deleteEntry_of_lists ⟨horders, _, (hmem _).mpr (Or.inl rfl), rfl⟩]
  have hentries : (index.entries.insert (index.key values rid) rid h.2).erase
      (index.key values rid) = index.entries := by
    refine SortedSet.ext_mem fun e => ?_
    rw [SortedSet.mem_erase, SortedSet.mem_insert]
    constructor
    · rintro ⟨rfl | hmem, hne⟩
      · exact absurd rfl hne
      · exact hmem
    · exact fun hmem => ⟨Or.inr hmem, fun hkey => h.2 ⟨e, hmem, hkey⟩⟩
  exact congrArg (fun entries => (RC.success, { index with entries := entries })) hentries

/-- Undoing the insertions goes on to the index that has failed. By induction on those before it. -/
theorem undo_inserted {pre rest : List (TableIndex V A)} (hrest : rest ≠ [])
    (h : ∀ i ∈ pre, i.Lacks values rid) :
    (deleteEntryOfIndexes true ((pre.map fun i => (i.insertEntry values rid).2) ++ rest) values
        rid).2 = pre ++ (deleteEntryOfIndexes true rest values rid).2 := by
  induction pre with
  | nil => rfl
  | cons i pre ih =>
    rw [List.map_cons, List.cons_append, deleteEntryOfIndexes.eq_def]
    have hne : (pre.map fun i => (i.insertEntry values rid).2) ++ rest ≠ [] := by
      simp [hrest]
    obtain ⟨j, others, hothers⟩ := List.exists_cons_of_ne_nil hne
    have hih := ih fun i hi => h i (List.mem_cons_of_mem _ hi)
    rw [hothers] at hih ⊢
    simp [deleteEntry_insertEntry (h i List.mem_cons_self), hih]

/-- Undoing changes the index that has failed if it has had the entry before. -/
theorem undo_failed {post : List (TableIndex V A)} (hord : index.Orders [index.field values]) :
    (deleteEntryOfIndexes true (index :: post) values rid).2 = index :: post ↔
      ¬ index.Lists values rid := by
  by_cases h : index.Lists values rid
  · refine iff_of_false (fun heq => ?_) (not_not.mpr h)
    have hhead : ((deleteEntryOfIndexes true (index :: post) values rid).2).head? =
        some (index.deleteEntry values rid).2 := by
      rw [deleteEntryOfIndexes.eq_def]
      simp only [TableIndex.deleteEntry_of_lists h]
      cases post <;> simp
    rw [heq] at hhead
    exact deleteEntry_ne h (Option.some.inj hhead).symm
  · refine iff_of_true ?_ h
    obtain ⟨rc, heq, hrc, hkey⟩ := TableIndex.deleteEntry_of_lacks (hord.not_lists_iff.mp h)
    rw [deleteEntryOfIndexes.eq_def]
    simp [heq, hrc, hkey]

theorem indexFault_eq_some {fault : Option RowFault} {k : ℕ} {rc : Failure} :
    indexFault fault = some (k, rc) ↔ fault = some (.index k rc) := by
  rcases fault with - | - | - | - <;> simp [indexFault]

/-- The loop of an insertion. -/
theorem tryInsertEntries_cases (fault : Option (ℕ × Failure)) {indexes : List (TableIndex V A)}
    {values : V} (hord : ∀ index ∈ indexes, index.Orders [index.field values]) (rid : RID) :
    (tryInsertEntries fault indexes values rid =
        (.success, indexes.map fun index => (index.insertEntry values rid).2) ∧
      (∀ index ∈ indexes, (index.insertEntry values rid).1 = .success) ∧
      ∀ k rc, fault = some (k, rc) → indexes.length ≤ k) ∨
    ∃ pre index post rc,
      StopsAt (fun index => index.insertEntry values rid) fault indexes pre index post ∧
        rc ≠ .success ∧ tryInsertEntries fault indexes values rid =
          (rc, (pre.map fun index => (index.insertEntry values rid).2) ++ index :: post) :=
  tryEntries_cases indexes (fun index hmem => insertEntry_of_failure (hord index hmem)) fault

/-- The loop of a deletion. -/
theorem tryDeleteEntries_cases (fault : Option (ℕ × Failure)) {indexes : List (TableIndex V A)}
    {values : V} (hord : ∀ index ∈ indexes, index.Orders [index.field values]) (rid : RID) :
    (tryDeleteEntries fault indexes values rid =
        (.success, indexes.map fun index => (index.deleteEntry values rid).2) ∧
      (∀ index ∈ indexes, (index.deleteEntry values rid).1 = .success) ∧
      ∀ k rc, fault = some (k, rc) → indexes.length ≤ k) ∨
    ∃ pre index post rc,
      StopsAt (fun index => index.deleteEntry values rid) fault indexes pre index post ∧
        rc ≠ .success ∧ tryDeleteEntries fault indexes values rid =
          (rc, (pre.map fun index => (index.deleteEntry values rid).2) ++ index :: post) :=
  tryEntries_cases indexes (fun index hmem => deleteEntry_of_failure (hord index hmem)) fault

/-- An insertion stops at the index with the fault, unless that index or one before it has the
entry. -/
theorem stopsAt_clean_iff {fault : Option RowFault} {indexes pre post : List (TableIndex V A)}
    (hord : ∀ index ∈ indexes, index.Orders [index.field values])
    (h : StopsAt (fun index => index.insertEntry values rid) (indexFault fault) indexes pre index
      post) :
    ¬ index.Lists values rid ↔ ∃ k rc, fault = some (.index k rc) ∧ k < indexes.length ∧
      ∀ i ∈ indexes.take (k + 1), ¬ i.Lists values rid := by
  obtain ⟨hindexes, hbefore, hnotBefore, hcause⟩ := h
  have hindex : index.Orders [index.field values] := hord index (by simp [hindexes])
  constructor
  · intro hnot
    rcases hcause with ⟨rc, hfault⟩ | hfails
    · refine ⟨pre.length, rc, indexFault_eq_some.mp hfault, by simp [hindexes], ?_⟩
      intro i hi
      rw [hindexes, List.take_append, List.take_of_length_le (Nat.le_succ _)] at hi
      have hmem : i ∈ pre ∨ i = index := by
        simpa using hi
      rcases hmem with hmem | rfl
      · exact (insertEntry_success_iff (hord i (by simp [hindexes, hmem]))).mp (hbefore i hmem)
      · exact hnot
    · exact absurd ((insertEntry_success_iff hindex).mpr hnot) hfails
  · rintro ⟨k, rc, hfault, -, hall⟩
    have hle := hnotBefore k rc (indexFault_eq_some.mpr hfault)
    refine hall index ?_
    rw [hindexes, List.take_append]
    obtain ⟨n, hn⟩ : ∃ n, k + 1 - pre.length = n + 1 := ⟨k - pre.length, by omega⟩
    rw [hn, List.take_succ_cons]
    exact List.mem_append_right _ List.mem_cons_self

end entries

/-! ## The file of records -/

section file

variable {R : Type} [Inhabited R] {file file' : RecordFile R} {capacity : ℕ}

omit [Inhabited R] in
theorem wiped_of_no_reuse (h : file.reusedPage = none) : file.wiped = file.record := by
  funext rid
  rw [RecordFile.wiped, h]
  exact if_neg (by simp)

omit [Inhabited R] in
/-- Pages without slots have no records. -/
theorem record_of_no_slots (h : file.Inv 0) (rid : RID) : file.record rid = none := by
  cases hrid : file.record rid with
  | none => rfl
  | some data =>
    obtain ⟨p, slot, rfl, hp, hlt, ⟨hslot, -⟩, -⟩ := RecordFile.record_eq_some hrid
    rw [(h.counted p hp hlt).recordCapacity] at hslot
    exact absurd hslot (Nat.not_lt_zero slot)

/-- An insertion that finds no page for its record has not taken one that had records. -/
theorem choosePage_error (h : file.Inv capacity) {rc : RC}
    (herr : file.choosePage capacity = (.error rc, file')) : file.reusedPage = none := by
  cases hreused : file.reusedPage with
  | none => rfl
  | some q =>
    exfalso
    unfold RecordFile.choosePage at herr
    rcases RecordFile.findFreePage_spec file.freePages h.free with ⟨p, rest, heq, -⟩ | ⟨heq, -⟩
    · rw [RecordFile.reusedPage, heq] at hreused
      cases hreused
    · rw [RecordFile.reusedPage, heq] at hreused
      have hinv : RecordFile.Inv { file with freePages := [] } capacity :=
        h.setFreePages (by simp)
      obtain ⟨file₁, hrun, -⟩ := hinv.reusePage hreused
      rw [heq] at herr
      simp only [hrun, Prod.mk.injEq, reduceCtorEq, false_and] at herr

/-- A failed insertion leaves the records as they are. -/
theorem insertRecord_error (h : file.Inv capacity) {data : R} {rc : RC}
    (herr : file.insertRecord capacity data = some (.error rc, file')) :
    file'.record = file.record := by
  unfold RecordFile.insertRecord at herr
  rcases h.choosePage with ⟨p, file₁, heq, hc, hp, hlt, -, hclear⟩ | ⟨rc₁, file₁, heq, hc⟩
  · rw [heq] at herr
    have hcounted := hc.inv.counted p hp hlt
    rcases hcounted.insertRecord data with ⟨hfull, hins⟩ | ⟨slot, -, -, -, hins⟩
    · obtain ⟨-, rfl⟩ : RC.recordNomem = rc ∧ file₁ = file' := by
        simpa [RecordFile.insertInto, hins] using herr
      rw [hc.record]
      cases hreused : file.reusedPage with
      | none => exact wiped_of_no_reuse hreused
      | some q =>
        -- the page is empty and full
        obtain ⟨rfl, hbits⟩ := hclear q hreused
        have hzero : capacity = 0 := by
          have hcount := hcounted.isFull_iff.mp hfull
          have hclear : (file₁.page q).bitmap = fun _ => false := funext hbits
          rw [hclear, bitCount_clear] at hcount
          exact hcount.symm
        subst hzero
        funext rid
        rw [← hc.record, record_of_no_slots hc.inv, record_of_no_slots h]
    · simp [RecordFile.insertInto, hins] at herr
  · rw [heq] at herr
    cases herr
    rw [hc.record]
    exact wiped_of_no_reuse (choosePage_error h heq)

omit [Inhabited R] in
/-- A record that has been inserted can be taken out again. -/
theorem deleteRecord_inserted {rid : RID} {data : R} (h : file.Inserted file' capacity rid data) :
    (file'.deleteRecord rid).2.record = file.wiped := by
  have hsome : file'.record rid = some data := by
    rw [h.record, Function.update_self]
  obtain ⟨file'', hdel, hd⟩ := h.inv.deleteRecord hsome
  rw [hdel, hd.record, h.record, Function.update_idem, ← h.fresh, Function.update_eq_self]

end file

namespace Table

variable [Inhabited V]

/-- Insert the entries of the indexes, or take everything back.
Source: `table.cpp`, `Table::insert_record` -/
def tryInsertIndexes (t : Table V A) (fault : Option RowFault) (trx : Option Trx) (rid : RID)
    (data : RecordData V) : Except RC RID × Table V A × Option Trx :=
  match tryInsertEntries (indexFault fault) t.indexes data.values rid with
  | (.success, indexes) => logInsert { t with indexes := indexes } trx rid data (logRc fault)
  | (rc, indexes) =>
    let (_, indexes) := deleteEntryOfIndexes true indexes data.values rid
    (.error rc, undoInsert { t with indexes := indexes } rid, trx)

/-- Put the record into the file. -/
def tryInsertIntoFile (t : Table V A) (fault : Option RowFault) (data : RecordData V) :
    Option (Except RC RID × RecordFile (RecordData V)) :=
  match fault with
  | some (.record rc) => some (.error rc.1, t.records)
  | _ => t.records.insertRecord t.recordCapacity data

/-- Write the number of the transaction into the record, if there is one. -/
def initRecord (trx : Option Trx) (data : RecordData V) : RecordData V :=
  match trx with
  | some trx => trx.initTrxInfo data
  | none => data

/-- Source: `table.cpp`, `Table::insert_record` -/
def tryInsertRecord (t : Table V A) (fault : Option RowFault) (trx : Option Trx)
    (data : RecordData V) : Option (Except RC RID × Table V A × Option Trx) := do
  let data := initRecord trx data
  let (inserted, records) ← t.tryInsertIntoFile fault data
  let t := { t with records := records }
  match inserted with
  | .error rc => return (.error rc, t, trx)
  | .ok rid =>
    match trx with
    | none => return t.tryInsertIndexes fault none rid data
    | some trx =>
      match trx.insertRecord rid with
      | (.success, trx) => return t.tryInsertIndexes fault (some trx) rid data
      | (rc, trx) => return (.error rc, t.undoInsert rid, some trx)

/-- Take the record out of the file. The code that `init` returns is compared with `rc`, and not put
into it, so that nothing is reported if the page cannot be had.
Source: `record_manager.cpp`, `RecordFileHandler::delete_record` -/
def tryDeleteFromFile (t : Table V A) (fault : Option RowFault) (rid : RID) :
    RC × RecordFile (RecordData V) :=
  match fault with
  | some (.record _) => (.success, t.records)
  | _ => t.records.deleteRecord rid

/-- Source: `table.cpp`, `Table::delete_record` -/
def tryDeleteRecord (t : Table V A) (fault : Option RowFault) (counter : BitVec 32)
    (trx : Option Trx) (rid : RID) (data : RecordData V) :
    RC × Table V A × Option Trx × BitVec 32 :=
  match tryDeleteEntries (indexFault fault) t.indexes data.values rid with
  | (.success, indexes) =>
    let t := { t with indexes := indexes }
    let (rc, records) := t.tryDeleteFromFile fault rid
    if rc ≠ .success then (rc, { t with records := records }, trx, counter)
    else
      let t := { t with records := records }
      match trx with
      | none => (.success, t, none, counter)
      | some trx =>
        -- what the transaction returns is overwritten by what the log returns
        let (_, trx, counter) := trx.deleteRecord counter rid
        (logRc fault, { t with log := t.log ++ [.redoDelete trx.trxId rid] }, some trx, counter)
  | (rc, indexes) => (rc, { t with indexes := indexes }, trx, counter)

/-- If no step fails, or the log does, this is the call of a table. -/
theorem tryInsertRecord_eq (t : Table V A) {fault : Option RowFault} (trx : Option Trx)
    (data : RecordData V) (h : fault = none ∨ ∃ rc, fault = some (.log rc)) :
    t.tryInsertRecord fault trx data = t.insertRecord trx data (logRc fault) := by
  have hindexes : ∀ (t : Table V A) trx rid data,
      t.tryInsertIndexes fault trx rid data = t.insertEntries trx rid data (logRc fault) := by
    intro t trx rid data
    have hnone : indexFault fault = none := by
      rcases h with rfl | ⟨rc, rfl⟩ <;> rfl
    rw [tryInsertIndexes, hnone, tryInsertEntries_none]
    rfl
  unfold tryInsertRecord insertRecord
  simp only [hindexes]
  rcases h with rfl | ⟨rc, rfl⟩ <;> rfl

omit [Inhabited V] in
theorem tryDeleteRecord_eq (t : Table V A) {fault : Option RowFault} (counter : BitVec 32)
    (trx : Option Trx) (rid : RID) (data : RecordData V)
    (h : fault = none ∨ ∃ rc, fault = some (.log rc)) :
    t.tryDeleteRecord fault counter trx rid data =
      t.deleteRecord counter trx rid data (logRc fault) := by
  have hnone : indexFault fault = none := by
    rcases h with rfl | ⟨rc, rfl⟩ <;> rfl
  have hrecord : ∀ t : Table V A, t.tryDeleteFromFile fault rid = t.records.deleteRecord rid := by
    rcases h with rfl | ⟨rc, rfl⟩ <;> exact fun _ => rfl
  unfold tryDeleteRecord deleteRecord
  rw [hnone, tryDeleteEntries_none]
  simp only [hrecord]
  rcases deleteEntryOfIndexes false t.indexes data.values rid with ⟨rc, indexes⟩
  cases rc <;> try rfl
  rcases t.records.deleteRecord rid with ⟨rc, records⟩
  cases rc <;> cases trx <;> rfl

/-! ## What a failed call leaves -/

/-- The transactions have the same operations. -/
def SameOperations : Option Trx → Option Trx → Prop
  | none, none => True
  | some trx, some trx' => ∀ rid, trx'.findOperation rid = trx.findOperation rid
  | _, _ => False

/-- The records, the entries of the indexes and the operations of the transaction are those of
before. -/
structure Unchanged (t : Table V A) (trx : Option Trx) (t' : Table V A) (trx' : Option Trx) :
    Prop where
  record_eq : t'.record = t.record
  indexes_eq : t'.indexes = t.indexes
  operations : SameOperations trx trx'

omit [Inhabited V] in
theorem Unchanged.refl (t : Table V A) (trx : Option Trx) : t.Unchanged trx t trx := by
  refine ⟨rfl, rfl, ?_⟩
  cases trx with
  | none => trivial
  | some trx => exact fun _ => rfl

omit [Inhabited V] in
/-- The records that an insertion leaves are those of before if it does not take a page that has
records. -/
theorem wiped_eq_iff {t : Table V A} : t.records.wiped = t.record ↔ t.KeepsRecords := by
  refine ⟨fun h rid data hrid hreused => ?_, KeepsRecords.wiped_eq⟩
  rw [← h, RecordFile.wiped, if_pos hreused] at hrid
  cases hrid

/-! ## Insertions -/

/-- The record cannot be put into the file. -/
def InsertRecordFails (t : Table V A) (fault : Option RowFault) (data : RecordData V) : Prop :=
  (∃ rc, fault = some (.record rc)) ∨
    ∃ rc records, t.records.insertRecord t.recordCapacity data = some (.error rc, records)

/-- The step that fails is one that is undone: the record, whose transaction field is written
already, cannot be put into the file; or the transaction has inserted the record before; or there is
no transaction, and an index fails that does not have the entry. A record that has been put into the
file can be taken out without a trace if its page has not been taken from other records. -/
def InsertUndone (t : Table V A) (fault : Option RowFault) (trx : Option Trx)
    (data : RecordData V) : Prop :=
  t.InsertRecordFails fault data ∨
    ∃ rid records, t.records.insertRecord t.recordCapacity data = some (.ok rid, records) ∧
      t.KeepsRecords ∧
      ((∃ x, trx = some x ∧ x.findOperation rid = some .insert) ∨
        trx = none ∧ ∃ k rc, fault = some (.index k rc) ∧ k < t.indexes.length ∧
          ∀ index ∈ t.indexes.take (k + 1), ¬ index.Lists data.values rid)

omit [Inhabited V] in
/-- The records of a failed insertion. -/
theorem undoInsert_record {t : Table V A} {records : RecordFile (RecordData V)} {rid : RID}
    {data : RecordData V} (h : t.records.Inserted records t.recordCapacity rid data)
    (indexes : List (TableIndex V A)) :
    ({ t with records := records, indexes := indexes }.undoInsert rid).record = t.records.wiped :=
  deleteRecord_inserted h

omit [Inhabited V] in
/-- Without a transaction, an insertion that fails at an index is undone if the index does not have
the entry. -/
theorem tryInsertIndexes_none {t : Table V A} {records : RecordFile (RecordData V)} {rid : RID}
    {data : RecordData V} {fault : Option RowFault}
    (hins : t.records.Inserted records t.recordCapacity rid data) (hord : t.OrdersKeys data.values)
    {rc : RC} {t' : Table V A} {trx' : Option Trx}
    (h : tryInsertIndexes { t with records := records } fault none rid data =
      (.error rc, t', trx')) :
    t.Unchanged none t' trx' ↔ t.KeepsRecords ∧ ∃ k rc, fault = some (.index k rc) ∧
      k < t.indexes.length ∧ ∀ i ∈ t.indexes.take (k + 1), ¬ i.Lists data.values rid := by
  unfold tryInsertIndexes at h
  rcases tryInsertEntries_cases (indexFault fault) hord rid with
    ⟨heq, -⟩ | ⟨pre, index, post, rc₁, hstops, hrc, heq⟩
  · simp [heq, logInsert] at h
  · have hpre : ∀ i ∈ pre, i.Lacks data.values rid := by
      intro i hi
      have hordi := hord i (by simp [hstops.indexes_eq, hi])
      exact hordi.not_lists_iff.mp ((insertEntry_success_iff hordi).mp (hstops.before i hi))
    have hindex : index.Orders [index.field data.values] :=
      hord index (by simp [hstops.indexes_eq])
    have hundo : (deleteEntryOfIndexes true ((pre.map fun i =>
        (i.insertEntry data.values rid).2) ++ index :: post) data.values rid).2 =
        pre ++ (deleteEntryOfIndexes true (index :: post) data.values rid).2 :=
      undo_inserted (List.cons_ne_nil _ _) hpre
    simp only [heq] at h
    cases h
    rw [← stopsAt_clean_iff hord hstops, ← wiped_eq_iff, ← undo_failed hindex]
    constructor
    · rintro ⟨hrecord, hindexes, -⟩
      refine ⟨(undoInsert_record hins _).symm.trans hrecord, ?_⟩
      have hall : pre ++ (deleteEntryOfIndexes true (index :: post) data.values rid).2 =
          pre ++ index :: post := hundo.symm.trans (hindexes.trans hstops.indexes_eq)
      exact List.append_cancel_left hall
    · rintro ⟨hwiped, hindexes⟩
      refine ⟨(undoInsert_record hins _).trans hwiped, ?_, trivial⟩
      refine hundo.trans ?_
      rw [hindexes, hstops.indexes_eq]

omit [Inhabited V] in
/-- A transaction that has recorded the insertion keeps the operation. -/
theorem tryInsertIndexes_some {t t' : Table V A} {fault : Option RowFault} {x : Trx}
    {trx' : Option Trx} {rid : RID} {data : RecordData V} {r : Except RC RID}
    (h : t.tryInsertIndexes fault (some x) rid data = (r, t', trx')) : trx' = some x := by
  unfold tryInsertIndexes logInsert at h
  split at h
  · cases h
    rfl
  · cases h
    rfl

omit [Inhabited V] in
/-- An operation that has been recorded is a change. -/
theorem not_unchanged_of_recorded {t t' : Table V A} {x x' : Trx} {rid : RID}
    (h : x'.findOperation rid ≠ x.findOperation rid) : ¬ t.Unchanged (some x) t' (some x') :=
  fun hun => h (hun.operations rid)

theorem tryInsertIntoFile_cases {t : Table V A} (hinv : t.records.Inv t.recordCapacity)
    (fault : Option RowFault) (data : RecordData V) :
    (t.InsertRecordFails fault data ∧ ∃ rc records,
      t.tryInsertIntoFile fault data = some (.error rc, records) ∧ records.record = t.record) ∨
    ¬ t.InsertRecordFails fault data ∧ ∃ rid records,
      t.tryInsertIntoFile fault data = some (.ok rid, records) ∧
        t.records.insertRecord t.recordCapacity data = some (.ok rid, records) ∧
        t.records.Inserted records t.recordCapacity rid data := by
  by_cases hfault : ∃ rc, fault = some (.record rc)
  · obtain ⟨rc, rfl⟩ := hfault
    exact Or.inl ⟨Or.inl ⟨rc, rfl⟩, rc, t.records, rfl, rfl⟩
  · have heq : t.tryInsertIntoFile fault data = t.records.insertRecord t.recordCapacity data := by
      unfold tryInsertIntoFile
      split
      · rename_i rc
        exact absurd ⟨rc, rfl⟩ hfault
      · rfl
    rw [heq]
    rcases hinv.insertRecord data with ⟨rid, records, hok, hins⟩ | ⟨rc, records, herr, -⟩
    · refine Or.inr ⟨?_, rid, records, hok, hok, hins⟩
      rintro (hrecord | ⟨rc, records', herr⟩)
      · exact hfault hrecord
      · rw [hok] at herr
        cases herr
    · exact Or.inl ⟨Or.inr ⟨rc, records, herr⟩, rc, records, herr, insertRecord_error hinv herr⟩

/-- **Failed insertions** that are undone. The cases are those of the transaction. -/
theorem tryInsertRecord_unchanged_iff {t : Table V A} (hinv : t.records.Inv t.recordCapacity)
    {fault : Option RowFault} {trx trx' : Option Trx} {data : RecordData V} {rc : RC}
    {t' : Table V A} (hord : t.OrdersKeys data.values)
    (h : t.tryInsertRecord fault trx data = some (.error rc, t', trx')) :
    t.Unchanged trx t' trx' ↔ t.InsertUndone fault trx (initRecord trx data) := by
  have hord' : t.OrdersKeys (initRecord trx data).values := by
    cases trx <;> exact hord
  unfold tryInsertRecord at h
  generalize initRecord trx data = data' at h hord' ⊢
  rcases tryInsertIntoFile_cases hinv fault data' with
    ⟨hfails, rc₁, records, heq, hrecord⟩ | ⟨hfails, rid, records, heq, hok, hins⟩
  · simp only [heq, Option.bind_eq_bind, Option.bind_some, Option.pure_def, Option.some_inj] at h
    cases h
    exact iff_of_true ⟨hrecord, rfl, (Unchanged.refl t trx).operations⟩ (Or.inl hfails)
  · have hcond : t.InsertUndone fault trx data' ↔ t.KeepsRecords ∧
        ((∃ x, trx = some x ∧ x.findOperation rid = some .insert) ∨
          trx = none ∧ ∃ k rc, fault = some (.index k rc) ∧ k < t.indexes.length ∧
            ∀ index ∈ t.indexes.take (k + 1), ¬ index.Lists data'.values rid) := by
      constructor
      · rintro (h | ⟨rid', records', hok', hrest⟩)
        · exact absurd h hfails
        · rw [hok] at hok'
          cases hok'
          exact hrest
      · exact fun hrest => Or.inr ⟨rid, records, hok, hrest⟩
    rw [hcond]
    simp only [heq, Option.bind_eq_bind, Option.bind_some, Option.pure_def] at h
    cases trx with
    | none =>
      rw [tryInsertIndexes_none hins hord' (Option.some.inj h)]
      simp
    | some x =>
      rcases x.insertRecord_spec rid with ⟨hfind, hx⟩ | ⟨hfind, x', hx, -, -, hfind'⟩
      · simp only [hx] at h
        cases h
        rw [← wiped_eq_iff]
        have hrecord := undoInsert_record hins t.indexes
        constructor
        · exact fun hun => ⟨hrecord.symm.trans hun.record_eq, Or.inl ⟨x, rfl, hfind⟩⟩
        · exact fun hrest => ⟨hrecord.trans hrest.1, rfl, fun _ => rfl⟩
      · simp only [hx] at h
        have htrx := tryInsertIndexes_some (Option.some.inj h)
        rw [htrx]
        have hne : x'.findOperation rid ≠ x.findOperation rid := by
          rw [hfind', if_pos rfl]
          exact fun heq => hfind heq.symm
        refine iff_of_false (not_unchanged_of_recorded hne) ?_
        rintro ⟨-, ⟨y, hy, hins'⟩ | ⟨hnone, -⟩⟩
        · cases hy
          exact hfind hins'
        · cases hnone

/-! ## Deletions -/

/-- The page has no such record, and its handler says so. -/
def DeleteRecordFails (t : Table V A) (rid : RID) : Prop :=
  (t.records.deleteRecord rid).1 ≠ .success

/-- The step that fails is the first one: the deletion from the first index, or if there is none the
deletion from the file. Failing to write the log counts only where nothing is deleted: on a page
that cannot be read, of a record that the transaction has deleted before. -/
def DeleteUndone (t : Table V A) (fault : Option RowFault) (trx : Option Trx) (rid : RID)
    (data : RecordData V) : Prop :=
  (∃ index rest, t.indexes = index :: rest ∧
    ((∃ rc, fault = some (.index 0 rc)) ∨ ¬ index.Lists data.values rid)) ∨
  t.indexes = [] ∧ (t.DeleteRecordFails rid ∨
    t.record rid = none ∧ ∃ x, trx = some x ∧ x.findOperation rid = some .delete)

omit [Inhabited V] in
/-- What the file does if the page can be had. -/
theorem tryDeleteFromFile_cases {t : Table V A} (hinv : t.records.Inv t.recordCapacity)
    {fault : Option RowFault} (hfault : ∀ rc, fault ≠ some (.record rc)) {rid : RID}
    (hslot : 0 ≤ rid.slotNum) :
    (t.DeleteRecordFails rid ∧ ∃ rc records, rc ≠ .success ∧
      t.tryDeleteFromFile fault rid = (rc, records) ∧ records.record = t.record) ∨
    ¬ t.DeleteRecordFails rid ∧ ∃ records,
      t.tryDeleteFromFile fault rid = (.success, records) ∧
        (records.record = t.record ↔ t.record rid = none) := by
  have heq : t.tryDeleteFromFile fault rid = t.records.deleteRecord rid := by
    unfold tryDeleteFromFile
    split
    · rename_i rc
      exact absurd rfl (hfault rc)
    · rfl
  rw [heq]
  cases hrid : t.record rid with
  | none =>
    obtain ⟨rc, hdel, -⟩ := RecordFile.deleteRecord_of_none hslot hrid
    by_cases hrc : rc = .success
    · subst hrc
      exact Or.inr ⟨fun h => h (congrArg Prod.fst hdel), t.records, hdel, iff_of_true rfl rfl⟩
    · refine Or.inl ⟨?_, rc, t.records, hrc, hdel, rfl⟩
      rw [DeleteRecordFails, hdel]
      exact hrc
  | some data =>
    obtain ⟨records, hdel, hd⟩ := hinv.deleteRecord hrid
    refine Or.inr ⟨fun h => h (congrArg Prod.fst hdel), records, hdel,
      iff_of_false (fun h => ?_) (by simp)⟩
    have hgone : records.record rid = none := by
      rw [hd.record, Function.update_self]
    rw [h, hrid] at hgone
    cases hgone

omit [Inhabited V] in
/-- Indexes that all lose an entry are the same only if there are none. -/
theorem map_deleteEntry_eq_iff {indexes : List (TableIndex V A)} {values : V} {rid : RID}
    (h : ∀ index ∈ indexes, index.Lists values rid) (rest : List (TableIndex V A)) :
    (indexes.map fun index => (index.deleteEntry values rid).2) ++ rest = indexes ++ rest ↔
      indexes = [] := by
  cases indexes with
  | nil => simp
  | cons index indexes =>
    refine iff_of_false (fun heq => ?_) (List.cons_ne_nil _ _)
    exact deleteEntry_ne (h index List.mem_cons_self) (List.cons.inj heq).1

omit [Inhabited V] in
/-- **Failed deletions** that change nothing. The cases are those of the loop over the indexes. -/
theorem tryDeleteRecord_unchanged_iff {t : Table V A} (hinv : t.records.Inv t.recordCapacity)
    {fault : Option RowFault} {counter counter' : BitVec 32} {trx trx' : Option Trx} {rid : RID}
    (hslot : 0 ≤ rid.slotNum) {data : RecordData V} {rc : RC} {t' : Table V A}
    (hord : t.OrdersKeys data.values)
    (h : t.tryDeleteRecord fault counter trx rid data = (rc, t', trx', counter'))
    (hrc : rc ≠ .success) :
    t.Unchanged trx t' trx' ↔ t.DeleteUndone fault trx rid data := by
  unfold tryDeleteRecord at h
  rcases tryDeleteEntries_cases (indexFault fault) hord rid with
    ⟨heq, hall, hnofault⟩ | ⟨pre, index, post, rc₁, hstops, hrc₁, heq⟩
  · have hlists : ∀ index ∈ t.indexes, index.Lists data.values rid :=
      fun index hmem => (deleteEntry_success_iff (hord index hmem)).mp (hall index hmem)
    have hindexes := map_deleteEntry_eq_iff hlists []
    rw [List.append_nil, List.append_nil] at hindexes
    have hcond : t.DeleteUndone fault trx rid data ↔ t.indexes = [] ∧
        (t.DeleteRecordFails rid ∨
          t.record rid = none ∧ ∃ x, trx = some x ∧ x.findOperation rid = some .delete) := by
      refine ⟨?_, Or.inr⟩
      rintro (⟨index, rest, hcons, ⟨rc, hfault⟩ | hnot⟩ | hnil)
      · have hle := hnofault 0 rc (indexFault_eq_some.mpr hfault)
        rw [hcons] at hle
        exact absurd hle (by simp)
      · exact absurd (hlists index (hcons ▸ List.mem_cons_self)) hnot
      · exact hnil
    rw [hcond]
    simp only [heq] at h
    have hfile : ∀ indexes : List (TableIndex V A), tryDeleteFromFile { t with indexes := indexes }
        fault rid = t.tryDeleteFromFile fault rid := fun _ => rfl
    rw [hfile] at h
    have hpage : ∀ rc, fault ≠ some (.record rc) := by
      -- nothing is reported if the page cannot be had
      rintro rc rfl
      cases trx <;> cases h <;> exact hrc rfl
    rcases tryDeleteFromFile_cases hinv hpage hslot with
      ⟨hfails, rc₁, records, hrc₁, hdel, hrecord⟩ | ⟨hfails, records, hdel, hrecord⟩
    · rw [hdel, if_pos hrc₁] at h
      cases h
      have hsame := (Unchanged.refl t trx).operations
      exact ⟨fun hun => ⟨hindexes.mp hun.indexes_eq, Or.inl hfails⟩,
        fun hnil => ⟨hrecord, hindexes.mpr hnil.1, hsame⟩⟩
    · rw [hdel, if_neg (by simp)] at h
      cases trx with
      | none =>
        cases h
        exact absurd rfl hrc
      | some x =>
        cases h
        obtain ⟨-, -, -, hfind⟩ := x.deleteRecord_spec counter rid
        constructor
        · rintro ⟨hrec, hidx, hops⟩
          refine ⟨hindexes.mp hidx, Or.inr ⟨hrecord.mp hrec, x, rfl, ?_⟩⟩
          -- the operation that is recorded is the one that was there
          have hop := hops rid
          rw [hfind, if_pos rfl] at hop
          by_cases hins : x.findOperation rid = some .insert
          · rw [if_pos hins, hins] at hop
            cases hop
          · rw [if_neg hins] at hop
            exact hop.symm
        · rintro ⟨hnil, hfails' | ⟨hnone, y, hy, hdelete⟩⟩
          · exact absurd hfails' hfails
          · cases hy
            refine ⟨hrecord.mpr hnone, hindexes.mpr hnil, fun r => ?_⟩
            rw [hfind]
            by_cases hr : r = rid
            · rw [if_pos hr, if_neg (by simp [hdelete]), hr, hdelete]
            · rw [if_neg hr]
  · simp only [heq] at h
    cases h
    have hlists : ∀ index ∈ pre, index.Lists data.values rid := fun i hi =>
      (deleteEntry_success_iff (hord i (by simp [hstops.indexes_eq, hi]))).mp (hstops.before i hi)
    have hindex : index.Orders [index.field data.values] :=
      hord index (by simp [hstops.indexes_eq])
    have hindexes := map_deleteEntry_eq_iff hlists (index :: post)
    rw [← hstops.indexes_eq] at hindexes
    have hsame := (Unchanged.refl t trx).operations
    have hfirst : t.DeleteUndone fault trx rid data ↔ pre = [] := by
      constructor
      · rintro (⟨i, rest, hcons, hcause⟩ | ⟨hnil, -⟩)
        · cases pre with
          | nil => rfl
          | cons p pre =>
            obtain rfl : p = i := (List.cons.inj (hstops.indexes_eq.symm.trans hcons)).1
            rcases hcause with ⟨rc, hfault⟩ | hnot
            · exact absurd (hstops.notBefore 0 rc (indexFault_eq_some.mpr hfault)) (by simp)
            · exact absurd (hlists p List.mem_cons_self) hnot
        · exact absurd (hstops.indexes_eq.symm.trans hnil) (by simp)
      · rintro rfl
        refine Or.inl ⟨index, post, hstops.indexes_eq, ?_⟩
        exact hstops.cause.imp (fun ⟨rc, hfault⟩ => ⟨rc, indexFault_eq_some.mp hfault⟩)
          (mt (deleteEntry_success_iff hindex).mpr)
    rw [hfirst, ← hindexes]
    exact ⟨fun hun => hun.indexes_eq, fun heq => ⟨rfl, heq, hsame⟩⟩

/-- **Row changes that fail.** A failed insertion leaves the records, the indexes and the operations
of the transaction as they were if and only if its step is one that is undone: the record could not
be put into the file, the transaction had inserted it before, or there is no transaction and an
index failed. A failed deletion does so if and only if the first step fails. The comparators order
the keys of the row. -/
theorem row_change_restored_iff (t : Table V A) (hinv : t.records.Inv t.recordCapacity) :
    (∀ (fault : Option RowFault) (trx trx' : Option Trx) (data : RecordData V) (rc : RC)
      (t' : Table V A), t.OrdersKeys data.values →
        t.tryInsertRecord fault trx data = some (.error rc, t', trx') →
        (t.Unchanged trx t' trx' ↔ t.InsertUndone fault trx (initRecord trx data))) ∧
    ∀ (fault : Option RowFault) (counter counter' : BitVec 32) (trx trx' : Option Trx) (rid : RID)
      (data : RecordData V) (rc : RC) (t' : Table V A), 0 ≤ rid.slotNum →
        t.OrdersKeys data.values →
        t.tryDeleteRecord fault counter trx rid data = (rc, t', trx', counter') → rc ≠ .success →
          (t.Unchanged trx t' trx' ↔ t.DeleteUndone fault trx rid data) :=
  ⟨fun _ _ _ _ _ _ hord h => tryInsertRecord_unchanged_iff hinv hord h,
    fun _ _ _ _ _ _ _ _ _ hslot hord h hrc =>
      tryDeleteRecord_unchanged_iff hinv hslot hord h hrc⟩

/-- No page is free. -/
def noFrame : Failure := ⟨.bufferpoolNobuf, by decide⟩

/-- Without a transaction, the insertion of a row into a table whose index fails is undone. -/
theorem failed_insertion_undone : ∃ t',
    sampleTable.tryInsertRecord (some (.index 0 noFrame)) none ⟨0, 7⟩ =
      some (.error .bufferpoolNobuf, t', none) ∧ sampleTable.Unchanged none t' none := by
  refine ⟨_, rfl, ?_⟩
  refine ((row_change_restored_iff sampleTable sampleTable_consistent.inv).1 _ _ _ _ _ _
    (by decide) rfl).mpr (Or.inr ⟨_, _, rfl, keepsRecords_of_reusedPage rfl,
      Or.inr ⟨rfl, 0, noFrame, rfl, by decide, ?_⟩⟩)
  decide

/-- A table with two indexes on its column. -/
def twoIndexes : Table ℕ ℤ :=
  { sampleTable with indexes := [numberColumn.newIndex, numberColumn.newIndex] }

/-- The same insertion with a transaction leaves an operation on a record that is not there. The
deletion of a row whose entry cannot be taken out of the second index leaves the row without its
entry in the first. -/
theorem failed_change_left : (∃ t',
    sampleTable.tryInsertRecord (some (.index 0 noFrame)) (some ⟨1, []⟩) ⟨0, 7⟩ =
      some (.error .bufferpoolNobuf, t', some ⟨1, [(⟨1, 0⟩, .insert)]⟩) ∧
    t'.record ⟨1, 0⟩ = none ∧
    ¬ sampleTable.Unchanged (some ⟨1, []⟩) t' (some ⟨1, [(⟨1, 0⟩, .insert)]⟩)) ∧
    ∃ t t', twoIndexes.tryInsertRecord none none ⟨0, 7⟩ = some (.ok ⟨1, 0⟩, t, none) ∧
      t.tryDeleteRecord (some (.index 1 noFrame)) 0 none ⟨1, 0⟩ ⟨0, 7⟩ =
        (.bufferpoolNobuf, t', none, 0) ∧
      t'.record ⟨1, 0⟩ = some ⟨0, 7⟩ ∧ ¬ t.Unchanged none t' none := by
  refine ⟨⟨_, rfl, by decide, fun h => ?_⟩, _, _, rfl, rfl, by decide, fun h => ?_⟩
  · exact absurd (h.operations ⟨1, 0⟩) (by decide)
  · have hentries := congrArg (List.map fun index => index.entries.entries.length) h.indexes_eq
    exact absurd hentries (by decide)

end Table

end Miniob.Storage.Common
