import Miniob.Storage.Common.Table

/-!
# Indexes that agree with the records

* `TableIndex.Lists`, `TableIndex.Lacks`: the comparator orders the key of a record with those of
  the index, and the index has its entry, or not.
* `TableIndex.Covers`: every record has its entry in the index.
* `TableIndex.Matches`: the index has the entries of the records and no others, and the comparator
  orders them.
* `Table.Consistent`: all indexes of a table match its records.
* `Table.insertRecord_ok`, `Table.deleteRecord_of_some`, `Table.rollbackInsert_of_some`: what the
  calls of a table leave.
-/

namespace Miniob.Storage.Index.SortedSet

variable {K : Type} [LinearOrder K]

/-- A sorted set is determined by its entries. -/
theorem ext_mem {C D : SortedSet K} (h : ∀ e, e ∈ C.entries ↔ e ∈ D.entries) : C = D := by
  have hC : C.entries.Nodup := C.sorted.imp fun hlt heq => hlt.ne (congrArg Prod.fst heq)
  have hD : D.entries.Nodup := D.sorted.imp fun hlt heq => hlt.ne (congrArg Prod.fst heq)
  have hperm : C.entries.Perm D.entries := (List.perm_ext_iff_of_nodup hC hD).mpr h
  have : C.entries = D.entries :=
    hperm.eq_of_pairwise (fun _ _ _ _ hab hba => absurd hab hba.asymm) C.sorted D.sorted
  exact SortedSet.ext this

end Miniob.Storage.Index.SortedSet

namespace Miniob.Storage.Common

open Miniob.Common Miniob.Storage.Index Miniob.Storage.Record Miniob.Storage.Transaction

variable {V A : Type} [LinearOrder A]

/-! ## Calls whose keys the comparator orders -/

theorem IndexColumn.OrdersValues.mono {column : IndexColumn V A} {values values' : List A}
    (h : column.OrdersValues values) (hsub : ∀ v ∈ values', v ∈ values) :
    column.OrdersValues values' :=
  fun v hv => h v (hsub v hv)

namespace TableIndex

variable {index : TableIndex V A} {values : V} {rid : RID} {as bs : List A}

/-- The index has the entry of a record. -/
abbrev Lists (index : TableIndex V A) (values : V) (rid : RID) : Prop :=
  index.Orders [index.field values] ∧ index.entries.Contains (index.key values rid)

/-- The index can take the entry of a record. -/
abbrev Lacks (index : TableIndex V A) (values : V) (rid : RID) : Prop :=
  index.Orders [index.field values] ∧ ¬ index.entries.Contains (index.key values rid)

/-- Fewer values are ordered too. -/
theorem Orders.mono (h : index.Orders as) (hsub : ∀ b ∈ bs, b ∈ as) : index.Orders bs :=
  ⟨h.1, h.2.mono hsub⟩

theorem insertEntry_of_lists (h : index.Lists values rid) :
    index.insertEntry values rid = (.recordDuplicateKey, index) := by
  rw [insertEntry, if_pos h.1]
  simp only [IndexOp.reference]
  rw [dif_pos h.2]

theorem insertEntry_of_lacks (h : index.Lacks values rid) :
    index.insertEntry values rid =
      (.success, { index with entries := index.entries.insert (index.key values rid) rid h.2 }) := by
  rw [insertEntry, if_pos h.1]
  simp only [IndexOp.reference]
  rw [dif_neg h.2]

theorem deleteEntry_of_lists (h : index.Lists values rid) :
    index.deleteEntry values rid =
      (.success, { index with entries := index.entries.erase (index.key values rid) }) := by
  rw [deleteEntry, if_pos h.1]
  simp only [IndexOp.reference]
  rw [if_pos h.2]

theorem deleteEntry_of_lacks (h : index.Lacks values rid) :
    ∃ rc, index.deleteEntry values rid = (rc, index) ∧ rc ≠ .success ∧ rc ≠ .recordInvalidKey := by
  rw [deleteEntry, if_pos h.1]
  simp only [IndexOp.reference, if_neg h.2]
  refine ⟨_, rfl, ?_, ?_⟩ <;> split_ifs <;> decide

/-- An index that orders the key has its entry or not. -/
theorem Orders.lists_or_lacks (h : index.Orders [index.field values]) (rid : RID) :
    index.Lists values rid ∨ index.Lacks values rid := by
  by_cases hmem : index.entries.Contains (index.key values rid)
  · exact Or.inl ⟨h, hmem⟩
  · exact Or.inr ⟨h, hmem⟩

theorem Orders.not_lists_iff (h : index.Orders [index.field values]) :
    ¬ index.Lists values rid ↔ index.Lacks values rid :=
  ⟨fun hnot => ⟨h, fun hmem => hnot ⟨h, hmem⟩⟩, fun hlacks hlists => hlacks.2 hlists.2⟩

theorem mem_insertEntry (h : index.Lacks values rid) {e : IndexKey A × RID} :
    e ∈ (index.insertEntry values rid).2.entries.entries ↔
      e = (index.key values rid, rid) ∨ e ∈ index.entries.entries := by
  rw [insertEntry_of_lacks h]
  exact SortedSet.mem_insert (h := h.2)

theorem mem_deleteEntry (h : index.Lists values rid) {e : IndexKey A × RID} :
    e ∈ (index.deleteEntry values rid).2.entries.entries ↔
      e ∈ index.entries.entries ∧ e.1 ≠ index.key values rid := by
  rw [deleteEntry_of_lists h]
  exact SortedSet.mem_erase

theorem insertEntry_column (h : index.Lacks values rid) :
    (index.insertEntry values rid).2.toIndexColumn = index.toIndexColumn := by
  rw [insertEntry_of_lacks h]

theorem deleteEntry_column (h : index.Lists values rid) :
    (index.deleteEntry values rid).2.toIndexColumn = index.toIndexColumn := by
  rw [deleteEntry_of_lists h]

/-- A new entry keeps what the comparator orders. -/
theorem Orders.insertEntry (h : index.Orders as) (hlacks : index.Lacks values rid) :
    (index.insertEntry values rid).2.Orders as := by
  rw [insertEntry_of_lacks hlacks]
  exact h

end TableIndex

/-- The entries go to all indexes if none of them has one yet. -/
theorem insertEntryOfIndexes_of_lacks {indexes : List (TableIndex V A)} {values : V} {rid : RID}
    (h : ∀ index ∈ indexes, index.Lacks values rid) :
    insertEntryOfIndexes indexes values rid =
      (.success, indexes.map fun index => (index.insertEntry values rid).2) := by
  induction indexes with
  | nil => rfl
  | cons index indexes ih =>
    have hok := TableIndex.insertEntry_of_lacks (h index List.mem_cons_self)
    rw [insertEntryOfIndexes, hok, ih fun index' hmem => h index' (List.mem_cons_of_mem _ hmem),
      List.map_cons, hok]
    rfl

/-- The keys of the record have values that the comparators of the indexes order. -/
def Table.OrdersKeys (t : Table V A) (values : V) : Prop :=
  ∀ index ∈ t.indexes, index.Orders [index.field values]

instance (t : Table V A) (values : V) : Decidable (t.OrdersKeys values) :=
  inferInstanceAs (Decidable (∀ index ∈ t.indexes, index.Orders [index.field values]))

/-- The insertion fails if some index has the entry. -/
theorem lacks_of_insertEntryOfIndexes {indexes indexes' : List (TableIndex V A)} {values : V}
    {rid : RID} (hord : ∀ index ∈ indexes, index.Orders [index.field values])
    (h : insertEntryOfIndexes indexes values rid = (.success, indexes')) :
    ∀ index ∈ indexes, index.Lacks values rid := by
  induction indexes generalizing indexes' with
  | nil => simp
  | cons index indexes ih =>
    unfold insertEntryOfIndexes at h
    rcases (hord index List.mem_cons_self).lists_or_lacks rid with hl | hl
    · rw [TableIndex.insertEntry_of_lists hl] at h
      simp at h
    · rw [TableIndex.insertEntry_of_lacks hl] at h
      simp only [ne_eq, not_true_eq_false, if_false, Prod.mk.injEq] at h
      have hrest := ih (fun index' hmem => hord index' (List.mem_cons_of_mem _ hmem))
        (Prod.ext h.1 rfl)
      intro index' hmem
      rcases List.mem_cons.mp hmem with rfl | hmem
      · exact hl
      · exact hrest index' hmem

/-- The entries are deleted from all indexes if all of them have one. -/
theorem deleteEntryOfIndexes_of_lists {indexes : List (TableIndex V A)} {values : V} {rid : RID}
    (h : ∀ index ∈ indexes, index.Lists values rid) :
    deleteEntryOfIndexes false indexes values rid =
      (.success, indexes.map fun index => (index.deleteEntry values rid).2) := by
  induction indexes with
  | nil => rfl
  | cons index indexes ih =>
    have hok := TableIndex.deleteEntry_of_lists (h index List.mem_cons_self)
    have hrest := ih fun index' hmem => h index' (List.mem_cons_of_mem _ hmem)
    unfold deleteEntryOfIndexes
    cases indexes with
    | nil => simp [hok]
    | cons index' indexes => simp [hok, hrest]

/-! ## Indexes and records -/

section entries

variable {field : V → A} {entries entries' : SortedSet (IndexKey A)}
  {records : RID → Option (RecordData V)} {rid : RID} {data : RecordData V}

/-- The entries are those of the records. -/
def EntriesOf (field : V → A) (entries : SortedSet (IndexKey A))
    (records : RID → Option (RecordData V)) : Prop :=
  ∀ e, e ∈ entries.entries ↔
    ∃ rid data, records rid = some data ∧ e = (⟨field data.values, rid⟩, rid)

/-- Every entry is that of a record, and every record has its entry. -/
theorem entriesOf_iff : EntriesOf field entries records ↔
    (∀ e ∈ entries.entries, ∃ data ∈ records e.2, e.1 = ⟨field data.values, e.2⟩) ∧
      ∀ rid data, records rid = some data →
        ((⟨field data.values, rid⟩, rid) : IndexKey A × RID) ∈ entries.entries := by
  constructor
  · refine fun h => ⟨fun e he => ?_, fun rid data hrid => (h _).mpr ⟨rid, data, hrid, rfl⟩⟩
    obtain ⟨rid, data, hrid, rfl⟩ := (h e).mp he
    exact ⟨data, hrid, rfl⟩
  · refine fun h e => ⟨fun he => ?_, ?_⟩
    · obtain ⟨data, hdata, hkey⟩ := h.1 e he
      exact ⟨e.2, data, hdata, Prod.ext hkey rfl⟩
    · rintro ⟨rid, data, hrid, rfl⟩
      exact h.2 rid data hrid

/-- An entry belongs to the record of its identifier. -/
theorem EntriesOf.not_contains (h : EntriesOf field entries records) (hrid : records rid = none)
    (a : A) : ¬ entries.Contains ⟨a, rid⟩ := by
  rintro ⟨e, he, hkey⟩
  obtain ⟨rid', data, hrid', rfl⟩ := (h e).mp he
  have : rid' = rid := congrArg IndexKey.rid hkey
  rw [this, hrid] at hrid'
  cases hrid'

theorem EntriesOf.contains (h : EntriesOf field entries records) (hrid : records rid = some data) :
    entries.Contains ⟨field data.values, rid⟩ :=
  ⟨_, (h _).mpr ⟨rid, data, hrid, rfl⟩, rfl⟩

/-- Entries of the same records are the same. -/
theorem EntriesOf.eq (h : EntriesOf field entries records)
    (h' : EntriesOf field entries' records) : entries = entries' :=
  SortedSet.ext_mem fun e => (h e).trans (h' e).symm

theorem EntriesOf.insert (h : EntriesOf field entries records) (hrid : records rid = none)
    (h' : ∀ e, e ∈ entries'.entries ↔
      e = (⟨field data.values, rid⟩, rid) ∨ e ∈ entries.entries) :
    EntriesOf field entries' (Function.update records rid (some data)) := by
  intro e
  rw [h', h e]
  constructor
  · rintro (rfl | ⟨rid', data', hrid', rfl⟩)
    · exact ⟨rid, data, Function.update_self .., rfl⟩
    · have hne : rid' ≠ rid := by
        rintro rfl
        rw [hrid] at hrid'
        cases hrid'
      exact ⟨rid', data', by rwa [Function.update_of_ne hne], rfl⟩
  · rintro ⟨rid', data', hrid', rfl⟩
    by_cases hne : rid' = rid
    · subst hne
      rw [Function.update_self] at hrid'
      cases hrid'
      exact Or.inl rfl
    · rw [Function.update_of_ne hne] at hrid'
      exact Or.inr ⟨rid', data', hrid', rfl⟩

theorem EntriesOf.erase (h : EntriesOf field entries records) (hrid : records rid = some data)
    (h' : ∀ e, e ∈ entries'.entries ↔
      e ∈ entries.entries ∧ e.1 ≠ ⟨field data.values, rid⟩) :
    EntriesOf field entries' (Function.update records rid none) := by
  intro e
  rw [h', h e]
  constructor
  · rintro ⟨⟨rid', data', hrid', rfl⟩, hkey⟩
    have hne : rid' ≠ rid := by
      rintro rfl
      rw [hrid] at hrid'
      cases hrid'
      exact hkey rfl
    exact ⟨rid', data', by rwa [Function.update_of_ne hne], rfl⟩
  · rintro ⟨rid', data', hrid', rfl⟩
    have hne : rid' ≠ rid := by
      rintro rfl
      rw [Function.update_self] at hrid'
      cases hrid'
    rw [Function.update_of_ne hne] at hrid'
    exact ⟨⟨rid', data', hrid', rfl⟩, fun hkey => hne (congrArg IndexKey.rid hkey)⟩

/-- The entries say nothing of the transaction field of a record. -/
theorem EntriesOf.of_values {records' : RID → Option (RecordData V)}
    (h : EntriesOf field entries records)
    (hvalues : ∀ rid, (records' rid).map RecordData.values = (records rid).map RecordData.values) :
    EntriesOf field entries records' := by
  have hsome : ∀ {records records' : RID → Option (RecordData V)},
      (∀ rid, (records' rid).map RecordData.values = (records rid).map RecordData.values) →
      ∀ {rid data}, records rid = some data → ∃ data', records' rid = some data' ∧
        data'.values = data.values := by
    intro records records' hvalues rid data hrid
    have hmap := hvalues rid
    rw [hrid, Option.map_some, Option.map_eq_some_iff] at hmap
    exact hmap
  intro e
  rw [h e]
  constructor
  · rintro ⟨rid, data, hrid, rfl⟩
    obtain ⟨data', hrid', heq⟩ := hsome hvalues hrid
    exact ⟨rid, data', hrid', by rw [heq]⟩
  · rintro ⟨rid, data, hrid, rfl⟩
    obtain ⟨data', hrid', heq⟩ := hsome (fun rid => (hvalues rid).symm) hrid
    exact ⟨rid, data', hrid', by rw [heq]⟩

end entries

namespace TableIndex

variable {index : TableIndex V A} {records : RID → Option (RecordData V)} {rid : RID}
  {data : RecordData V}

/-- Every record has its entry. -/
def Covers (index : TableIndex V A) (records : RID → Option (RecordData V)) : Prop :=
  ∀ rid data, records rid = some data → index.Lists data.values rid

/-- The entries are those of the records, and the comparator orders them. -/
structure Matches (index : TableIndex V A) (records : RID → Option (RecordData V)) : Prop where
  orders : index.Orders (index.entries.entries.map fun e => e.1.attr)
  entries : EntriesOf index.field index.entries records

instance (file : RecordFile (RecordData V)) : Decidable (index.Matches file.record) :=
  decidable_of_iff (index.Orders (index.entries.entries.map fun e => e.1.attr) ∧
      (∀ e ∈ index.entries.entries, ∃ data ∈ file.record e.2,
        e.1 = ⟨index.field data.values, e.2⟩) ∧
      ∀ rid data, file.record rid = some data →
        ((⟨index.field data.values, rid⟩, rid) : IndexKey A × RID) ∈ index.entries.entries)
    ⟨fun h => ⟨h.1, entriesOf_iff.mpr h.2⟩, fun h => ⟨h.orders, entriesOf_iff.mp h.entries⟩⟩

/-- The comparator orders the values of the records. -/
theorem Matches.orders_record (h : index.Matches records) (hrid : records rid = some data) :
    index.Orders [index.field data.values] := by
  refine h.orders.mono fun b hb => ?_
  rw [List.mem_singleton.mp hb]
  exact List.mem_map.mpr ⟨_, (h.entries _).mpr ⟨rid, data, hrid, rfl⟩, rfl⟩

theorem Matches.covers (h : index.Matches records) : index.Covers records :=
  fun _ _ hrid => ⟨h.orders_record hrid, h.entries.contains hrid⟩

/-- An index can take the entry of a record that is not there. -/
theorem Matches.lacks (h : index.Matches records) (hrid : records rid = none) {values : V}
    (hord : index.Orders [index.field values]) : index.Lacks values rid :=
  ⟨hord, h.entries.not_contains hrid _⟩

theorem Matches.insertEntry (h : index.Matches records) (hrid : records rid = none)
    (hord : index.Orders [index.field data.values]) :
    (index.insertEntry data.values rid).2.Matches (Function.update records rid (some data)) := by
  have hlacks := h.lacks hrid hord
  have hmem := fun e => @mem_insertEntry _ _ _ _ _ _ hlacks e
  rw [insertEntry_of_lacks hlacks] at hmem ⊢
  refine ⟨⟨h.orders.1, fun v hv => ?_⟩, h.entries.insert hrid hmem⟩
  obtain ⟨e, he, rfl⟩ := List.mem_map.mp hv
  rcases (hmem e).mp he with rfl | he
  · exact hord.2 _ List.mem_cons_self
  · exact h.orders.2 _ (List.mem_map.mpr ⟨e, he, rfl⟩)

theorem Matches.deleteEntry (h : index.Matches records) (hrid : records rid = some data) :
    (index.deleteEntry data.values rid).2.Matches (Function.update records rid none) := by
  have hlists := h.covers rid data hrid
  have hmem := fun e => @mem_deleteEntry _ _ _ _ _ _ hlists e
  rw [deleteEntry_of_lists hlists] at hmem ⊢
  refine ⟨h.orders.mono fun v hv => ?_, h.entries.erase hrid hmem⟩
  obtain ⟨e, he, rfl⟩ := List.mem_map.mp hv
  exact List.mem_map.mpr ⟨e, ((hmem e).mp he).1, rfl⟩

theorem Matches.of_values {records' : RID → Option (RecordData V)} (h : index.Matches records)
    (hvalues : ∀ rid, (records' rid).map RecordData.values = (records rid).map RecordData.values) :
    index.Matches records' :=
  ⟨h.orders, h.entries.of_values hvalues⟩

/-- The transaction field of a record is not indexed. -/
theorem Matches.update {data' : RecordData V} (h : index.Matches records)
    (hrid : records rid = some data) (hvalues : data'.values = data.values) :
    index.Matches (Function.update records rid (some data')) := by
  refine h.of_values fun r => ?_
  by_cases hr : r = rid
  · subst hr
    rw [Function.update_self, hrid, Option.map_some, Option.map_some, hvalues]
  · rw [Function.update_of_ne hr]

/-- Two indexes on one column that match the same records are the same. -/
theorem Matches.eq {index' : TableIndex V A} (h : index.Matches records)
    (h' : index'.Matches records) (hcolumn : index.toIndexColumn = index'.toIndexColumn) :
    index = index' := by
  obtain ⟨⟨hordered, -⟩, hentries⟩ := h
  obtain ⟨⟨hordered', -⟩, hentries'⟩ := h'
  obtain ⟨column, ordered, entries⟩ := index
  obtain ⟨column', ordered', entries'⟩ := index'
  obtain rfl : column = column' := hcolumn
  obtain rfl : ordered = true := hordered
  obtain rfl : ordered' = true := hordered'
  obtain rfl : entries = entries' := EntriesOf.eq hentries hentries'
  rfl

theorem Covers.insertEntry (h : index.Covers records) (hlacks : index.Lacks data.values rid) :
    (index.insertEntry data.values rid).2.Covers (Function.update records rid (some data)) := by
  have hmem := fun e => @mem_insertEntry _ _ _ _ _ _ hlacks e
  rw [insertEntry_of_lacks hlacks] at hmem ⊢
  intro r d hr
  by_cases hrr : r = rid
  · subst hrr
    rw [Function.update_self] at hr
    cases hr
    exact ⟨hlacks.1, _, (hmem _).mpr (Or.inl rfl), rfl⟩
  · rw [Function.update_of_ne hrr] at hr
    obtain ⟨hord, e, he, hkey⟩ := h r d hr
    exact ⟨hord, e, (hmem e).mpr (Or.inr he), hkey⟩

theorem Covers.deleteEntry (h : index.Covers records) (hrid : records rid = some data) :
    (index.deleteEntry data.values rid).2.Covers (Function.update records rid none) := by
  have hlists := h rid data hrid
  have hmem := fun e => @mem_deleteEntry _ _ _ _ _ _ hlists e
  rw [deleteEntry_of_lists hlists] at hmem ⊢
  intro r d hr
  have hrr : r ≠ rid := by
    rintro rfl
    rw [Function.update_self] at hr
    cases hr
  rw [Function.update_of_ne hrr] at hr
  obtain ⟨hord, e, he, hkey⟩ := h r d hr
  refine ⟨hord, e, (hmem e).mpr ⟨he, ?_⟩, hkey⟩
  rw [hkey]
  exact fun heq => hrr (congrArg IndexKey.rid heq)

/-- Fewer records need fewer entries. -/
theorem Covers.mono (h : index.Covers records) {records' : RID → Option (RecordData V)}
    (hsub : ∀ rid data, records' rid = some data →
      ∃ data', records rid = some data' ∧ data'.values = data.values) : index.Covers records' := by
  intro rid data hrid
  obtain ⟨data', hrid', hvalues⟩ := hsub rid data hrid
  rw [← hvalues]
  exact h rid data' hrid'

end TableIndex

/-- A new index matches no records. -/
theorem IndexColumn.newIndex_matches (column : IndexColumn V A)
    {records : RID → Option (RecordData V)} (h : ∀ rid, records rid = none) :
    column.newIndex.Matches records := by
  refine ⟨⟨rfl, fun v hv => ?_⟩, fun e => ⟨fun he => ?_, ?_⟩⟩
  · cases hv
  · cases he
  · rintro ⟨rid, data, hrid, -⟩
    rw [h rid] at hrid
    cases hrid

/-- Every index of the table matches the records, and the records are in order. -/
structure Table.Consistent (t : Table V A) : Prop where
  inv : t.records.Inv t.recordCapacity
  indexes : ∀ index ∈ t.indexes, index.Matches t.record

variable [Inhabited V]

/-! ## What the calls of a table do -/

/-- A successful insertion. -/
theorem Table.insertRecord_ok {t t' : Table V A} {trx : Trx} {trx' : Option Trx}
    {data : RecordData V} {logRc : RC} {rid : RID} (hinv : t.records.Inv t.recordCapacity)
    (h : t.insertRecord (some trx) data logRc = some (.ok rid, t', trx')) :
    ∃ records indexes x, t.records.Inserted records t.recordCapacity rid (trx.initTrxInfo data) ∧
      trx.insertRecord rid = (.success, x) ∧ trx' = some x ∧
      insertEntryOfIndexes t.indexes data.values rid = (.success, indexes) ∧
      t' = { t with
        records := records
        indexes := indexes
        log := t.log ++ [.redoInsert x.trxId rid (trx.initTrxInfo data)] } := by
  unfold Table.insertRecord at h
  rcases hinv.insertRecord (trx.initTrxInfo data) with ⟨r, records, heq, hins⟩ | ⟨rc, records, heq, -⟩
  · simp only [heq, Option.bind_eq_bind, Option.bind_some] at h
    rcases trx.insertRecord_spec r with ⟨-, hx⟩ | ⟨-, x, hx, -⟩
    · rw [hx] at h
      simp at h
    · simp only [hx, Option.pure_def, Option.some_inj] at h
      unfold Table.insertEntries at h
      have hvalues : (trx.initTrxInfo data).values = data.values := rfl
      rw [hvalues] at h
      split at h
      · rename_i indexes hidx
        unfold Table.logInsert at h
        simp only [Prod.mk.injEq] at h
        obtain ⟨hok, rfl, rfl⟩ := h
        split at hok
        · cases hok
          exact ⟨records, indexes, x, hins, hx, rfl, hidx, rfl⟩
        · cases hok
      · simp at h
  · simp [heq] at h

omit [Inhabited V] in
/-- The indexes after a successful insertion whose keys are ordered. -/
theorem Table.OrdersKeys.indexes {t : Table V A} {values : V} {rid : RID}
    {indexes : List (TableIndex V A)} (hord : t.OrdersKeys values)
    (h : insertEntryOfIndexes t.indexes values rid = (.success, indexes)) :
    (∀ index ∈ t.indexes, index.Lacks values rid) ∧
      indexes = t.indexes.map fun index => (index.insertEntry values rid).2 := by
  have hlacks := lacks_of_insertEntryOfIndexes hord h
  rw [insertEntryOfIndexes_of_lacks hlacks, Prod.mk.injEq] at h
  exact ⟨hlacks, h.2.symm⟩

omit [Inhabited V] in
/-- The deletion of a record that is there. -/
theorem Table.deleteRecord_of_some {t : Table V A} (hinv : t.records.Inv t.recordCapacity)
    (hcovers : ∀ index ∈ t.indexes, index.Covers t.record) {rid : RID} {data : RecordData V}
    (hrid : t.record rid = some data) (counter : BitVec 32) (trx : Trx) (logRc : RC) :
    ∃ records, t.records.Deleted records t.recordCapacity rid ∧
      t.deleteRecord counter (some trx) rid data logRc =
        (logRc, { t with
          records := records
          indexes := t.indexes.map fun index => (index.deleteEntry data.values rid).2
          log := t.log ++ [.redoDelete (trx.deleteRecord counter rid).2.1.trxId rid] },
        some (trx.deleteRecord counter rid).2.1, (trx.deleteRecord counter rid).2.2) := by
  obtain ⟨records, hdel, hd⟩ := hinv.deleteRecord hrid
  refine ⟨records, hd, ?_⟩
  unfold Table.deleteRecord
  simp only [deleteEntryOfIndexes_of_lists fun index hmem => hcovers index hmem rid data hrid, hdel]

omit [Inhabited V] in
/-- Rolling an insertion back takes the record and its entries away. -/
theorem Table.rollbackInsert_of_some {t : Table V A} (hinv : t.records.Inv t.recordCapacity)
    (hcovers : ∀ index ∈ t.indexes, index.Covers t.record) {rid : RID} {data : RecordData V}
    (hrid : t.record rid = some data) :
    ∃ records, t.records.Deleted records t.recordCapacity rid ∧
      t.rollbackInsert rid = some (.success, { t with
        records := records
        indexes := t.indexes.map fun index => (index.deleteEntry data.values rid).2 }) := by
  obtain ⟨records, hdel, hd⟩ := hinv.deleteRecord hrid
  refine ⟨records, hd, ?_⟩
  unfold Table.rollbackInsert
  simp [RecordFile.getRecord_of_some hrid,
    deleteEntryOfIndexes_of_lists fun index hmem => hcovers index hmem rid data hrid, hdel]

/-! ## Consistent tables -/

namespace Table

variable {t : Table V A}

/-- An insertion does not take a page from the file header that has records. -/
def KeepsRecords (t : Table V A) : Prop :=
  ∀ rid data, t.record rid = some data → t.records.reusedPage ≠ some rid.pageNum.toNat

instance (t : Table V A) : Decidable t.KeepsRecords :=
  inferInstanceAs (Decidable
    (∀ rid data, t.record rid = some data → t.records.reusedPage ≠ some rid.pageNum.toNat))

omit [Inhabited V] in
theorem KeepsRecords.wiped_eq (h : t.KeepsRecords) : t.records.wiped = t.record := by
  funext rid
  unfold RecordFile.wiped
  split
  · rename_i hreused
    cases hrid : t.record rid with
    | none => rfl
    | some data => exact absurd hreused (h rid data hrid)
  · rfl

omit [Inhabited V] in
theorem keepsRecords_of_reusedPage (h : t.records.reusedPage = none) : t.KeepsRecords := by
  intro rid data _ hreused
  rw [h] at hreused
  cases hreused

/-- What changing the records of a table leaves as it is. -/
structure SameShape (t t' : Table V A) : Prop where
  recordCapacity : t'.recordCapacity = t.recordCapacity
  columns : t'.indexes.map TableIndex.toIndexColumn = t.indexes.map TableIndex.toIndexColumn

omit [Inhabited V] in
theorem SameShape.refl (t : Table V A) : t.SameShape t := ⟨rfl, rfl⟩

omit [Inhabited V] in
theorem SameShape.trans {t' t'' : Table V A} (h : t.SameShape t') (h' : t'.SameShape t'') :
    t.SameShape t'' :=
  ⟨h'.recordCapacity.trans h.recordCapacity, h'.columns.trans h.columns⟩

omit [Inhabited V] in
/-- The columns of the indexes, after a change of each of them. -/
theorem map_columns {indexes : List (TableIndex V A)} {f : TableIndex V A → TableIndex V A}
    (h : ∀ index ∈ indexes, (f index).toIndexColumn = index.toIndexColumn) :
    (indexes.map f).map TableIndex.toIndexColumn = indexes.map TableIndex.toIndexColumn := by
  rw [List.map_map]
  exact List.map_congr_left h

/-- An insertion into a consistent table adds a record with its entries, or nothing, if the
comparators order its keys. -/
theorem Consistent.insertRecord (h : t.Consistent) (hkeep : t.KeepsRecords) (trx : Trx)
    {data : RecordData V} (hord : t.OrdersKeys data.values) :
    (∃ rid t' trx', t.insertRecord (some trx) data .success = some (.ok rid, t', some trx') ∧
      t'.Consistent ∧ t.SameShape t' ∧ trx.insertRecord rid = (.success, trx') ∧
      t.record rid = none ∧
      t'.record = Function.update t.record rid (some (trx.initTrxInfo data)) ∧
      t'.log = t.log ++ [.redoInsert trx'.trxId rid (trx.initTrxInfo data)]) ∨
    ∃ rc t', t.insertRecord (some trx) data .success = some (.error rc, t', some trx) ∧
      t'.Consistent ∧ t.SameShape t' ∧ t'.record = t.record ∧ t'.log = t.log := by
  have hwiped := hkeep.wiped_eq
  unfold Table.insertRecord
  rcases h.inv.insertRecord (trx.initTrxInfo data) with
    ⟨rid, records, heq, hins⟩ | ⟨rc, records, heq, hchosen⟩
  · have hfresh : t.record rid = none := hwiped ▸ hins.fresh
    have hrec : records.record =
        Function.update t.record rid (some (trx.initTrxInfo data)) := hwiped ▸ hins.record
    simp only [heq, Option.bind_eq_bind, Option.bind_some]
    rcases trx.insertRecord_spec rid with ⟨-, hx⟩ | ⟨-, x, hx, -⟩
    · -- the transaction has the record already, and the record is taken out again
      have hsome : records.record rid = some (trx.initTrxInfo data) := by
        rw [hrec, Function.update_self]
      obtain ⟨records', hdel, hd⟩ := hins.inv.deleteRecord hsome
      have hback : records'.record = t.record := by
        rw [hd.record, hrec, Function.update_idem, ← hfresh, Function.update_eq_self]
      rw [hx]
      refine Or.inr ⟨_, _, rfl, ?_, ⟨rfl, rfl⟩, ?_, rfl⟩
      · rw [undoInsert, hdel]
        refine ⟨hd.inv, fun index hmem => ?_⟩
        show index.Matches records'.record
        rw [hback]
        exact h.indexes index hmem
      · rw [undoInsert, hdel]
        exact hback
    · have hlacks : ∀ index ∈ t.indexes, index.Lacks (trx.initTrxInfo data).values rid :=
        fun index hmem => (h.indexes index hmem).lacks hfresh (hord index hmem)
      rw [hx]
      simp only [Table.insertEntries, insertEntryOfIndexes_of_lacks hlacks]
      refine Or.inl ⟨rid, _, _, rfl, ⟨hins.inv, ?_⟩, ⟨rfl, ?_⟩, hx, hfresh, hrec, rfl⟩
      · intro index hmem
        obtain ⟨index₀, hmem₀, rfl⟩ := List.mem_map.mp hmem
        show TableIndex.Matches _ records.record
        rw [hrec]
        exact (h.indexes index₀ hmem₀).insertEntry hfresh (hord index₀ hmem₀)
      · exact map_columns fun index hmem => TableIndex.insertEntry_column (hlacks index hmem)
  · have hrec : records.record = t.record := hwiped ▸ hchosen.record
    simp only [heq, Option.bind_eq_bind, Option.bind_some]
    refine Or.inr ⟨rc, _, rfl, ⟨hchosen.inv, ?_⟩, ⟨rfl, rfl⟩, hrec, rfl⟩
    intro index hmem
    show index.Matches records.record
    rw [hrec]
    exact h.indexes index hmem

omit [Inhabited V] in
/-- The indexes without the entries of a record. -/
theorem Consistent.erase (h : t.Consistent) {rid : RID} {data : RecordData V}
    (hrid : t.record rid = some data) {records : RecordFile (RecordData V)}
    (hd : t.records.Deleted records t.recordCapacity rid) (log : List (LogRecord V)) :
    Consistent { t with
      records := records
      indexes := t.indexes.map fun index => (index.deleteEntry data.values rid).2
      log := log } := by
  refine ⟨hd.inv, ?_⟩
  intro index hmem
  obtain ⟨index₀, hmem₀, rfl⟩ := List.mem_map.mp hmem
  show TableIndex.Matches _ records.record
  rw [hd.record]
  exact (h.indexes index₀ hmem₀).deleteEntry hrid

omit [Inhabited V] in
theorem Consistent.sameShape_erase (h : t.Consistent) {rid : RID} {data : RecordData V}
    (hrid : t.record rid = some data) {records : RecordFile (RecordData V)}
    {log : List (LogRecord V)} :
    t.SameShape { t with
      records := records
      indexes := t.indexes.map fun index => (index.deleteEntry data.values rid).2
      log := log } :=
  ⟨rfl, map_columns fun index hmem =>
    TableIndex.deleteEntry_column ((h.indexes index hmem).covers rid data hrid)⟩

omit [Inhabited V] in
/-- A deletion from a consistent table takes a record with its entries away. -/
theorem Consistent.deleteRecord (h : t.Consistent) {rid : RID} {data : RecordData V}
    (hrid : t.record rid = some data) (counter : BitVec 32) (trx : Trx) :
    ∃ t', t.deleteRecord counter (some trx) rid data .success =
        (.success, t', some (trx.deleteRecord counter rid).2.1,
          (trx.deleteRecord counter rid).2.2) ∧
      t'.Consistent ∧ t.SameShape t' ∧ t'.record = Function.update t.record rid none ∧
      t'.log = t.log ++ [.redoDelete (trx.deleteRecord counter rid).2.1.trxId rid] := by
  obtain ⟨records, hd, heq⟩ := Table.deleteRecord_of_some h.inv
    (fun index hmem => (h.indexes index hmem).covers) hrid counter trx .success
  exact ⟨_, heq, h.erase hrid hd _, h.sameShape_erase hrid, hd.record, rfl⟩

/-- What the end of a transaction does to the records: some disappear, others lose the number of
the transaction. -/
def Settles (t t' : Table V A) : Prop :=
  ∀ rid data', t'.record rid = some data' → ∃ data, t.record rid = some data ∧
    (data' = data ∨ data' = data.setRecordTrxId 0 false)

omit [Inhabited V] in
theorem Settles.refl (t : Table V A) : t.Settles t := fun _ data hrid => ⟨data, hrid, Or.inl rfl⟩

omit [Inhabited V] in
theorem Settles.trans {t' t'' : Table V A} (h : t.Settles t') (h' : t'.Settles t'') :
    t.Settles t'' := by
  intro rid data'' hrid
  obtain ⟨data', hrid', hdata'⟩ := h' rid data'' hrid
  obtain ⟨data, hrid, hdata⟩ := h rid data' hrid'
  refine ⟨data, hrid, ?_⟩
  rcases hdata with rfl | rfl
  · exact hdata'
  · rcases hdata' with rfl | rfl <;> exact Or.inr rfl

omit [Inhabited V] in
/-- The end of an operation on a record that is not there changes nothing. -/
theorem endOperation_of_none {rid : RID} (hslot : 0 ≤ rid.slotNum) (hrid : t.record rid = none)
    {type : OperationType} {rc : RC} {t' : Table V A}
    (hstep : t.commitOperation (rid, type) = some (rc, t') ∨
      t.rollbackOperation (rid, type) = some (rc, t')) : t' = t := by
  rcases RecordFile.getRecord_of_none hslot hrid with hget | ⟨e, -, hget⟩
  · rcases hstep with hstep | hstep <;> cases type <;>
      simp [commitOperation, commitInsert, commitDelete, rollbackOperation, rollbackInsert,
        rollbackDelete, hget] at hstep
  · rcases hstep with hstep | hstep <;> cases type <;>
      simp [commitOperation, commitInsert, commitDelete, rollbackOperation, rollbackInsert,
        rollbackDelete, hget] at hstep <;> exact hstep.2.symm

omit [Inhabited V] in
/-- Writing 0 to the transaction field of a record. -/
theorem Consistent.setTrxId (h : t.Consistent) {rid : RID} {data : RecordData V}
    (hrid : t.record rid = some data) :
    (t.setTrxId rid data 0).Consistent ∧ t.SameShape (t.setTrxId rid data 0) ∧
      (t.setTrxId rid data 0).record =
        Function.update t.record rid (some (data.setRecordTrxId 0 false)) := by
  obtain ⟨records, hupd, hinv, hrec⟩ := h.inv.updateRecord hrid (data.setRecordTrxId 0 false)
  have hrec' : records.record =
    Function.update t.record rid (some (data.setRecordTrxId 0 false)) := hrec
  rw [Table.setTrxId, hupd]
  refine ⟨⟨hinv, ?_⟩, ⟨rfl, rfl⟩, hrec'⟩
  intro index hmem
  show index.Matches records.record
  rw [hrec']
  exact (h.indexes index hmem).update hrid rfl

omit [Inhabited V] in
/-- What the end of an operation does to a record that is there: it disappears, or it loses the
number of the transaction. -/
theorem Consistent.endOperation_of_some (h : t.Consistent) {rid : RID} {data : RecordData V}
    (hrid : t.record rid = some data) {type : OperationType} {rc : RC} {t' : Table V A}
    (hstep : t.commitOperation (rid, type) = some (rc, t') ∨
      t.rollbackOperation (rid, type) = some (rc, t')) :
    t'.Consistent ∧ t.SameShape t' ∧ (t'.record = Function.update t.record rid none ∨
      t'.record = Function.update t.record rid (some (data.setRecordTrxId 0 false))) := by
  have hget : t.records.getRecord rid = some (.ok data) := RecordFile.getRecord_of_some hrid
  have hentries := deleteEntryOfIndexes_of_lists fun index hmem =>
    (h.indexes index hmem).covers rid data hrid
  obtain ⟨records, hdel, hd⟩ := h.inv.deleteRecord hrid
  have herase := h.erase hrid hd t.log
  -- an operation is undone, or done, by deleting the record or by writing its transaction field
  have hcases : t' = { t with
        records := records
        indexes := t.indexes.map fun index => (index.deleteEntry data.values rid).2 } ∨
      t' = t.setTrxId rid data 0 := by
    rcases hstep with hstep | hstep <;> cases type <;>
      simp [commitOperation, commitInsert, commitDelete, rollbackOperation, rollbackInsert,
        rollbackDelete, hget, hentries, hdel] at hstep
    · exact Or.inr hstep.2.symm
    · exact Or.inl hstep.2.symm
    · exact Or.inl hstep.2.symm
    · exact Or.inr hstep.2.symm
  rcases hcases with rfl | rfl
  · exact ⟨herase, h.sameShape_erase hrid, Or.inl hd.record⟩
  · obtain ⟨hc, hshape, hrec⟩ := h.setTrxId hrid
    exact ⟨hc, hshape, Or.inr hrec⟩

omit [Inhabited V] in
/-- One operation at the end of a transaction. -/
theorem Consistent.endOperation (h : t.Consistent) {rid : RID} (hslot : 0 ≤ rid.slotNum)
    {type : OperationType} {rc : RC} {t' : Table V A}
    (hstep : t.commitOperation (rid, type) = some (rc, t') ∨
      t.rollbackOperation (rid, type) = some (rc, t')) :
    t'.Consistent ∧ t.SameShape t' ∧ t.Settles t' := by
  cases hrid : t.record rid with
  | none =>
    rw [endOperation_of_none hslot hrid hstep]
    exact ⟨h, .refl t, .refl t⟩
  | some data =>
    obtain ⟨hc, hshape, hrec⟩ := h.endOperation_of_some hrid hstep
    refine ⟨hc, hshape, ?_⟩
    intro r d hr
    by_cases hrr : r = rid
    · subst hrr
      rcases hrec with hrec | hrec
      · rw [hrec, Function.update_self] at hr
        cases hr
      · rw [hrec, Function.update_self] at hr
        cases hr
        exact ⟨data, hrid, Or.inr rfl⟩
    · refine ⟨d, ?_, Or.inl rfl⟩
      rcases hrec with hrec | hrec <;> rwa [hrec, Function.update_of_ne hrr] at hr

omit [Inhabited V] in
/-- The end of a transaction. -/
theorem Consistent.endOperations
    {step : Table V A → RID × OperationType → Option (RC × Table V A)}
    (hstep : step = commitOperation ∨ step = rollbackOperation) (ops : List (RID × OperationType)) :
    ∀ {t t' : Table V A} {rc rc' : RC}, t.Consistent → (∀ op ∈ ops, 0 ≤ op.1.slotNum) →
      Table.endOperations step (rc, t) ops = some (rc', t') →
      t'.Consistent ∧ t.SameShape t' ∧ t.Settles t' := by
  induction ops with
  | nil =>
    intro t t' rc rc' h _ hrun
    cases hrun
    exact ⟨h, .refl t, .refl t⟩
  | cons op ops ih =>
    intro t t' rc rc' h hslots hrun
    rw [Table.endOperations] at hrun
    obtain ⟨⟨rc₁, t₁⟩, hone, hrest⟩ := Option.bind_eq_some_iff.mp hrun
    have hone' : t.commitOperation op = some (rc₁, t₁) ∨ t.rollbackOperation op = some (rc₁, t₁) := by
      rcases hstep with rfl | rfl
      · exact Or.inl hone
      · exact Or.inr hone
    obtain ⟨h₁, hshape, hsettles⟩ := h.endOperation (hslots op List.mem_cons_self) hone'
    obtain ⟨h', hshape', hsettles'⟩ :=
      ih h₁ (fun op hop => hslots op (List.mem_cons_of_mem _ hop)) hrest
    exact ⟨h', hshape.trans hshape', hsettles.trans hsettles'⟩

/-- A call at the end of a transaction that changes the record of an insertion, and its entries. -/
def Changes (f : Option (RecordData V) → Option (RecordData V)) (rid : RID) (t t' : Table V A) :
    Prop :=
  t'.Consistent ∧ t'.log = t.log ∧ t'.record = Function.update t.record rid (f (t.record rid))

omit [Inhabited V] in
/-- Rolling an insertion back takes the record away. -/
theorem Consistent.rollbackInsert (h : t.Consistent) {rid : RID} (hslot : 0 ≤ rid.slotNum)
    {rc : RC} {t' : Table V A} (hstep : t.rollbackOperation (rid, .insert) = some (rc, t')) :
    Changes (fun _ => none) rid t t' := by
  cases hrid : t.record rid with
  | none =>
    obtain rfl := endOperation_of_none hslot hrid (Or.inr hstep)
    exact ⟨h, rfl, by rw [← hrid, Function.update_eq_self]⟩
  | some data =>
    obtain ⟨records, hd, heq⟩ := Table.rollbackInsert_of_some h.inv
      (fun index hmem => (h.indexes index hmem).covers) hrid
    rw [rollbackOperation, heq] at hstep
    cases hstep
    exact ⟨h.erase hrid hd t.log, rfl, hd.record⟩

omit [Inhabited V] in
/-- Committing an insertion takes the number of the transaction off the record. -/
theorem Consistent.commitInsert (h : t.Consistent) {rid : RID} (hslot : 0 ≤ rid.slotNum)
    {rc : RC} {t' : Table V A} (hstep : t.commitOperation (rid, .insert) = some (rc, t')) :
    Changes (Option.map fun data => data.setRecordTrxId 0 false) rid t t' := by
  cases hrid : t.record rid with
  | none =>
    obtain rfl := endOperation_of_none hslot hrid (Or.inl hstep)
    exact ⟨h, rfl, by rw [hrid, Option.map_none, ← hrid, Function.update_eq_self]⟩
  | some data =>
    obtain ⟨hc, -, hrec⟩ := h.setTrxId hrid
    simp only [commitOperation, Table.commitInsert, RecordFile.getRecord_of_some hrid,
      Option.bind_eq_bind, Option.bind_some, Option.pure_def, Option.some_inj,
      Prod.mk.injEq] at hstep
    obtain ⟨-, rfl⟩ := hstep
    exact ⟨hc, rfl, by rw [hrec, hrid]; rfl⟩

omit [Inhabited V] in
/-- The end of a transaction that has inserted records only. By induction on the operations. -/
theorem Consistent.endInserts {step : Table V A → RID × OperationType → Option (RC × Table V A)}
    {f : Option (RecordData V) → Option (RecordData V)}
    (hstep : ∀ {t t' : Table V A} {rid : RID} {rc : RC}, t.Consistent → 0 ≤ rid.slotNum →
      step t (rid, .insert) = some (rc, t') → Changes f rid t t')
    (ops : List (RID × OperationType)) : ∀ {t t' : Table V A} {rc rc' : RC}, t.Consistent →
      (∀ op ∈ ops, op.2 = .insert ∧ 0 ≤ op.1.slotNum) → (ops.map Prod.fst).Nodup →
      Table.endOperations step (rc, t) ops = some (rc', t') →
      t'.Consistent ∧ t'.log = t.log ∧ ∀ rid, t'.record rid =
        if rid ∈ ops.map Prod.fst then f (t.record rid) else t.record rid := by
  induction ops with
  | nil =>
    intro t t' rc rc' h _ _ hrun
    cases hrun
    exact ⟨h, rfl, fun rid => by simp⟩
  | cons op ops ih =>
    intro t t' rc rc' h hops hnodup hrun
    obtain ⟨rid, type⟩ := op
    obtain ⟨hinsert, hslot⟩ := hops _ List.mem_cons_self
    obtain rfl : type = .insert := hinsert
    rw [List.map_cons, List.nodup_cons] at hnodup
    rw [Table.endOperations] at hrun
    obtain ⟨⟨rc₁, t₁⟩, hone, hrest⟩ := Option.bind_eq_some_iff.mp hrun
    obtain ⟨h₁, hlog, hrec⟩ := hstep h hslot hone
    obtain ⟨h', hlog', hrec'⟩ :=
      ih h₁ (fun op hop => hops op (List.mem_cons_of_mem _ hop)) hnodup.2 hrest
    refine ⟨h', hlog'.trans hlog, fun r => ?_⟩
    rw [hrec', hrec, List.map_cons]
    by_cases hr : r = rid
    · subst hr
      rw [if_neg hnodup.1, if_pos List.mem_cons_self, Function.update_self]
    · rw [Function.update_of_ne hr]
      simp only [List.mem_cons, hr, false_or]

end Table

/-! ## A table with one column and one index -/

/-- An empty table, with two records on a page. -/
def sampleTable : Table ℕ ℤ := ⟨2, .empty (.const .newestFirst), [numberColumn.newIndex], []⟩

theorem sampleTable_consistent : sampleTable.Consistent := by
  refine ⟨RecordFile.inv_empty _ 2, ?_⟩
  intro index hmem
  obtain rfl : index = numberColumn.newIndex := by simpa [sampleTable] using hmem
  refine numberColumn.newIndex_matches fun rid => ?_
  cases hrid : sampleTable.record rid with
  | none => rfl
  | some data =>
    obtain ⟨p, slot, -, hp, hlt, -⟩ := RecordFile.record_eq_some hrid
    simp only [sampleTable, RecordFile.empty] at hlt
    omega

end Miniob.Storage.Common
