import Miniob.Storage.Common.ScanRecord
import Mathlib.Data.Set.Card

/-!
# Scans through an index and scans through the file

A scan through an index can differ from the scan of the file: the range comes from the operator as
if the column were on the left, and its ends are compared in the order of the index and not as
cells; entries that are not handed over use up the limit; and the scan of the file has no limit and
passes over pages whose bit in the file header is clear.

* `TableMeta.firstIndexed`: the range that a filter leads to.
* `Table.OrdersScan`: the comparator of the index orders the ends of the range.
* `Table.ScanFits`: the tables, filters and limits for which all of this makes no difference.
* `scan_agrees_iff`: on these and no others do the two scans agree and keep to the limit.
-/

namespace Miniob.Storage.Common

open Miniob.Storage.Index Miniob.Storage.Record Miniob.Storage.Transaction
open Miniob.Sql (CompOp TupleCell)

variable {V A C : Type} [LinearOrder A]

/-! ## The range of a filter -/

/-- The columns of the indexes are those that the description names. -/
def TableMeta.Describes (m : TableMeta V A C) (t : Table V A) : Prop :=
  m.indexes.map m.field = t.indexes.map fun index => index.field

theorem TableMeta.Describes.sameShape {m : TableMeta V A C} {t t' : Table V A}
    (h : m.Describes t) (hshape : t.SameShape t') : m.Describes t' := by
  have hcolumns := congrArg (List.map IndexColumn.field) hshape.columns
  rw [List.map_map, List.map_map] at hcolumns
  exact h.trans hcolumns.symm

variable [DecidableEq C]

/-- The column has an index, and the operator leads to a range. -/
def TableMeta.indexedRange (m : TableMeta V A C) (column : C) (op : CompOp) (v : TupleCell) :
    Option (C × Bounds A) :=
  if column ∈ m.indexes then (scanBounds v op).map fun b => (column, m.ends column b) else none

mutual

/-- The range of the first comparison of a column that has an index with a constant, other than
`<>`. -/
def TableMeta.firstIndexed (m : TableMeta V A C) : ConditionFilter C → Option (C × Bounds A)
  | .default (.attr column) (.value v) op => m.indexedRange column op v
  | .default (.value v) (.attr column) op => m.indexedRange column op v
  | .default (.attr _) (.attr _) _ => none
  | .default (.value _) (.value _) _ => none
  | .composite filters => m.firstIndexedOf filters

/-- The same for the filters of a `CompositeConditionFilter`. -/
def TableMeta.firstIndexedOf (m : TableMeta V A C) :
    List (ConditionFilter C) → Option (C × Bounds A)
  | [] => none
  | f :: filters =>
    match m.firstIndexed f with
    | some range => some range
    | none => m.firstIndexedOf filters

end

namespace Table

variable {t : Table V A} {m : TableMeta V A C}

/-- The indexes by their columns. -/
theorem findIndexByField_spec (hm : m.Describes t) (column : C) :
    (column ∉ m.indexes ∧ t.findIndexByField m column = none) ∨
    column ∈ m.indexes ∧ ∃ index ∈ t.indexes, t.findIndexByField m column = some index ∧
      index.field = m.field column := by
  unfold findIndexByField
  rw [TableMeta.Describes, ← List.forall₂_eq_eq_eq, List.forall₂_map_left_iff,
    List.forall₂_map_right_iff] at hm
  generalize m.indexes = columns at hm ⊢
  generalize t.indexes = indexes at hm ⊢
  induction hm with
  | nil => exact Or.inl ⟨by simp, rfl⟩
  | @cons c index columns indexes hfield _ ih =>
    rw [List.zip_cons_cons, List.lookup_cons]
    by_cases hc : column = c
    · subst hc
      exact Or.inr ⟨List.mem_cons_self, index, List.mem_cons_self, by simp, hfield.symm⟩
    · rw [beq_eq_false_iff_ne.mpr hc]
      rcases ih with ⟨hnot, hnone⟩ | ⟨hmem, index', hmem', hsome, hfield'⟩
      · exact Or.inl ⟨by simp [hc, hnot], hnone⟩
      · exact Or.inr ⟨List.mem_cons_of_mem _ hmem, index', List.mem_cons_of_mem _ hmem', hsome,
          hfield'⟩

/-- The comparator of the index that a filter leads to orders the ends of the range with the
entries. -/
def OrdersScan (t : Table V A) (m : TableMeta V A C) (filter : Option (ConditionFilter C)) : Prop :=
  ∀ column b, filter.bind m.firstIndexed = some (column, b) →
    ∀ index, t.findIndexByField m column = some index → index.Orders b.values

/-- The scanner goes through a range of an index of the table. -/
def ScansRange (t : Table V A) (m : TableMeta V A C) (rids : List RID) (range : C × Bounds A) :
    Prop :=
  ∃ index ∈ t.indexes, index.field = m.field range.1 ∧
    rids = (index.range range.2).map Prod.snd

/-- The scanner is the one that a range asks for. -/
def ScannerFor (t : Table V A) (m : TableMeta V A C) (scanner : Option (List RID)) :
    Option (C × Bounds A) → Prop
  | none => scanner = none
  | some range => ∃ index ∈ t.indexes, index.field = m.field range.1 ∧
      t.findIndexByField m range.1 = some index ∧ scanner = index.createScanner range.2

theorem findIndexForColumn_spec (hm : m.Describes t) (column : C) (v : TupleCell) (op : CompOp) :
    t.ScannerFor m (t.findIndexForColumn m column v op) (m.indexedRange column op v) := by
  unfold findIndexForColumn TableMeta.indexedRange
  rcases findIndexByField_spec hm column with ⟨hnot, hnone⟩ | ⟨hmem, index, hidx, hsome, hfield⟩
  · rw [if_neg hnot, hnone]
    rfl
  · rw [if_pos hmem, hsome]
    simp only [Option.bind_eq_bind, Option.bind_some]
    cases scanBounds v op with
    | none => rfl
    | some b => exact ⟨index, hidx, hfield, hsome, rfl⟩

/-- A range whose ends are ordered is scanned, if the table has records, so that no index is
empty. -/
theorem ScannerFor.scansRange (hne : ∀ index ∈ t.indexes, index.entries.entries ≠ [])
    {scanner : Option (List RID)} {range : C × Bounds A} (h : t.ScannerFor m scanner (some range))
    (hord : ∀ index, t.findIndexByField m range.1 = some index → index.Orders range.2.values) :
    ∃ rids, scanner = some rids ∧ t.ScansRange m rids range := by
  obtain ⟨index, hidx, hfield, hsome, rfl⟩ := h
  refine ⟨_, ?_, index, hidx, hfield, rfl⟩
  rw [TableIndex.createScanner, if_neg fun h => hne index hidx h.2, if_pos (hord index hsome)]

/-- No scanner can be opened on an index without entries. -/
theorem ScannerFor.of_empty (hempty : ∀ index ∈ t.indexes, index.ordered = true ∧
    index.entries.entries = []) {scanner : Option (List RID)} {range : Option (C × Bounds A)}
    (h : t.ScannerFor m scanner range) : scanner = none := by
  cases range with
  | none => exact h
  | some range =>
    obtain ⟨index, hidx, -, -, rfl⟩ := h
    exact if_pos (hempty index hidx)

mutual

/-- A filter leads to no scanner in a table without records. -/
theorem findIndexForScan_of_empty (hm : m.Describes t)
    (hempty : ∀ index ∈ t.indexes, index.ordered = true ∧ index.entries.entries = []) :
    ∀ f : ConditionFilter C, t.findIndexForScan m f = none
  | .default (.attr column) (.value v) op => (findIndexForColumn_spec hm column v op).of_empty hempty
  | .default (.value v) (.attr column) op => (findIndexForColumn_spec hm column v op).of_empty hempty
  | .default (.attr _) (.attr _) _ => rfl
  | .default (.value _) (.value _) _ => rfl
  | .composite filters => findIndexForFilters_of_empty hm hempty filters

/-- The same for the filters of a `CompositeConditionFilter`. -/
theorem findIndexForFilters_of_empty (hm : m.Describes t)
    (hempty : ∀ index ∈ t.indexes, index.ordered = true ∧ index.entries.entries = []) :
    ∀ fs : List (ConditionFilter C), t.findIndexForFilters m fs = none
  | [] => rfl
  | f :: fs => by
    rw [findIndexForFilters, findIndexForScan_of_empty hm hempty f]
    exact findIndexForFilters_of_empty hm hempty fs

end

/-- The scanner of a filter in a table with records: that of the first condition that leads to a
range. -/
def ScansFirst (t : Table V A) (m : TableMeta V A C) (scanner : Option (List RID))
    (range : Option (C × Bounds A)) : Prop :=
  match range with
  | none => scanner = none
  | some range => (∀ index, t.findIndexByField m range.1 = some index →
      index.Orders range.2.values) → ∃ rids, scanner = some rids ∧ t.ScansRange m rids range

theorem ScannerFor.scansFirst (hne : ∀ index ∈ t.indexes, index.entries.entries ≠ [])
    {scanner : Option (List RID)} {range : Option (C × Bounds A)}
    (h : t.ScannerFor m scanner range) : t.ScansFirst m scanner range := by
  cases range with
  | none => exact h
  | some range => exact fun hord => h.scansRange hne hord

mutual

/-- If the table has records, the first condition that can lead to a scanner does. -/
theorem findIndexForScan_spec (hm : m.Describes t)
    (hne : ∀ index ∈ t.indexes, index.entries.entries ≠ []) :
    ∀ f : ConditionFilter C, t.ScansFirst m (t.findIndexForScan m f) (m.firstIndexed f)
  | .default (.attr column) (.value v) op => (findIndexForColumn_spec hm column v op).scansFirst hne
  | .default (.value v) (.attr column) op => (findIndexForColumn_spec hm column v op).scansFirst hne
  | .default (.attr _) (.attr _) _ => rfl
  | .default (.value _) (.value _) _ => rfl
  | .composite filters => findIndexForFilters_spec hm hne filters

/-- The same for the filters of a `CompositeConditionFilter`. -/
theorem findIndexForFilters_spec (hm : m.Describes t)
    (hne : ∀ index ∈ t.indexes, index.entries.entries ≠ []) :
    ∀ fs : List (ConditionFilter C),
      t.ScansFirst m (t.findIndexForFilters m fs) (m.firstIndexedOf fs)
  | [] => rfl
  | f :: fs => by
    have hf := findIndexForScan_spec hm hne f
    rw [findIndexForFilters, TableMeta.firstIndexedOf]
    cases hfirst : m.firstIndexed f with
    | none =>
      rw [hfirst] at hf
      have hnone : t.findIndexForScan m f = none := hf
      rw [hnone]
      exact findIndexForFilters_spec hm hne fs
    | some range =>
      rw [hfirst] at hf
      intro hord
      obtain ⟨rids, hsome, hrange⟩ := hf hord
      rw [hsome]
      exact ⟨rids, rfl, hrange⟩

end

/-! ## What the two scans hand over -/

omit [DecidableEq C] in
/-- A scanner whose identifiers all have records hands over those that are accepted among the first
ones. -/
theorem scanRecordByIndex_eq (accepts : RecordData V → Bool) (limit : ℕ) {rids : List RID}
    (h : ∀ rid ∈ rids, ∃ data, t.record rid = some data) :
    t.scanRecordByIndex accepts limit rids = some (.success, (rids.take limit).filterMap fun rid =>
      ((t.record rid).filter accepts).map fun data => (rid, data)) := by
  induction limit generalizing rids with
  | zero => rfl
  | succ limit ih =>
    cases rids with
    | nil => rfl
    | cons rid rids =>
      obtain ⟨data, hrid⟩ := h rid List.mem_cons_self
      have hrest := ih fun r hr => h r (List.mem_cons_of_mem _ hr)
      rw [scanRecordByIndex, RecordFile.getRecord_of_some hrid]
      simp only [Option.bind_eq_bind, Option.bind_some, hrest, Option.pure_def, List.take_succ_cons,
        List.filterMap_cons, hrid]
      cases haccepts : accepts data <;> simp [haccepts, Option.filter]

/-- The records that are visible and that the filter accepts. -/
def matching (t : Table V A) (m : TableMeta V A C) (trx : Option Trx)
    (filter : Option (ConditionFilter C)) : Set RID :=
  {rid | ∃ data, t.record rid = some data ∧ accepts m trx filter data = true}

/-- The records on pages whose bit in the file header is set. -/
def listed (t : Table V A) : Set RID := {rid | t.records.Listed rid}

/-- The records of a range that come before a key. -/
def preceding (t : Table V A) (field : V → A) (b : Bounds A) (key : IndexKey A) : Set RID :=
  {rid | ∃ data, t.record rid = some data ∧ b.Within (field data.values) ∧
    (⟨field data.values, rid⟩ : IndexKey A) < key}

omit [LinearOrder A] [DecidableEq C] in
/-- A list without duplicates counts the elements of a set. -/
theorem ncard_eq_length {s : Set RID} {l : List RID} (hnodup : l.Nodup)
    (hmem : ∀ rid, rid ∈ l ↔ rid ∈ s) : s.ncard = l.length := by
  have : s = (l.toFinset : Set RID) := by
    ext rid
    simp [hmem]
  rw [this, Set.ncard_coe_finset, List.toFinset_card_of_nodup hnodup]

end Table

/-- The first elements of an ordered list are those with few elements before them. -/
theorem mem_take_iff_of_sorted {K : Type} [LinearOrder K] {l : List K}
    (h : l.Pairwise (· < ·)) {x : K} (hx : x ∈ l) (n : ℕ) :
    x ∈ l.take n ↔ (l.filter (· < x)).length < n := by
  induction l generalizing n with
  | nil => cases hx
  | cons y l ih =>
    rw [List.pairwise_cons] at h
    cases n with
    | zero => simp
    | succ n =>
      rw [List.take_succ_cons, List.mem_cons]
      rcases List.mem_cons.mp hx with rfl | hmem
      · have hnil : (x :: l).filter (· < x) = [] := by
          rw [List.filter_eq_nil_iff]
          intro z hz
          rcases List.mem_cons.mp hz with rfl | hz
          · simp
          · simpa using (h.1 z hz).le
        simp [hnil]
      · have hlt := h.1 x hmem
        rw [List.filter_cons_of_pos (by simpa using hlt), List.length_cons, Nat.succ_lt_succ_iff,
          ← ih h.2 hmem]
        exact or_iff_right hlt.ne'

namespace Table

variable {t : Table V A} {m : TableMeta V A C} {trx : Option Trx}
  {filter : Option (ConditionFilter C)}

omit [DecidableEq C] in
/-- The entries of a range are those of the records with a value in it. -/
theorem mem_range_iff {index : TableIndex V A} (hmatch : index.Matches t.record) {b : Bounds A}
    {e : IndexKey A × RID} :
    e ∈ index.range b ↔ ∃ rid data, t.record rid = some data ∧
      b.Within (index.field data.values) ∧ e = (index.key data.values rid, rid) := by
  rw [TableIndex.range, List.mem_filter, hmatch.entries e, decide_eq_true_iff]
  constructor
  · rintro ⟨⟨rid, data, hrid, rfl⟩, hop⟩
    exact ⟨rid, data, hrid, hop, rfl⟩
  · rintro ⟨rid, data, hrid, hop, rfl⟩
    exact ⟨⟨rid, data, hrid, rfl⟩, hop⟩

omit [DecidableEq C] in
/-- The number of entries of a range before a key is that of the records. -/
theorem ncard_preceding {index : TableIndex V A} (hmatch : index.Matches t.record) (b : Bounds A)
    (key : IndexKey A) :
    (t.preceding index.field b key).ncard =
      (((index.range b).map Prod.fst).filter (· < key)).length := by
  have hsorted : ((index.range b).map Prod.fst).Pairwise (· < ·) :=
    List.pairwise_map.mpr (index.entries.sorted.sublist List.filter_sublist)
  have hkeys : ∀ k, k ∈ ((index.range b).map Prod.fst).filter (· < key) ↔
      ∃ rid data, t.record rid = some data ∧ b.Within (index.field data.values) ∧
        k = index.key data.values rid ∧ k < key := by
    intro k
    rw [List.mem_filter, List.mem_map, decide_eq_true_iff]
    constructor
    · rintro ⟨⟨e, he, rfl⟩, hlt⟩
      obtain ⟨rid, data, hrid, hop, rfl⟩ := (mem_range_iff hmatch).mp he
      exact ⟨rid, data, hrid, hop, rfl, hlt⟩
    · rintro ⟨rid, data, hrid, hop, rfl, hlt⟩
      exact ⟨⟨_, (mem_range_iff hmatch).mpr ⟨rid, data, hrid, hop, rfl⟩, rfl⟩, hlt⟩
  rw [← List.length_map IndexKey.rid]
  refine ncard_eq_length ?_ ?_
  · -- the identifier determines the record, and so the key
    refine List.Nodup.map_on ?_ (hsorted.nodup.sublist List.filter_sublist)
    intro k hk k' hk' heq
    obtain ⟨rid, data, hrid, -, rfl, -⟩ := (hkeys k).mp hk
    obtain ⟨rid', data', hrid', -, rfl, -⟩ := (hkeys k').mp hk'
    obtain rfl : rid = rid' := heq
    rw [hrid] at hrid'
    cases hrid'
    rfl
  · intro rid
    rw [List.mem_map]
    constructor
    · rintro ⟨k, hk, rfl⟩
      obtain ⟨rid, data, hrid, hop, rfl, hlt⟩ := (hkeys k).mp hk
      exact ⟨data, hrid, hop, hlt⟩
    · rintro ⟨data, hrid, hop, hlt⟩
      exact ⟨_, (hkeys _).mpr ⟨rid, data, hrid, hop, rfl, hlt⟩, rfl⟩

omit [DecidableEq C] in
/-- The place of a record in a range: it is among the first entries if few records of the range
come before it. -/
theorem mem_take_range_iff {index : TableIndex V A} (hmatch : index.Matches t.record) {b : Bounds A}
    {rid : RID} {data : RecordData V} (hrid : t.record rid = some data) (n : ℕ) :
    rid ∈ ((index.range b).map Prod.snd).take n ↔ b.Within (index.field data.values) ∧
      (t.preceding index.field b ⟨index.field data.values, rid⟩).ncard < n := by
  have hsorted : ((index.range b).map Prod.fst).Pairwise (· < ·) :=
    List.pairwise_map.mpr (index.entries.sorted.sublist List.filter_sublist)
  have hkey : rid ∈ ((index.range b).map Prod.snd).take n ↔
      index.key data.values rid ∈ ((index.range b).map Prod.fst).take n := by
    rw [← List.map_take, ← List.map_take, List.mem_map, List.mem_map]
    constructor
    · rintro ⟨e, he, rfl⟩
      obtain ⟨r, d, hr, -, rfl⟩ := (mem_range_iff hmatch).mp (List.mem_of_mem_take he)
      rw [hr] at hrid
      cases hrid
      exact ⟨_, he, rfl⟩
    · rintro ⟨e, he, heq⟩
      obtain ⟨r, d, hr, -, rfl⟩ := (mem_range_iff hmatch).mp (List.mem_of_mem_take he)
      exact ⟨_, he, congrArg IndexKey.rid heq⟩
  rw [hkey, ncard_preceding hmatch]
  constructor
  · intro hmem
    obtain ⟨e, he, heq⟩ := List.mem_map.mp (List.mem_of_mem_take hmem)
    obtain ⟨r, d, hr, hop, rfl⟩ := (mem_range_iff hmatch).mp he
    obtain rfl : r = rid := congrArg IndexKey.rid heq
    rw [hr] at hrid
    cases hrid
    exact ⟨hop, (mem_take_iff_of_sorted hsorted (List.mem_of_mem_take hmem) n).mp hmem⟩
  · rintro ⟨hop, hlt⟩
    have hmem : index.key data.values rid ∈ (index.range b).map Prod.fst :=
      List.mem_map.mpr ⟨_, (mem_range_iff hmatch).mpr ⟨rid, data, hrid, hop, rfl⟩, rfl⟩
    exact (mem_take_iff_of_sorted hsorted hmem n).mpr hlt

omit [DecidableEq C] in
/-- The scan of the file hands over the records of the pages that it visits. -/
theorem mem_scan_filter (hc : t.Consistent) {rid : RID} {data : RecordData V} :
    (rid, data) ∈ t.records.scan.filter (fun r => accepts m trx filter r.2) ↔
      t.record rid = some data ∧ accepts m trx filter data = true ∧ t.records.Listed rid := by
  rw [List.mem_filter, hc.inv.mem_scan, and_assoc, and_comm (a := t.records.Listed rid)]
  rfl

/-- A scan gets to the record: it is on a page that the scan of the file visits, or among the first
entries of the range that the scan goes through. -/
def Reached (t : Table V A) (m : TableMeta V A C) (filter : Option (ConditionFilter C))
    (limit : Int) (rid : RID) (data : RecordData V) : Prop :=
  match filter.bind m.firstIndexed with
  | none => t.records.Listed rid
  | some (column, b) => b.Within (m.field column data.values) ∧
      (t.preceding (m.field column) b ⟨m.field column data.values, rid⟩).ncard <
        effectiveLimit limit

omit [DecidableEq C] in
/-- A range of an index has every identifier once. -/
theorem nodup_range {index : TableIndex V A} (hmatch : index.Matches t.record) (b : Bounds A) :
    ((index.range b).map Prod.snd).Nodup := by
  refine List.Nodup.map_on ?_ ?_
  · intro e he e' he' heq
    obtain ⟨rid, data, hrid, rfl⟩ := (hmatch.entries e).mp (List.mem_of_mem_filter he)
    obtain ⟨rid', data', hrid', rfl⟩ := (hmatch.entries e').mp (List.mem_of_mem_filter he')
    obtain rfl : rid = rid' := heq
    rw [hrid] at hrid'
    cases hrid'
    rfl
  · exact (index.entries.sorted.imp fun hlt heq => hlt.ne (congrArg Prod.fst heq)).sublist
      List.filter_sublist

omit [DecidableEq C] in
/-- What a scan of a range hands over. -/
theorem scanRecordByIndex_spec (hc : t.Consistent) {rids : List RID} {range : C × Bounds A}
    (hrange : t.ScansRange m rids range) (accepts : RecordData V → Bool) (limit : ℕ) :
    ∃ via, t.scanRecordByIndex accepts limit rids = some (.success, via) ∧ via.Nodup ∧
      ∀ rid data, (rid, data) ∈ via ↔
        t.record rid = some data ∧ accepts data = true ∧ rid ∈ rids.take limit := by
  obtain ⟨index, hidx, -, rfl⟩ := hrange
  have hmatch := hc.indexes index hidx
  have hrecord : ∀ rid ∈ (index.range range.2).map Prod.snd, ∃ data, t.record rid = some data := by
    intro rid hrid
    obtain ⟨e, he, rfl⟩ := List.mem_map.mp hrid
    obtain ⟨r, data, hr, rfl⟩ := (hmatch.entries e).mp (List.mem_of_mem_filter he)
    exact ⟨data, hr⟩
  refine ⟨_, scanRecordByIndex_eq _ _ hrecord, ?_, ?_⟩
  · refine List.Nodup.filterMap ?_ ((nodup_range hmatch range.2).sublist (List.take_sublist _ _))
    intro r r' x hx hx'
    obtain ⟨d, -, rfl⟩ := Option.map_eq_some_iff.mp hx
    obtain ⟨d', -, heq⟩ := Option.map_eq_some_iff.mp hx'
    exact (congrArg Prod.fst heq).symm
  · intro rid data
    simp only [List.mem_filterMap, Option.map_eq_some_iff, Option.filter_eq_some_iff,
      Prod.mk.injEq]
    constructor
    · rintro ⟨r, hr, d, ⟨hrec, hacc⟩, rfl, rfl⟩
      exact ⟨hrec, hacc, hr⟩
    · rintro ⟨hrec, hacc, hr⟩
      exact ⟨rid, hr, data, ⟨hrec, hacc⟩, rfl, rfl⟩

/-- What a scan hands over. -/
theorem scanRecord_spec (hc : t.Consistent) (hm : m.Describes t) (trx : Option Trx)
    (filter : Option (ConditionFilter C)) (hord : t.OrdersScan m filter) {limit : Int}
    (hlimit : limit ≠ 0) :
    ∃ via, t.scanRecord m trx filter limit = some (.success, via) ∧ via.Nodup ∧
      ∀ rid data, (rid, data) ∈ via ↔ t.record rid = some data ∧
        accepts m trx filter data = true ∧ t.Reached m filter limit rid data := by
  have hfull : (t.records.scan.filter fun r => accepts m trx filter r.2).Nodup :=
    (hc.inv.nodup_scan.of_map _).sublist List.filter_sublist
  unfold scanRecord
  rw [if_neg hlimit]
  by_cases hsome : ∃ rid data, t.record rid = some data
  · -- no index is empty, and the first condition that can lead to a scanner does
    obtain ⟨rid₀, data₀, hrid₀⟩ := hsome
    have hne : ∀ index ∈ t.indexes, index.entries.entries ≠ [] := by
      intro index hidx hnil
      obtain ⟨-, e, he, -⟩ := (hc.indexes index hidx).covers rid₀ data₀ hrid₀
      rw [hnil] at he
      cases he
    have hscanner : t.ScansFirst m (filter.bind (t.findIndexForScan m))
        (filter.bind m.firstIndexed) := by
      cases filter with
      | none => rfl
      | some f => exact findIndexForScan_spec hm hne f
    unfold Reached
    cases hfirst : filter.bind m.firstIndexed with
    | none =>
      rw [hfirst] at hscanner
      have hnone : filter.bind (t.findIndexForScan m) = none := hscanner
      rw [hnone]
      exact ⟨_, rfl, hfull, fun rid data => mem_scan_filter hc⟩
    | some range =>
      obtain ⟨column, b⟩ := range
      rw [hfirst] at hscanner
      obtain ⟨rids, heq, hrange⟩ := hscanner (hord column b hfirst)
      obtain ⟨via, hrun, hnodup, hmem⟩ :=
        scanRecordByIndex_spec hc hrange (accepts m trx filter) (effectiveLimit limit)
      rw [heq]
      refine ⟨via, hrun, hnodup, ?_⟩
      intro rid data
      obtain ⟨index, hidx, hfield, rfl⟩ := hrange
      rw [hmem]
      refine and_congr_right fun hrid => and_congr_right fun _ => ?_
      rw [mem_take_range_iff (hc.indexes index hidx) hrid, hfield]
  · -- a table without records
    have hnot : ∀ rid data, ¬ t.record rid = some data :=
      fun rid data hrid => hsome ⟨rid, data, hrid⟩
    have hempty : ∀ index ∈ t.indexes, index.ordered = true ∧ index.entries.entries = [] := by
      intro index hidx
      obtain ⟨⟨hordered, -⟩, hentries⟩ := hc.indexes index hidx
      refine ⟨hordered, List.eq_nil_iff_forall_not_mem.mpr fun e he => ?_⟩
      obtain ⟨rid, data, hrid, -⟩ := (hentries e).mp he
      exact hnot rid data hrid
    have hnone : filter.bind (t.findIndexForScan m) = none := by
      cases filter with
      | none => rfl
      | some f => exact findIndexForScan_of_empty hm hempty f
    rw [hnone]
    refine ⟨_, rfl, hfull, fun rid data => ?_⟩
    rw [mem_scan_filter hc]
    simp only [hnot rid data, false_and]

/-! ## Agreement -/

/-- The table without its indexes. -/
def withoutIndexes (t : Table V A) : Table V A := { t with indexes := [] }

/-- Without indexes, a scan goes through the file. -/
theorem scanRecord_withoutIndexes (t : Table V A) (m : TableMeta V A C) (trx : Option Trx)
    (filter : Option (ConditionFilter C)) {limit : Int} (hlimit : limit ≠ 0) :
    t.withoutIndexes.scanRecord { m with indexes := [] } trx filter limit =
      some (.success, t.records.scan.filter fun r => accepts m trx filter r.2) := by
  have hm : TableMeta.Describes { m with indexes := [] } t.withoutIndexes := rfl
  have hempty : ∀ index ∈ t.withoutIndexes.indexes, index.ordered = true ∧
      index.entries.entries = [] := fun index hidx => by cases hidx
  have hnone : filter.bind (t.withoutIndexes.findIndexForScan { m with indexes := [] }) = none := by
    cases filter with
    | none => rfl
    | some f => exact findIndexForScan_of_empty hm hempty f
  unfold scanRecord
  rw [if_neg hlimit, hnone]
  rfl

/-- The scans with and without indexes hand over the same records, and as many as the limit
allows. -/
def ScanAgrees (t : Table V A) (m : TableMeta V A C) (trx : Option Trx)
    (filter : Option (ConditionFilter C)) (limit : Int) : Prop :=
  ∃ via full, t.scanRecord m trx filter limit = some (.success, via) ∧
    t.withoutIndexes.scanRecord { m with indexes := [] } trx filter limit =
      some (.success, full) ∧
    (∀ r, r ∈ via ↔ r ∈ full) ∧
    (0 < limit → (via.length : Int) = min limit (t.matching m trx filter).ncard ∧
      (full.length : Int) = min limit (t.matching m trx filter).ncard)

/-- The scan of the file keeps to the limit: there are not too many records, and all of them are on
pages that are visited, or as many as the limit allows are. -/
def CountFits (t : Table V A) (m : TableMeta V A C) (trx : Option Trx)
    (filter : Option (ConditionFilter C)) (limit : Int) : Prop :=
  ((t.matching m trx filter).ncard ≤ limit ∧ t.matching m trx filter ⊆ t.listed) ∨
    limit < (t.matching m trx filter).ncard ∧ (t.matching m trx filter ∩ t.listed).ncard = limit

/-- The limit is 0; or the scan of the file keeps to it, and the range has the records that the
scan of the file gets to: a record is on a page that is visited if and only if it is among the
first entries of the range. -/
def ScanFits (t : Table V A) (m : TableMeta V A C) (trx : Option Trx)
    (filter : Option (ConditionFilter C)) (limit : Int) : Prop :=
  limit = 0 ∨
    ((0 < limit → t.CountFits m trx filter limit) ∧
      ∀ rid data, t.record rid = some data → accepts m trx filter data = true →
        (t.records.Listed rid ↔ t.Reached m filter limit rid data))

omit [DecidableEq C] in
/-- The number of records that the scan of the file hands over is right. -/
theorem countFits_iff {limit : Int} :
    t.CountFits m trx filter limit ↔ ((t.matching m trx filter ∩ t.listed).ncard : Int) =
      min limit (t.matching m trx filter).ncard := by
  have hfinite : (t.matching m trx filter).Finite :=
    t.records.finite_record.subset fun rid ⟨data, hrid, _⟩ => ⟨data, hrid⟩
  unfold CountFits
  constructor
  · rintro (⟨hle, hsub⟩ | ⟨hlt, heq⟩)
    · rw [Set.inter_eq_left.mpr hsub, min_eq_right hle]
    · rw [heq, min_eq_left hlt.le]
  · intro heq
    rcases le_or_gt ((t.matching m trx filter).ncard : Int) limit with hle | hlt
    · rw [min_eq_right hle, Nat.cast_inj] at heq
      have := Set.eq_of_subset_of_ncard_le Set.inter_subset_left heq.ge hfinite
      exact Or.inl ⟨hle, Set.inter_eq_left.mp this⟩
    · rw [min_eq_left hlt.le] at heq
      exact Or.inr ⟨hlt, heq⟩

end Table

open Table

/-- On a table with consistent indexes, the scans agree exactly for the filters and limits that
`ScanFits` describes, where the comparator orders the ends of the range. -/
theorem scan_agrees_iff (t : Table V A) (m : TableMeta V A C) (hc : t.Consistent)
    (hm : m.Describes t) (trx : Option Trx) (filter : Option (ConditionFilter C))
    (hord : t.OrdersScan m filter) (limit : Int) :
    t.ScanAgrees m trx filter limit ↔ t.ScanFits m trx filter limit := by
  by_cases hlimit : limit = 0
  · subst hlimit
    refine iff_of_true ⟨[], [], rfl, rfl, fun _ => Iff.rfl, fun h => absurd h (lt_irrefl _)⟩ ?_
    exact Or.inl rfl
  have hfull := t.scanRecord_withoutIndexes m trx filter hlimit
  obtain ⟨via, hvia, hnodup, hmem⟩ := scanRecord_spec hc hm trx filter hord hlimit
  have hmem' : ∀ rid data, (rid, data) ∈ t.records.scan.filter (fun r => accepts m trx filter r.2) ↔
      t.record rid = some data ∧ accepts m trx filter data = true ∧ t.records.Listed rid :=
    fun rid data => mem_scan_filter hc
  have hkeys : ((t.records.scan.filter fun r => accepts m trx filter r.2).map Prod.fst).Nodup :=
    hc.inv.nodup_scan.sublist (List.filter_sublist.map _)
  have hcount : (t.matching m trx filter ∩ t.listed).ncard =
      (t.records.scan.filter fun r => accepts m trx filter r.2).length := by
    rw [← List.length_map Prod.fst]
    refine ncard_eq_length hkeys ?_
    intro rid
    rw [List.mem_map]
    constructor
    · rintro ⟨⟨r, data⟩, hr, rfl⟩
      obtain ⟨hrid, hacc, hlisted⟩ := (hmem' r data).mp hr
      exact ⟨⟨data, hrid, hacc⟩, hlisted⟩
    · rintro ⟨⟨data, hrid, hacc⟩, hlisted⟩
      exact ⟨(rid, data), (hmem' rid data).mpr ⟨hrid, hacc, hlisted⟩, rfl⟩
  generalize t.records.scan.filter (fun r => accepts m trx filter r.2) = full at *
  constructor
  · rintro ⟨via', full', hvia', hfull', hsame, hlen⟩
    rw [hvia] at hvia'
    rw [hfull] at hfull'
    cases hvia'
    cases hfull'
    refine Or.inr ⟨fun hpos => countFits_iff.mpr (hcount ▸ (hlen hpos).2), ?_⟩
    intro rid data hrid hacc
    have h := hsame (rid, data)
    rw [hmem, hmem'] at h
    simpa only [hrid, hacc, true_and] using h.symm
  · rintro (h | ⟨hfits, hreach⟩)
    · exact absurd h hlimit
    · have hsame : ∀ r, r ∈ via ↔ r ∈ full := by
        rintro ⟨rid, data⟩
        rw [hmem, hmem']
        refine and_congr_right fun hrid => and_congr_right fun hacc => ?_
        exact (hreach rid data hrid hacc).symm
      have hlength : via.length = full.length :=
        ((List.perm_ext_iff_of_nodup hnodup (hkeys.of_map _)).mpr hsame).length_eq
      refine ⟨via, full, hvia, hfull, hsame, fun hpos => ?_⟩
      have h := countFits_iff.mp (hfits hpos)
      rw [hcount] at h
      exact ⟨hlength ▸ h, h⟩

/-! ## A table with one row -/

/-- The description of a table with one column, which has an index. -/
def sampleMeta : TableMeta ℕ ℤ Unit where
  field _ v := v
  cell _ v := .ints v
  ends _ b := b.map fun
    | .ints v => v
    | _ => 0
  indexes := [()]

/-- The table with a row whose value is 7. -/
theorem sampleRow : ∃ t trx, sampleTable.insertRecord (some ⟨0, []⟩) ⟨0, 7⟩ .success =
    some (.ok (slotRid 1 0), t, some trx) ∧ t.Consistent ∧ sampleMeta.Describes t := by
  have hkeep : sampleTable.KeepsRecords := keepsRecords_of_reusedPage (by decide)
  have hm : sampleMeta.Describes sampleTable := rfl
  have hrun : (sampleTable.insertRecord (some ⟨0, []⟩) ⟨0, 7⟩ .success).map
      (fun r => r.1.toOption) = some (some (slotRid 1 0)) := by decide
  have hord : sampleTable.OrdersKeys (⟨0, 7⟩ : RecordData ℕ).values := by decide
  rcases sampleTable_consistent.insertRecord hkeep ⟨0, []⟩ hord with
    ⟨rid, t, trx, heq, ht, hshape, -⟩ | ⟨rc, t, heq, -⟩
  · rw [heq] at hrun
    obtain rfl : rid = slotRid 1 0 := Option.some.inj (Option.some.inj hrun)
    exact ⟨t, trx, heq, ht, hm.sameShape hshape⟩
  · rw [heq] at hrun
    cases hrun

/-- `x > 5` finds the row both ways. -/
theorem scan_agrees_row : ∃ t, t.Consistent ∧ sampleMeta.Describes t ∧
    t.record (slotRid 1 0) = some ⟨0, 7⟩ ∧
    (t.ScanAgrees sampleMeta none (some (.default (.attr ()) (.value (.ints 5)) .greatThan)) 1 ↔
      t.ScanFits sampleMeta none (some (.default (.attr ()) (.value (.ints 5)) .greatThan)) 1) := by
  obtain ⟨t, trx, heq, ht, hm⟩ := sampleRow
  have hrow : (sampleTable.insertRecord (some ⟨0, []⟩) ⟨0, 7⟩ .success).map
      (fun r => r.2.1.record (slotRid 1 0)) = some (some ⟨0, 7⟩) := by decide
  rw [heq] at hrow
  have hords : (sampleTable.insertRecord (some ⟨0, []⟩) ⟨0, 7⟩ .success).map
      (fun r => decide (∀ index ∈ r.2.1.indexes, index.Orders [5])) = some true := by decide
  rw [heq, Option.map_some, Option.some_inj, decide_eq_true_iff] at hords
  refine ⟨t, ht, hm, Option.some.inj hrow, scan_agrees_iff t sampleMeta ht hm none _ ?_ 1⟩
  intro column b hfirst index hindex
  have hrange : (((), (some (5, false), none)) : Unit × Bounds ℤ) = (column, b) :=
    Option.some.inj hfirst
  cases hrange
  rcases Table.findIndexByField_spec hm () with ⟨-, hnone⟩ | ⟨-, index', hmem, hsome, -⟩
  · rw [hnone] at hindex
    cases hindex
  · rw [hsome] at hindex
    cases hindex
    exact hords index hmem

/-- `5 < x` finds the row in the file, but not through the index. -/
theorem scan_disagrees : ∃ t, t.Consistent ∧ sampleMeta.Describes t ∧
    ¬ t.ScanAgrees sampleMeta none (some (.default (.value (.ints 5)) (.attr ()) .lessThan)) (-1) := by
  obtain ⟨t, trx, heq, ht, hm⟩ := sampleRow
  have hvia : (sampleTable.insertRecord (some ⟨0, []⟩) ⟨0, 7⟩ .success).map
      (fun r => r.2.1.scanRecord sampleMeta none
        (some (.default (.value (.ints 5)) (.attr ()) .lessThan)) (-1)) =
      some (some (.success, [])) := by decide
  have hfull : (sampleTable.insertRecord (some ⟨0, []⟩) ⟨0, 7⟩ .success).map
      (fun r => r.2.1.withoutIndexes.scanRecord { sampleMeta with indexes := [] } none
        (some (.default (.value (.ints 5)) (.attr ()) .lessThan)) (-1)) =
      some (some (.success, [(slotRid 1 0, ⟨0, 7⟩)])) := by decide
  rw [heq, Option.map_some, Option.some_inj] at hvia hfull
  refine ⟨t, ht, hm, ?_⟩
  rintro ⟨via, full, hvia', hfull', hsame, -⟩
  rw [hvia] at hvia'
  rw [hfull] at hfull'
  cases hvia'
  cases hfull'
  simpa using hsame (slotRid 1 0, ⟨0, 7⟩)

end Miniob.Storage.Common
