import Mathlib.Tactic.IntervalCases
import Miniob.Sql.Operator.DeleteRuns
import Miniob.Storage.Common.ScanAgreement

/-!
# A deletion with a scan of an index

The scanner of an index has two positions in leaves: that of the next entry, which it has moved to
before it returns the entry in front of it, and that of the last entry. Deleting a row moves the
entries behind it by one slot, and may move entries between leaves, so that the positions are on
other entries afterwards.

* `KeepsPlace`: the positions are on the same entries as before a deletion, or the scan has read its
  last entry.
* `TreeOf.scansFrom`: then the scan goes on with the entries that were ahead of it.
* `indexScanSpec`: such a scan reads the rows between its bounds.
* `delete_removes_matching`: when the statement does what it is for, with either scan.
-/

namespace Miniob.Sql

open Miniob.Storage.Common Miniob.Storage.Index Miniob.Storage.Record Miniob.Storage.Transaction
open Miniob.Storage.BufferPool (FlatPool flat)

variable {V A : Type}

/-! ## The places of a scanner -/

/-- The entry in a slot of a leaf. -/
def itemAt (index : IndexFile V A) (q slot : Int) : Option (IndexKey A × RID) :=
  match index.pages.page q with
  | .leaf n => n.items[slot.toNat]?
  | _ => none

/-- The leaf where the search for a key ends. -/
def leafOf (fuel : ℕ) (index : IndexFile V A) (key : IndexKey A) : Option Int :=
  (exec flat (findLeaf index.comparator fuel key) index.header index.pages).map fun r => r.1.1.2

/-- A slot has the same entry in both trees, in the leaf of the entry. -/
def SameItem (fuel : ℕ) (index index' : IndexFile V A) (frame : Option Int) (slot : Int) : Prop :=
  ∃ q ∈ frame, ∃ e ∈ itemAt index q slot, itemAt index' q slot = some e ∧
    leafOf fuel index' e.1 = some q

instance [DecidableEq A] (fuel : ℕ) (index index' : IndexFile V A) (frame : Option Int)
    (slot : Int) : Decidable (SameItem fuel index index' frame slot) :=
  inferInstanceAs (Decidable (∃ q ∈ frame, ∃ e ∈ itemAt index q slot,
    itemAt index' q slot = some e ∧ leafOf fuel index' e.1 = some q))

/-- **The scan keeps its place.** It has read its last entry, or its two positions have the same
entries after the deletion as before it. -/
def KeepsPlace (fuel n : ℕ) (s s' : OpenIndexScan V A) : Prop :=
  s.indexScanner.endIndex = -1 ∨
    ∃ index ∈ s.table.indexes[n]?, ∃ index' ∈ s'.table.indexes[n]?,
      SameItem fuel index index' s.indexScanner.leftFrame s.indexScanner.iterIndex ∧
      SameItem fuel index index' s.indexScanner.rightFrame s.indexScanner.endIndex

instance [DecidableEq A] (fuel n : ℕ) (s s' : OpenIndexScan V A) :
    Decidable (KeepsPlace fuel n s s') :=
  inferInstanceAs (Decidable (s.indexScanner.endIndex = -1 ∨
    ∃ index ∈ s.table.indexes[n]?, ∃ index' ∈ s'.table.indexes[n]?,
      SameItem fuel index index' s.indexScanner.leftFrame s.indexScanner.iterIndex ∧
      SameItem fuel index index' s.indexScanner.rightFrame s.indexScanner.endIndex))

/-! ## Deleting from a sorted list -/

section tree

variable [LinearOrder A]

/-- The list without one of its entries. -/
theorem erase_entries {K : Type} [LinearOrder K] {C : SortedSet K} {pre post : List (K × RID)}
    {e : K × RID} (h : C.entries = pre ++ e :: post) : (C.erase e.1).entries = pre ++ post := by
  have hs := C.sorted
  rw [h, List.pairwise_append, List.pairwise_cons] at hs
  obtain ⟨-, ⟨hpost, -⟩, hpre⟩ := hs
  have hkeep : ∀ {l : List (K × RID)}, (∀ f ∈ l, f.1 ≠ e.1) → l.filter (fun f => f.1 ≠ e.1) = l :=
    fun hl => List.filter_eq_self.mpr fun f hf => by simpa using hl f hf
  unfold SortedSet.erase
  dsimp only
  rw [h, List.filter_append, List.filter_cons, if_neg (by simp),
    hkeep fun f hf => (hpre f hf e List.mem_cons_self).ne, hkeep fun f hf => (hpost f hf).ne']

/-- The entries behind a deleted one move by one place. -/
theorem getElem?_erase {K : Type} [LinearOrder K] {C : SortedSet K} {k j : ℕ} {e : K × RID}
    (he : C.entries[k]? = some e) (hj : k < j) :
    (C.erase e.1).entries[j - 1]? = C.entries[j]? := by
  obtain ⟨hlt, hk⟩ := List.getElem?_eq_some_iff.mp he
  have hsplit : C.entries = C.entries.take k ++ e :: C.entries.drop (k + 1) := by
    rw [← hk, ← List.drop_eq_getElem_cons hlt, List.take_append_drop]
  have hlen : (C.entries.take k).length = k := List.length_take_of_le hlt.le
  rw [erase_entries hsplit, List.getElem?_append_right (by omega), hlen, List.getElem?_drop]
  congr 1
  omega

/-- The first entry between two places. -/
theorem take_drop_eq_cons {K : Type} {l : List K} {k b : ℕ} {e : K} (hb : k < b)
    (he : l[k]? = some e) : (l.take b).drop k = e :: (l.take b).drop (k + 1) := by
  rw [List.drop_eq_getElem?_toList_append, List.getElem?_take_of_lt hb, he]
  rfl

/-- What is between two places stays the same when an entry in front of them is deleted. -/
theorem between_erase {K : Type} [LinearOrder K] {C : SortedSet K} {k b : ℕ} {e : K × RID}
    (he : C.entries[k]? = some e) (hb : k < b) :
    ((C.erase e.1).entries.take (b - 1)).drop k = (C.entries.take b).drop (k + 1) := by
  refine List.ext_getElem? fun i => ?_
  rw [List.getElem?_drop, List.getElem?_drop, List.getElem?_take, List.getElem?_take,
    ← getElem?_erase he (show k < k + 1 + i by omega)]
  by_cases hi : k + i < b - 1
  · rw [if_pos hi, if_pos (by omega)]
    congr 1
    omega
  · rw [if_neg hi, if_neg (by omega)]

/-- The index is a tree with these entries, which are those of the records. -/
structure TreeOf (index : IndexFile V A) (height : ℕ) (records : RID → Option (RecordData V))
    (InTree : IndexKey A → Prop) (C : SortedSet (IndexKey A))
    (g : Ghost (WithBot (WithTop (IndexKey A)))) : Prop where
  /-- The comparator orders the keys. -/
  orders : OrdersKeys index.comparator InTree
  /-- The tree. -/
  inv : IndexInv InTree place index.header index.pages g none none
  /-- Its entries. -/
  holds : ∀ e, e ∈ C.entries ↔ Holds (view index.pages) g e
  /-- Its height. -/
  level : g.level index.header.rootPage < height
  /-- The entries are those of the records. -/
  ofRecords : EntriesOf index.field C records

variable {index index' : IndexFile V A} {height fuel : ℕ}
  {records : RID → Option (RecordData V)} {InTree : IndexKey A → Prop}
  {C : SortedSet (IndexKey A)} {g : Ghost (WithBot (WithTop (IndexKey A)))}

namespace TreeOf

theorem represents (h : TreeOf index height records InTree C g) :
    RepresentsSet InTree index.header index.pages height C :=
  Or.inr ⟨g, h.inv, h.holds, h.level⟩

/-- An entry that is in a slot of its leaf has its place in the list. -/
theorem leafAt (h : TreeOf index height records InTree C g) (hfuel : height ≤ fuel) {q : Int}
    {i j : ℕ} {e : IndexKey A × RID} (hitem : itemAt index q i = some e)
    (hleaf : leafOf fuel index e.1 = some q) (hj : C.entries[j]? = some e) :
    ∃ n, LeafAt index.pages g C q n ∧ i < n.items.length ∧ C.cut (g.lo q) + i = j := by
  obtain ⟨p, hp, hep⟩ := (h.holds e).mp (List.mem_of_getElem? hj)
  obtain ⟨r, hr, hl, -, hexec⟩ := findLeaf_ok h.orders.keyOrder h.inv.tree.toNodeInv fuel
    (h.level.trans_le hfuel) (h.inv.tree.entry p hp e hep).1
  have hqr : r = q := by
    rw [leafOf, hexec] at hleaf
    exact Option.some.inj hleaf
  subst hqr
  obtain ⟨n, hn⟩ := h.inv.readInv.leafAt h.holds hr hl
  have hget : n.items[i]? = some e := by
    rw [itemAt, hn.page] at hitem
    exact hitem
  have hi := (List.getElem?_eq_some_iff.mp hget).1
  have hnodup : C.entries.Nodup :=
    C.sorted.imp fun {e f} hlt heq => absurd (congrArg Prod.fst heq) hlt.ne
  have hsame : C.entries[C.cut (g.lo r) + i]? = C.entries[j]? := by
    rw [← hn.get i hi, hget, hj]
  have hlt : C.cut (g.lo r) + i < C.entries.length := by
    have := hn.cut_hi ▸ C.cut_le (x := g.hi r)
    omega
  exact ⟨n, hn, hi, (List.getElem?_inj hlt hnodup).mp hsame⟩

variable [Inhabited A] {scanner : BplusTreeScanner} {k b : ℕ} {e : IndexKey A × RID} {row : Row V}

/-- **A kept place.** The scan goes on with the entries that were ahead of it. -/
theorem scansFrom (h : TreeOf index height records InTree C g) (hfuel : height ≤ fuel)
    (hscan : ScansFrom index.pages g C (k + 1) b scanner) (he : C.entries[k]? = some e)
    (hrow : records row.1 = some row.2) (hrid : e.2 = row.1)
    (hdeleted : EntryDeleted fuel index row index')
    (hleft : SameItem fuel index index' scanner.leftFrame scanner.iterIndex)
    (hright : SameItem fuel index index' scanner.rightFrame scanner.endIndex) :
    ∃ g', TreeOf index' height (Function.update records row.1 none) InTree (C.erase e.1) g' ∧
      ScansFrom index'.pages g' (C.erase e.1) k (b - 1) scanner := by
  obtain ⟨hlt, ⟨q, n, i, hq, hi, hk, hframe, hslot⟩, r, m, j, hr, hj, hb, hframe', hslot'⟩ := hscan
  have hkey : e.1 = index.key row := by
    obtain ⟨rid', data', hrid', rfl⟩ := (h.ofRecords e).mp (List.mem_of_getElem? he)
    obtain rfl : rid' = row.1 := hrid
    rw [hrow] at hrid'
    obtain rfl := Option.some.inj hrid'
    rfl
  obtain ⟨index₂, hdeleted₂, hrep, hmatch⟩ :=
    IndexFile.deleteEntry_ok h.orders h.represents h.ofRecords hrow hfuel
  obtain rfl : index₂ = index' := by
    have := hdeleted₂.run.symm.trans hdeleted.run
    simpa using this
  rw [← hkey] at hrep hmatch
  -- the entry behind the deleted one is still there, so that there is a tree
  have hnext : (C.erase e.1).entries[k]? = C.entries[k + 1]? :=
    getElem?_erase he (Nat.lt_succ_self k)
  have hlast : (C.erase e.1).entries[b - 1 - 1]? = C.entries[b - 1]? :=
    getElem?_erase he (by omega)
  rcases hrep with ⟨-, hempty⟩ | ⟨g', hinv, hC, hlevel⟩
  · have hnone : (C.erase e.1).entries = [] := List.eq_nil_iff_forall_not_mem.mpr fun f hf =>
      Set.eq_empty_iff_forall_notMem.mp hempty f hf
    rw [hnone, List.getElem?_nil, ← hk, ← hq.get i hi, List.getElem?_eq_getElem hi] at hnext
    cases hnext
  have htree : TreeOf index₂ height (Function.update records row.1 none) InTree (C.erase e.1) g' :=
    ⟨hdeleted.comparator ▸ h.orders, hinv, hC, hlevel, hmatch⟩
  refine ⟨g', htree, by omega, ?_, ?_⟩
  · obtain ⟨q', hq', f, hf, hf', hleaf⟩ := hleft
    obtain rfl : q = q' := Option.some.inj (hframe.symm.trans hq')
    rw [hslot] at hf hf'
    have hplace : C.entries[k + 1]? = some f := by
      rw [← hk, ← hq.get i hi]
      rw [itemAt, hq.page] at hf
      exact hf
    obtain ⟨n', hn', hi', hcut⟩ := htree.leafAt hfuel hf' hleaf (hnext.trans hplace)
    exact ⟨q, n', i, hn', hi', hcut, hframe, hslot⟩
  · obtain ⟨r', hr', f, hf, hf', hleaf⟩ := hright
    obtain rfl : r = r' := Option.some.inj (hframe'.symm.trans hr')
    rw [hslot'] at hf hf'
    have hplace : C.entries[b - 1]? = some f := by
      rw [← hb, Nat.add_sub_cancel, ← hr.get j hj]
      rw [itemAt, hr.page] at hf
      exact hf
    obtain ⟨m', hm', hj', hcut⟩ := htree.leafAt hfuel hf' hleaf (hlast.trans hplace)
    exact ⟨r, m', j, hm', hj', by omega, hframe', hslot'⟩

end TreeOf

/-! ## The scan -/

/-- The scan of index `n` stands in front of entries whose records are the rows. -/
def EntriesAhead (index : IndexFile V A) (height : ℕ) (records : RID → Option (RecordData V))
    (C : SortedSet (IndexKey A)) (k : ℕ) (scanner : BplusTreeScanner) (rows : List (Row V)) :
    Prop :=
  ∃ (InTree : IndexKey A → Prop) (g : Ghost (WithBot (WithTop (IndexKey A)))) (b : ℕ),
    TreeOf index height records InTree C g ∧ ScansFrom index.pages g C k b scanner ∧
    rows.map Prod.fst = ((C.entries.take b).drop k).map Prod.snd

/-- The scanner stands in front of the rows, or has read its last entry. -/
structure IndexScanAt (n height : ℕ) (s : OpenIndexScan V A) (rows : List (Row V)) : Prop where
  /-- The rows. -/
  ofTable : DeletePlan.RowsOf s.table height rows
  /-- The scanner. -/
  scanner : ∃ index, s.table.indexes[n]? = some index ∧
    (s.indexScanner.endIndex = -1 ∧ rows = [] ∨
      ∃ C k, EntriesAhead index height s.table.record C k s.indexScanner rows)

/-- The scanner has returned a row and moved on to the next ones. -/
structure IndexScanFetched (n height : ℕ) (s : OpenIndexScan V A) (row : Row V)
    (rows : List (Row V)) : Prop where
  /-- The rows. -/
  ofTable : DeletePlan.RowsOf s.table height (row :: rows)
  /-- The scanner. -/
  scanner : ∃ index, s.table.indexes[n]? = some index ∧
    (s.indexScanner.endIndex = -1 ∧ rows = [] ∨
      ∃ C k e, EntriesAhead index height s.table.record C (k + 1) s.indexScanner rows ∧
        C.entries[k]? = some e ∧ e.2 = row.1)

variable [Inhabited A] {scanner : BplusTreeScanner} {k : ℕ} {e : IndexKey A × RID}
  {q : DeletePlan V} {n : ℕ} {s : OpenIndexScan V A} {row : Row V} {rows : List (Row V)}

/-- The scanner reads the entry of the first row, and the row is read from the data file. -/
theorem IndexScanAt.fetchRow (h : IndexScanAt n height s (row :: rows))
    (hfault : q.fault s.calls = none) :
    ∃ s', (q.indexScan fuel n).fetch s = some (.success, some row, s') ∧
      s'.table.record = s.table.record ∧ s'.calls = s.calls + 1 ∧
      IndexScanFetched n height s' row rows := by
  obtain ⟨index, hindex, ⟨-, hnil⟩ | ⟨C, k, InTree, g, b, htree, hscan, hrows⟩⟩ := h.scanner
  · cases hnil
  obtain ⟨e, scanner', he, hexec, hnext⟩ := nextEntry_ok htree.inv.readInv htree.holds hscan
  rw [take_drop_eq_cons hscan.lt he, List.map_cons, List.map_cons] at hrows
  obtain ⟨hrid, hrest⟩ := List.cons.inj hrows
  obtain ⟨hrc, hrecord, hsame⟩ :=
    PinnedFile.getRecord_of_some (h.ofTable.record row List.mem_cons_self)
  obtain ⟨files, hfiles⟩ : ∃ files, files = Function.update s.table.files s.table.pool
    ((s.table.files s.table.pool).getRecord .allSuccess row.1.pageNum row.1.slotNum.toNat).file :=
    ⟨_, rfl⟩
  have hsame' : (s.table.files s.table.pool).SamePages (files s.table.pool) := by
    rw [hfiles, Function.update_self]
    exact hsame
  have hrecord' : ({ s.table with files := files } : OpenTable V A).record = s.table.record :=
    hsame'.record
  refine ⟨⟨{ s.table with files := files }, scanner', s.calls + 1⟩, ?_, hrecord', rfl,
    h.ofTable.setFiles hsame', index, hindex, ?_⟩
  · rw [← hrid] at hexec
    simp [DeletePlan.indexScan, hfault, hindex, hexec, hrc, hrecord, hfiles]
  · rcases hnext with ⟨hkb, hend⟩ | hscan'
    · refine Or.inl ⟨hend, ?_⟩
      rw [List.drop_eq_nil_of_le ((List.length_take_le _ _).trans hkb.ge)] at hrest
      exact List.map_eq_nil_iff.mp hrest
    · refine Or.inr ⟨C, k, e, ⟨InTree, g, b, ?_, hscan', hrest⟩, he, hrid.symm⟩
      rw [hrecord']
      exact htree

/-- A row that has been read is deleted, and the scan goes on if it keeps its place. -/
theorem IndexScanFetched.delete (h : IndexScanFetched n height s row rows)
    (hfuel : height ≤ fuel) :
    ∃ s', (q.indexScan fuel n).deleteRecord s row = some (.success, s') ∧
      s'.table.record = Function.update s.table.record row.1 none ∧ s'.calls = s.calls ∧
      (KeepsPlace fuel n s s' → IndexScanAt n height s' rows) := by
  have hrow := h.ofTable.record row List.mem_cons_self
  obtain ⟨t', hdeleted⟩ := OpenTable.deleteRecord_ok h.ofTable.consistent hrow hfuel
  obtain ⟨index, hindex, hcases⟩ := h.scanner
  obtain ⟨hlt, rfl⟩ := List.getElem?_eq_some_iff.mp hindex
  have hlt' : n < t'.indexes.length := hdeleted.indexes.length_eq ▸ hlt
  have hentry : EntryDeleted fuel s.table.indexes[n] row t'.indexes[n] :=
    hdeleted.indexes.get hlt hlt'
  refine ⟨{ s with table := t' }, ?_, hdeleted.record, rfl, fun hplace =>
    ⟨h.ofTable.delete hdeleted, _, List.getElem?_eq_getElem hlt', ?_⟩⟩
  · show (s.table.deleteRecord fuel row).map _ = _
    rw [hdeleted.run]
    rfl
  · rcases hcases with hend | ⟨C, k, e, ⟨InTree, g, b, htree, hscan, hrows⟩, he, hrid⟩
    · exact Or.inl hend
    rcases hplace with hend | ⟨index₁, hindex₁, index₂, hindex₂, hleft, hright⟩
    · obtain ⟨_, _, i, _, _, _, _, hi⟩ := hscan.right
      rw [hi] at hend
      omega
    · obtain rfl : s.table.indexes[n] = index₁ := Option.some.inj (hindex.symm.trans hindex₁)
      obtain rfl : t'.indexes[n] = index₂ :=
        Option.some.inj ((List.getElem?_eq_getElem hlt').symm.trans hindex₂)
      obtain ⟨g', htree', hscan'⟩ := htree.scansFrom hfuel hscan he hrow hrid hentry hleft hright
      refine Or.inr ⟨C.erase e.1, k, InTree, g', b - 1, ?_, hscan', ?_⟩
      · show TreeOf _ height t'.record _ _ _
        rw [hdeleted.record]
        exact htree'
      · rw [between_erase he (Nat.lt_of_succ_lt hscan.lt)]
        exact hrows

/-- A scan of an index that keeps its place. -/
theorem indexScanSpec (q : DeletePlan V) (hfuel : height ≤ fuel) :
    DeletePlan.ScanSpec q (q.indexScan fuel n) (KeepsPlace fuel n)
      (fun s : OpenIndexScan V A => s.table.record) OpenIndexScan.calls
      (fun s => s.table.Consistent height) (IndexScanAt n height) (IndexScanFetched n height) where
  fetchEnd {s} h := by
    obtain ⟨index, hindex, ⟨hend, -⟩ | ⟨C, k, InTree, g, b, htree, hscan, hrows⟩⟩ := h.scanner
    · refine ⟨{ s with calls := s.calls + 1 }, ?_, rfl, h.ofTable.consistent⟩
      simp [DeletePlan.indexScan, hend, hindex, nextEntry_eof hend]
    · obtain ⟨e, -, he, -⟩ := nextEntry_ok htree.inv.readInv htree.holds hscan
      rw [take_drop_eq_cons hscan.lt he] at hrows
      cases hrows
  fetchFault {s row rows rc} h hfault := by
    obtain ⟨index, hindex, ⟨-, hnil⟩ | ⟨C, k, InTree, g, b, htree, hscan, hrows⟩⟩ := h.scanner
    · cases hnil
    · obtain ⟨_, _, i, _, _, _, _, hi⟩ := hscan.right
      have hend : s.indexScanner.endIndex ≠ -1 := by omega
      exact ⟨{ s with calls := s.calls + 1 }, by simp [DeletePlan.indexScan, hend, hfault]⟩
  fetchRow h hfault := h.fetchRow hfault
  keep h := ⟨h.ofTable.tail, by
    obtain ⟨index, hindex, hcases⟩ := h.scanner
    exact ⟨index, hindex, hcases.imp id fun ⟨C, k, e, hahead, _⟩ => ⟨C, k + 1, hahead⟩⟩⟩
  delete h := h.delete hfuel

/-! ## The rows between the bounds -/

/-- The entry of the row is between the bounds of the scan. -/
def InRange (index : IndexFile V A) (left right : IndexKey A) (row : Row V) : Prop :=
  left ≤ index.key row ∧ index.key row < right

/-- The records whose entries are between the bounds. -/
def rangeRids (index : IndexFile V A) (left right : IndexKey A) (t : OpenTable V A) : Set RID :=
  {rid | ∃ data, t.record rid = some data ∧ InRange index left right (rid, data)}

variable {t : OpenTable V A} {left right : IndexKey A} {l : List (IndexKey A × RID)}

/-- The records of some entries. -/
def rowsOfEntries (records : RID → Option (RecordData V)) (l : List (IndexKey A × RID)) :
    List (Row V) :=
  l.filterMap fun e => (records e.2).map (Prod.mk e.2)

omit [LinearOrder A] [Inhabited A] in
theorem map_rowsOfEntries (h : ∀ e ∈ l, ∃ data, records e.2 = some data) :
    (rowsOfEntries records l).map Prod.fst = l.map Prod.snd := by
  induction l with
  | nil => rfl
  | cons e l ih =>
    obtain ⟨data, hdata⟩ := h e List.mem_cons_self
    rw [rowsOfEntries, List.filterMap_cons, hdata]
    simpa [rowsOfEntries] using ih fun f hf => h f (List.mem_cons_of_mem _ hf)

omit [LinearOrder A] [Inhabited A] in
theorem mem_rowsOfEntries {rid : RID} {data : RecordData V} :
    (rid, data) ∈ rowsOfEntries records l ↔
      records rid = some data ∧ ∃ e ∈ l, e.2 = rid := by
  unfold rowsOfEntries
  simp only [List.mem_filterMap, Option.map_eq_some_iff, Prod.mk.injEq]
  constructor
  · rintro ⟨e, he, data', hdata, rfl, rfl⟩
    exact ⟨hdata, e, he, rfl⟩
  · rintro ⟨hdata, e, he, rfl⟩
    exact ⟨e, he, data, hdata, rfl, rfl⟩

omit [Inhabited A] in
/-- The rows between the bounds, in the order of the index. -/
theorem rowsOf_range (left right : IndexKey A) (hc : t.Consistent height)
    (hmatch : EntriesOf index.field C t.record) :
    ∃ rows, rows.map Prod.fst = ((C.entries.take (C.cut (upperPoint (some right)))).drop
        (C.cut (lowerPoint (some left)))).map Prod.snd ∧
      DeletePlan.RowsOf t height rows ∧
      ∀ rid data, (rid, data) ∈ rows ↔
        t.record rid = some data ∧ InRange index left right (rid, data) := by
  rw [← C.filter_between]
  set entries := C.entries.filter fun e =>
    lowerPoint (some left) ≤ place e.1 ∧ place e.1 < upperPoint (some right) with hentries
  have hmem : ∀ e, e ∈ entries ↔ e ∈ C.entries ∧ left ≤ e.1 ∧ e.1 < right := by
    intro e
    simp [hentries, lowerPoint, upperPoint, place_le_place]
  have hrecord : ∀ e ∈ entries, ∃ data, t.record e.2 = some data ∧
      e.1 = index.key (e.2, data) := by
    intro e he
    obtain ⟨rid, data, hrid, rfl⟩ := (hmatch e).mp ((hmem e).mp he).1
    exact ⟨data, hrid, rfl⟩
  have hmap : (rowsOfEntries t.record entries).map Prod.fst = entries.map Prod.snd :=
    map_rowsOfEntries fun e he => (hrecord e he).imp fun _ h => h.1
  refine ⟨rowsOfEntries t.record entries, hmap, ⟨hc, fun row hrow => ?_, ?_⟩, fun rid data => ?_⟩
  · exact (mem_rowsOfEntries.mp hrow).1
  · -- entries of one record have the same key
    rw [hmap, List.Nodup, List.pairwise_map]
    refine (C.sorted.sublist List.filter_sublist).imp_of_mem fun {e f} he hf hlt heq => ?_
    obtain ⟨data, hdata, hkey⟩ := hrecord e he
    obtain ⟨data', hdata', hkey'⟩ := hrecord f hf
    rw [heq, hdata'] at hdata
    rw [hkey, hkey', heq, Option.some.inj hdata] at hlt
    exact absurd hlt (lt_irrefl _)
  · rw [mem_rowsOfEntries]
    refine and_congr_right fun hrid => ?_
    constructor
    · rintro ⟨e, he, rfl⟩
      obtain ⟨data', hdata', hkey⟩ := hrecord e he
      obtain rfl : data = data' := Option.some.inj (hrid.symm.trans hdata')
      unfold InRange
      rw [← hkey]
      exact ((hmem e).mp he).2
    · intro hrange
      exact ⟨_, (hmem _).mpr ⟨(hmatch _).mpr ⟨rid, data, hrid, rfl⟩, hrange⟩, rfl⟩

omit [Inhabited A] in
/-- The scan of an index is opened in front of the rows between its bounds, unless the index has no
entry. -/
theorem openIndexScan_spec (hc : t.Consistent height) (hindex : t.indexes[n]? = some index)
    (hmirrors : index.Mirrors [left, right] height t.record) (hle : left ≤ right)
    (hfuel : height ≤ fuel) :
    ∃ rc s, DeletePlan.openIndexScan fuel n left right t = some (rc, s) ∧ s.table = t ∧
      s.calls = 0 ∧ (rc = .internal ∨ rc = .success ∧ ∃ rows, IndexScanAt n height s rows ∧
        ∀ rid data, (rid, data) ∈ rows ↔
          t.record rid = some data ∧ InRange index left right (rid, data)) := by
  obtain ⟨InTree, C, ho, hkeys, hrep, hmatch⟩ := hmirrors
  rcases hrep with ⟨hempty, -⟩ | ⟨g, hinv, hC, hlevel⟩
  · refine ⟨.internal, ⟨t, { BplusTreeScanner.closed with inited := true }, 0⟩, ?_, rfl, rfl,
      Or.inl rfl⟩
    simp [DeletePlan.openIndexScan, hindex, openKeys, openLeft, findLeaf,
      findLeafInternal_empty hempty.root]
    rfl
  · obtain ⟨rows, hmap, hrows, hmem⟩ := rowsOf_range left right hc hmatch
    have hl : ∀ k ∈ some left, InTree k := by simpa using hkeys left (by simp)
    have hr : ∀ k ∈ some right, InTree k := by simpa using hkeys right (by simp)
    have hcut : C.cut (lowerPoint (some left)) ≤ C.cut (upperPoint (some right)) :=
      C.cut_mono (place_le_place.mpr hle)
    have hend : ({ BplusTreeScanner.closed with inited := true } :
        BplusTreeScanner).endIndex = -1 := rfl
    obtain ⟨scanner, hopen, hscan⟩ :=
      openKeys_ok ho hinv.readInv hC (hlevel.trans_le hfuel) hl hr hcut hend
    refine ⟨.success, ⟨t, scanner, 0⟩, ?_, rfl, rfl, Or.inr ⟨rfl, rows, ⟨hrows, index, hindex, ?_⟩,
      hmem⟩⟩
    · simp [DeletePlan.openIndexScan, hindex, hopen]
    · rcases hscan with ⟨heq, hend'⟩ | hscan
      · refine Or.inl ⟨hend', ?_⟩
        rw [heq, List.drop_eq_nil_of_le (List.length_take_le _ _)] at hmap
        exact List.map_eq_nil_iff.mp hmap
      · exact Or.inr ⟨C, _, InTree, g, _, ⟨ho, hinv, hC, hlevel, hmatch⟩, hscan, hmap⟩

/-! ## The statement -/

/-- The scan of an index reads what it has to: no call of the scanner fails on the way through the
rows between its bounds, nor a condition, the rows that match are between the bounds, and the scan
keeps its place at every deletion. -/
structure DeletePlan.IndexScanReads (q : DeletePlan V) (fuel n : ℕ) (index : IndexFile V A)
    (left right : IndexKey A) (t : OpenTable V A) : Prop where
  /-- No call fails. -/
  fault : ∀ k < (rangeRids index left right t).ncard, q.fault k = none
  /-- Every condition has a value. -/
  filter : ∀ rid data, t.record rid = some data → InRange index left right (rid, data) →
    ∀ rc, q.filter (rid, data) ≠ .error rc
  /-- The bounds leave out no row that matches. -/
  inRange : ∀ rid data, t.record rid = some data → q.accepts (rid, data) = true →
    InRange index left right (rid, data)
  /-- The scan keeps its place. -/
  undisturbed : ∀ r ∈ openIndexScan fuel n left right t, r.1 = .success →
    q.Undisturbed (q.indexScan fuel n) (KeepsPlace fuel n) fuel fuel r.2

/-- **DELETE with a scan of an index.** -/
theorem deleteByIndex_deletes {q : DeletePlan V} (hc : t.Consistent height)
    (hindex : t.indexes[n]? = some index)
    (hmirrors : index.Mirrors [left, right] height t.record) (hle : left ≤ right)
    (hheight : height ≤ fuel) (hfuel : (rangeRids index left right t).ncard < fuel)
    (h : q.IndexScanReads fuel n index left right t) :
    q.DeletesMatching t (q.deleteByIndex fuel n left right t) := by
  obtain ⟨rc, s, hopen, rfl, hcalls, rfl | ⟨rfl, rows, hat, hmem⟩⟩ :=
    openIndexScan_spec hc hindex hmirrors hle hheight
  · refine ⟨.internal, .internal, s.table, ?_, nofun⟩
    rw [DeletePlan.deleteByIndex, hopen]
    rfl
  · have hcount : (rangeRids index left right s.table).ncard = rows.length := by
      have hlength : (rows.map Prod.fst).length = rows.length := List.length_map _
      rw [← hlength]
      refine Table.ncard_eq_length hat.ofTable.nodup fun rid => ?_
      rw [List.mem_map]
      constructor
      · rintro ⟨row, hrow, rfl⟩
        exact ⟨row.2, (hmem row.1 row.2).mp hrow⟩
      · rintro ⟨data, hdata⟩
        exact ⟨(rid, data), (hmem rid data).mpr hdata, rfl⟩
    rw [hcount] at hfuel
    have hclean : q.Clean s.calls rows := by
      rw [hcalls]
      refine ⟨fun k hk => ?_, fun row hrow => ?_⟩
      · rw [Nat.zero_add]
        exact h.fault k (hcount ▸ hk)
      · obtain ⟨hrecord, hrange⟩ := (hmem row.1 row.2).mp hrow
        exact h.filter row.1 row.2 hrecord hrange
    obtain ⟨last, s', hrun, hlast, hdone⟩ := DeletePlan.deleteNext_spec (indexScanSpec q hheight)
      fuel hat (h.undisturbed _ hopen rfl) hfuel hfuel
    obtain ⟨hleft, hconsistent⟩ := hdone hclean
    refine ⟨.recordEof, last, s'.table, ?_, fun _ => ⟨hlast.mpr hclean, ?_, height, hconsistent⟩⟩
    · rw [DeletePlan.deleteByIndex, hopen]
      simp [hrun]
    · rw [hleft, DeletePlan.removed_eq_iff hat.ofTable.record]
      exact fun rid data hrid haccept =>
        (hmem rid data).mpr ⟨hrid, h.inRange rid data hrid haccept⟩

/-- **DELETE.** With a scan of the data file, the statement does what it is for if and only if no
call of the scanner and no condition fails and no row that matches is on a page whose bit is clear.
With a scan of an index it does so if no call and no condition fails, the rows that match are
between the bounds, and the two positions of the scanner have the same entries after every deletion
as before it, unless the last entry has been read. -/
theorem delete_removes_matching (q : DeletePlan V) {t : OpenTable V A} (hc : t.Consistent height)
    (hheight : height ≤ fuel) :
    ((t.files t.pool).header.bitmap 0 = true → t.visible.length < fuel →
      (q.DeletesMatching t (q.deleteByTable fuel t) ↔ q.TableScanReads t)) ∧
    ∀ (n : ℕ) (index : IndexFile V A) (left right : IndexKey A), t.indexes[n]? = some index →
      index.Mirrors [left, right] height t.record → left ≤ right →
      (rangeRids index left right t).ncard < fuel →
      q.IndexScanReads fuel n index left right t →
      q.DeletesMatching t (q.deleteByIndex fuel n left right t) :=
  ⟨fun hbit hfuel => DeletePlan.deleteByTable_iff q hc hbit hheight hfuel,
    fun _ _ _ _ hindex hmirrors hle hfuel h =>
      deleteByIndex_deletes hc hindex hmirrors hle hheight hfuel h⟩

end tree

/-! ## Runs -/

/-- A data file of one page, with the rows of these values. -/
def rowsFile (values : List Int) : PinnedFile (RecordData Int) where
  page := fun _ => ⟨values.length, 8, fun i => i < values.length, fun i => ⟨0, values.getD i 0⟩⟩
  header := ⟨2, 2, fun i => i < 2⟩
  pins := fun _ => 0
  disposedPages := ∅
  freePages := ∅

/-- The insertions of their entries. -/
def rowInsertions (values : List Int) : List (EntryOp Int) :=
  values.mapIdx fun slot v => .insertEntry v (slotRid 1 slot)

/-- The index with their entries. -/
def rowsIndex (internalMaxSize leafMaxSize : Int) (values : List Int) : IndexFile Int Int :=
  let run := exec flat (createAndRun internalMaxSize leafMaxSize 9 (rowInsertions values)) default
    .created
  ⟨id, keyComparator compareInt, (run.map fun r => r.1.2).getD default,
    (run.map fun r => r.2).getD .created⟩

/-- The table with these records and this index. -/
def rowsTable (internalMaxSize leafMaxSize : Int) (values : List Int) : OpenTable Int Int :=
  ⟨fun _ => rowsFile values, 0, [rowsIndex internalMaxSize leafMaxSize values]⟩

/-- `DELETE FROM t WHERE a = 7` -/
def deleteSevens : DeletePlan Int where
  schema := ⟨"t", ["a"]⟩
  cells := fun value _ => .ints value
  predicates := [.comparison .equalTo (.field ⟨"t", "a"⟩) (.value (.ints 7))]
  fault := fun _ => none

/-- The bounds of the literal. -/
def sevens : IndexKey Int × IndexKey Int := (leftKey (7, true), rightKey (7, true))

theorem record_rowsFile {values : List Int} (hlength : values.length ≤ 8) {rid : RID}
    {data : RecordData Int} :
    (rowsFile values).record rid = some data ↔
      ∃ slot < values.length, rid = slotRid 1 slot ∧ data = ⟨0, values.getD slot 0⟩ := by
  rw [PinnedFile.record_eq_some]
  constructor
  · rintro ⟨p, slot, rfl, hpos, hlt, ⟨-, hbit⟩, rfl⟩
    obtain rfl : p = 1 := by
      have : p < 2 := hlt
      omega
    exact ⟨slot, by simpa [rowsFile] using hbit, rfl, rfl⟩
  · rintro ⟨slot, hslot, rfl, rfl⟩
    exact ⟨1, slot, rfl, Nat.one_pos, Nat.one_lt_two,
      ⟨hslot.trans_le hlength, by simpa [rowsFile]⟩, rfl⟩

/-- The index mirrors the records. -/
theorem mirrors_rowsIndex {internalMaxSize leafMaxSize : Int}
    (hinternal : 6 ≤ (newFileHeader 4 internalMaxSize leafMaxSize).internalMaxSize)
    (hleaf : 4 ≤ (newFileHeader 4 internalMaxSize leafMaxSize).leafMaxSize)
    (values : List Int) (hlength : values.length ≤ 8)
    (hsmall : ∀ v ∈ values, 0 ≤ v ∧ v ≤ 99)
    (hentries : (reference ((rowInsertions values).map EntryOp.toIndexOp) .empty).2.entries.Perm
      (values.mapIdx fun slot v => (⟨v, slotRid 1 slot⟩, slotRid 1 slot))) :
    (rowsIndex internalMaxSize leafMaxSize values).Mirrors [sevens.1, sevens.2] values.length
      (rowsFile values).record := by
  have ho : OrdersKeys (keyComparator compareInt)
      fun k : IndexKey Int => (0 ≤ k.attr ∧ k.attr ≤ 99) ∧ RIDInRange k.rid :=
    compareInt_orders (fun a b ha hb => by omega) fun a ha => ha.2
  obtain ⟨s₀, hcreate, h₀⟩ := create_ok
    (fun k : IndexKey Int => (0 ≤ k.attr ∧ k.attr ≤ 99) ∧ RIDInRange k.rid) hinternal hleaf default
  have hkeys : ∀ op ∈ (rowInsertions values).map EntryOp.toIndexOp,
      (0 ≤ op.key.attr ∧ op.key.attr ≤ 99) ∧ RIDInRange op.key.rid := by
    intro op hop
    obtain ⟨insertion, hinsertion, rfl⟩ := List.mem_map.mp hop
    obtain ⟨slot, hslot, rfl⟩ := List.mem_mapIdx.mp hinsertion
    refine ⟨hsmall _ (List.getElem_mem hslot), ?_⟩
    simp only [EntryOp.toIndexOp, EntryOp.makeKey, IndexOp.key, RIDInRange, slotRid]
    omega
  have hcount : 0 + ((rowInsertions values).map EntryOp.toIndexOp).length = values.length := by
    simp [rowInsertions]
  obtain ⟨header, pages, hrun, hrep, -⟩ := runOps_ok ho _ h₀ hkeys 9 (by omega)
  have hexec : exec flat (createAndRun internalMaxSize leafMaxSize 9 (rowInsertions values)) default
      .created = some (((.success,
        (reference ((rowInsertions values).map EntryOp.toIndexOp) .empty).1), header), pages) := by
    simp [createAndRun, hcreate, hrun]
  have hindex : rowsIndex internalMaxSize leafMaxSize values =
      ⟨id, keyComparator compareInt, header, pages⟩ := by
    simp [rowsIndex, hexec]
  rw [hindex]
  rw [hcount] at hrep
  refine ⟨_, _, ho, ?_, hrep, fun e => ?_⟩
  · simp [sevens, leftKey, rightKey, RIDInRange, RID.min, RID.max]
  · rw [hentries.mem_iff, List.mem_mapIdx]
    simp only [record_rowsFile hlength]
    constructor
    · rintro ⟨slot, hslot, rfl⟩
      exact ⟨_, _, ⟨slot, hslot, rfl, rfl⟩, by rw [List.getElem_eq_getD 0]; rfl⟩
    · rintro ⟨rid, data, ⟨slot, hslot, rfl, rfl⟩, rfl⟩
      exact ⟨slot, hslot, by rw [List.getElem_eq_getD 0]; rfl⟩

theorem consistent_rowsTable {internalMaxSize leafMaxSize : Int} {values : List Int}
    (h : (rowsIndex internalMaxSize leafMaxSize values).Mirrors [sevens.1, sevens.2] values.length
      (rowsFile values).record) :
    (rowsTable internalMaxSize leafMaxSize values).Consistent values.length := by
  intro index hindex
  obtain rfl := List.mem_singleton.mp hindex
  obtain ⟨InTree, C, ho, -, hrest⟩ := h
  exact ⟨InTree, C, ho, nofun, hrest⟩

/-- Two rows of six have the value 7. With four entries on a leaf, theirs are the last one of a leaf
and the first one of the next, so that a scan keeps its place when they are deleted. -/
def sixValues : List Int := [1, 7, 7, 9, 8, 2]

/-- They are deleted with either scan. -/
theorem delete_removes_row :
    deleteSevens.DeletesMatching (rowsTable 6 4 sixValues)
      (deleteSevens.deleteByTable 9 (rowsTable 6 4 sixValues)) ∧
    deleteSevens.DeletesMatching (rowsTable 6 4 sixValues)
      (deleteSevens.deleteByIndex 9 0 sevens.1 sevens.2 (rowsTable 6 4 sixValues)) := by
  have hmirrors : (rowsIndex 6 4 sixValues).Mirrors [sevens.1, sevens.2] 6
      (rowsFile sixValues).record :=
    mirrors_rowsIndex (by decide) (by decide) sixValues (by decide) (by decide) (by decide)
  have hrecord : ∀ {rid data}, (rowsTable 6 4 sixValues).record rid = some data →
      ∃ slot < 6, rid = slotRid 1 slot ∧ data = ⟨0, sixValues.getD slot 0⟩ :=
    (record_rowsFile (by decide)).mp
  have hfilter : ∀ {rid data}, (rowsTable 6 4 sixValues).record rid = some data →
      ∀ rc, deleteSevens.filter (rid, data) ≠ .error rc := by
    intro rid data hdata
    obtain ⟨slot, hslot, rfl, rfl⟩ := hrecord hdata
    interval_cases slot <;> exact nofun
  have hcount : (rangeRids (rowsIndex 6 4 sixValues) sevens.1 sevens.2
      (rowsTable 6 4 sixValues)).ncard < 9 := by
    refine (Set.ncard_le_ncard (t := ((Finset.range 6).image (slotRid 1) : Finset RID)) ?_
      (Finset.finite_toSet _)).trans_lt ?_
    · rintro rid ⟨data, hdata, -⟩
      obtain ⟨slot, hslot, rfl, -⟩ := hrecord hdata
      exact Finset.mem_coe.mpr (Finset.mem_image_of_mem _ (Finset.mem_range.mpr hslot))
    · rw [Set.ncard_coe_finset]
      exact Finset.card_image_le.trans_lt (by decide)
  obtain ⟨htable, hindex⟩ := delete_removes_matching deleteSevens
    (consistent_rowsTable hmirrors) (show 6 ≤ 9 by decide)
  refine ⟨(htable (by decide) (by decide)).mpr ⟨⟨fun _ _ => rfl, fun row hrow => ?_⟩, ?_⟩,
    hindex 0 _ _ _ rfl hmirrors (by decide) hcount
      ⟨fun _ _ => rfl, fun _ _ hdata _ => hfilter hdata, ?_, ?_⟩⟩
  · exact hfilter (DeletePlan.mem_visible.mp hrow).1
  · intro rid data hdata _
    obtain ⟨slot, -, rfl, -⟩ := hrecord hdata
    rfl
  · intro rid data hdata haccepts
    obtain ⟨slot, hslot, rfl, rfl⟩ := hrecord hdata
    interval_cases slot <;>
      first
      | exact absurd haccepts (by decide)
      | exact ⟨by decide, by decide⟩
  · decide +kernel

/-- Three rows with the same key. The scanner is on the second entry when the first row is deleted,
so that it misses the second row; then it reads the third entry, does not find the end where it was,
and fails, which the operator reports as the end. Only the first row is deleted. -/
theorem delete_leaves_matching :
    (rowsTable (-1) (-1) [7, 7, 7]).Consistent 3 ∧
    (rowsIndex (-1) (-1) [7, 7, 7]).Mirrors [sevens.1, sevens.2] 3
      (rowsTable (-1) (-1) [7, 7, 7]).record ∧
    (∀ slot < 3, (rowsTable (-1) (-1) [7, 7, 7]).record (slotRid 1 slot) = some ⟨0, 7⟩ ∧
      deleteSevens.accepts (slotRid 1 slot, ⟨0, 7⟩) = true) ∧
    (deleteSevens.deleteByIndex 9 0 sevens.1 sevens.2 (rowsTable (-1) (-1) [7, 7, 7])).map (fun r =>
      (r.1, r.2.1, (List.range 3).map fun slot => (r.2.2.record (slotRid 1 slot)).isSome)) =
        some (.recordEof, .internal, [false, true, true]) ∧
    ¬ deleteSevens.DeletesMatching (rowsTable (-1) (-1) [7, 7, 7])
      (deleteSevens.deleteByIndex 9 0 sevens.1 sevens.2 (rowsTable (-1) (-1) [7, 7, 7])) := by
  have hmirrors : (rowsIndex (-1) (-1) [7, 7, 7]).Mirrors [sevens.1, sevens.2] 3
      (rowsFile [7, 7, 7]).record :=
    mirrors_rowsIndex (by decide) (by decide) [7, 7, 7] (by decide) (by decide) (by decide)
  have hrun : (deleteSevens.deleteByIndex 9 0 sevens.1 sevens.2 (rowsTable (-1) (-1) [7, 7, 7])).map
      (fun r =>
        (r.1, r.2.1, (List.range 3).map fun slot => (r.2.2.record (slotRid 1 slot)).isSome)) =
        some (.recordEof, .internal, [false, true, true]) := by decide
  refine ⟨consistent_rowsTable hmirrors, hmirrors, fun slot hslot => ⟨?_, rfl⟩, hrun, ?_⟩
  · refine (record_rowsFile (by decide)).mpr ⟨slot, hslot, rfl, ?_⟩
    obtain rfl | rfl | rfl : slot = 0 ∨ slot = 1 ∨ slot = 2 := by omega
    all_goals rfl
  · rintro ⟨rc, last, t', heq, hmet⟩
    rw [heq] at hrun
    simp only [Option.map_some, Option.some.injEq, Prod.mk.injEq] at hrun
    obtain ⟨rfl, rfl, -⟩ := hrun
    exact absurd (hmet rfl).1 (by decide)

end Miniob.Sql
