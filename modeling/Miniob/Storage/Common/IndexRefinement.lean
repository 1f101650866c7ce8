import Miniob.Storage.Common.OpenTable
import Miniob.Storage.Common.ScanRecord
import Miniob.Storage.Index.ReopenedIndex

/-!
# The indexes of a table are B+ trees

An index of a table, which is a sorted set, compared with the tree in its file.

* `IndexFile.Refines`: the tree has the entries of the index as long as the comparator has ordered
  all keys.
* `Refines.change`: insertions and deletions with values that the comparator orders.
* `Refines.changes`: a run of insertions and deletions with any values. Some answers of an index
  whose keys are not in order are those of the tree.
* `table_index_refines`: so it is from a new file on, and scans return what the tree returns.
-/

namespace Miniob.Storage.Common

open Miniob.Storage.Index Miniob.Storage.Record Miniob.Storage.Transaction
open Miniob.Storage.BufferPool (FlatPool flat)

variable {V A : Type}

/-! ## Insertions and deletions -/

/-- What a change of a row does to an index. -/
inductive EntryChange (V : Type)
  /-- `insert_entry` -/
  | insertEntry (row : RID × RecordData V)
  /-- `delete_entry` -/
  | deleteEntry (row : RID × RecordData V)

namespace EntryChange

/-- The row. -/
def row : EntryChange V → RID × RecordData V
  | insertEntry row => row
  | deleteEntry row => row

/-- The operation of the tree. -/
def indexOp (field : V → A) : EntryChange V → IndexOp (IndexKey A)
  | insertEntry row => .insertEntry ⟨field row.2.values, row.1⟩ row.1
  | deleteEntry row => .deleteEntry ⟨field row.2.values, row.1⟩

theorem key_indexOp (field : V → A) (c : EntryChange V) :
    (c.indexOp field).key = ⟨field c.row.2.values, c.row.1⟩ := by
  cases c <;> rfl

end EntryChange

namespace IndexFile

variable [Inhabited A]

/-- Source: `bplus_tree_index.cpp`, `BplusTreeIndex::insert_entry` -/
def insertEntry (fuel : ℕ) (index : IndexFile V A) (row : RID × RecordData V) :
    Option (RC × IndexFile V A) :=
  (exec flat (Index.insertEntry index.comparator fuel (index.key row) row.1) index.header
    index.pages).map fun r => (r.1.1, { index with header := r.1.2, pages := r.2 })

/-- A change of the file. -/
def change (fuel : ℕ) (index : IndexFile V A) : EntryChange V → Option (RC × IndexFile V A)
  | .insertEntry row => index.insertEntry fuel row
  | .deleteEntry row => index.deleteEntry fuel row

/-- Changes of the file, with the codes they return. -/
def changes (fuel : ℕ) :
    List (EntryChange V) → IndexFile V A → Option (List RC × IndexFile V A)
  | [], index => some ([], index)
  | c :: cs, index => do
    let (rc, index) ← index.change fuel c
    let (rcs, index) ← changes fuel cs index
    return (rc :: rcs, index)

theorem change_eq (fuel : ℕ) (index : IndexFile V A) (c : EntryChange V) :
    index.change fuel c =
      (exec flat ((c.indexOp index.field).run index.comparator fuel) index.header
        index.pages).map fun r => (r.1.1, { index with header := r.1.2, pages := r.2 }) := by
  cases c <;> rfl

end IndexFile

variable [LinearOrder A]

namespace TableIndex

/-- A change of the index. -/
def change (index : TableIndex V A) : EntryChange V → RC × TableIndex V A
  | .insertEntry row => index.insertEntry row.2.values row.1
  | .deleteEntry row => index.deleteEntry row.2.values row.1

/-- Changes of the index, with the codes they return. -/
def changes : List (EntryChange V) → TableIndex V A → List RC × TableIndex V A
  | [], index => ([], index)
  | c :: cs, index =>
    let (rc, index) := index.change c
    let (rcs, index) := changes cs index
    (rc :: rcs, index)

variable {index : TableIndex V A} {c : EntryChange V}

theorem change_of_orders (h : index.Orders [index.field c.row.2.values]) :
    index.change c = (((c.indexOp index.field).reference index.entries).1,
      { index with entries := ((c.indexOp index.field).reference index.entries).2 }) := by
  cases c with
  | insertEntry row => exact if_pos h
  | deleteEntry row => exact if_pos h

theorem change_of_not_orders (h : ¬ index.Orders [index.field c.row.2.values]) :
    index.change c = index.disorder := by
  cases c with
  | insertEntry row => exact if_neg h
  | deleteEntry row => exact if_neg h

/-- Changes with values that the comparator orders change the entries only. -/
theorem changes_of_orders {cs : List (EntryChange V)}
    (h : ∀ c ∈ cs, index.Orders [index.field c.row.2.values]) :
    ∃ entries, (index.changes cs).2 = { index with entries := entries } := by
  induction cs generalizing index with
  | nil => exact ⟨index.entries, rfl⟩
  | cons c cs ih =>
    have hfirst := change_of_orders (h c List.mem_cons_self)
    obtain ⟨entries, hrest⟩ := @ih (index.change c).2 (by
      rw [hfirst]
      exact fun d hd => h d (List.mem_cons_of_mem _ hd))
    refine ⟨entries, ?_⟩
    rw [hfirst] at hrest
    rw [changes, hfirst]
    exact hrest

end TableIndex

/-! ## Files -/

/-- A key that an index expects. -/
def IndexColumn.KnownKey (column : IndexColumn V A) : IndexKey A → Prop :=
  ValueKey fun v => column.known v = true

theorem IndexColumn.orders_knownKey (column : IndexColumn V A) :
    OrdersKeys (keyComparator column.compare) column.KnownKey :=
  valueKey_orders column.orders

/-- A file with the column of an index. Its tree has the entries of the index as long as the
comparator has ordered all keys. -/
structure IndexFile.Refines (file : IndexFile V A) (index : TableIndex V A) (height : ℕ) :
    Prop where
  field : file.field = index.field
  comparator : file.comparator = keyComparator index.compare
  tree : index.ordered = true →
    RepresentsSet index.KnownKey file.header file.pages height index.entries
  stored : ∀ e ∈ index.entries.entries, Storable e.1.rid
  length : index.entries.entries.length ≤ height

namespace IndexFile.Refines

variable {file file' : IndexFile V A} {index : TableIndex V A} {c : EntryChange V}
  {height fuel : ℕ} {rc : RC}

/-- A scan of the tree returns what the scanner of the index returns. The ends are the same value,
included, or there is one end at most. -/
theorem scan (h : file.Refines index height) {b : Bounds A} (hb : index.Orders b.values)
    (hends : ∀ l ∈ b.1, ∀ r ∈ b.2, l = r ∧ l.2 = true) (hfuel : height < fuel) :
    ∃ rc rcEnd rids, exec flat (scanInts index.compare fuel b.1 b.2) file.header file.pages =
        some (((rc, rcEnd, rids), file.header), file.pages) ∧
      index.createScanner b = if rc = .success then some rids else none := by
  have hknown : ∀ e, e ∈ b.1 ∨ e ∈ b.2 → index.known e.1 = true := by
    intro e he
    refine hb.2 _ (List.mem_map_of_mem ?_)
    simpa using he
  have hacc : ¬ Excludes b.1 b.2 := by
    rintro ⟨l, hl, r, hr, hlt | ⟨-, hboth⟩⟩
    · exact hlt.ne (congrArg Prod.fst (hends l hl r hr).1).symm
    · obtain ⟨rfl, hincluded⟩ := hends l hl r hr
      exact hboth ⟨hincluded, hincluded⟩
  have hscan := scanInts_ok index.orders (h.tree hb.1) h.stored hfuel.le
    (h.length.trans_lt hfuel) (fun l hl => hknown l (Or.inl hl)) fun r hr => hknown r (Or.inr hr)
  rw [if_neg hacc] at hscan
  unfold TableIndex.createScanner
  by_cases hnil : index.entries.entries = []
  · rw [if_pos hnil] at hscan
    exact ⟨_, _, _, hscan, by rw [if_pos ⟨hb.1, hnil⟩, if_neg (by decide)]⟩
  · rw [if_neg hnil] at hscan
    refine ⟨_, _, _, hscan, ?_⟩
    rw [if_neg fun hboth => hnil hboth.2, if_pos hb, if_pos rfl]
    rfl

variable [Inhabited A]

/-- **A change with a value that the comparator orders** returns the code of the index and does to
the tree what it does to the entries. -/
theorem change (h : file.Refines index height) (hord : index.Orders [index.field c.row.2.values])
    (hrid : Storable c.row.1) (hfuel : height ≤ fuel) :
    ∃ file', file.change fuel c = some ((index.change c).1, file') ∧
      file'.Refines (index.change c).2 (height + 1) := by
  have hkey : index.KnownKey (c.indexOp index.field).key := by
    rw [EntryChange.key_indexOp]
    exact ⟨hord.2 _ (List.mem_singleton_self _), hrid.1⟩
  obtain ⟨header', pages', hexec, htree, -, -⟩ :=
    op_ok index.orders_knownKey fuel (c.indexOp index.field) (h.tree hord.1) hkey hfuel
  rw [TableIndex.change_of_orders hord]
  refine ⟨{ file with header := header', pages := pages' }, ?_, h.field, h.comparator,
    fun _ => htree, storable_reference h.stored ?_, ?_⟩
  · rw [IndexFile.change_eq, h.field, h.comparator, hexec]
    rfl
  · intro key rid heq
    cases c with
    | insertEntry row =>
      cases heq
      exact hrid
    | deleteEntry row => cases heq
  · exact (length_reference_le _ _).trans (Nat.succ_le_succ h.length)

/-- After a change with another value the index may answer what the tree answers. -/
theorem change_of_not_orders (h : file.Refines index height)
    (hord : ¬ index.Orders [index.field c.row.2.values])
    (hrun : file.change fuel c = some (rc, file')) (answers : Stream' (Unordered A)) :
    (index.withAnswers (.cons ⟨rc, fun _ => none⟩ answers)).change c =
        (rc, { index.withAnswers answers with ordered := false }) ∧
      file'.Refines { index.withAnswers answers with ordered := false } (height + 1) := by
  have hchange : (index.withAnswers (.cons ⟨rc, fun _ => none⟩ answers)).change c = _ :=
    TableIndex.change_of_not_orders hord
  refine ⟨hchange, ?_⟩
  rw [IndexFile.change_eq] at hrun
  obtain ⟨r, -, heq⟩ := Option.map_eq_some_iff.mp hrun
  obtain ⟨-, rfl⟩ := Prod.mk.inj heq
  exact ⟨h.field, h.comparator, fun hfalse => absurd hfalse (by simp), h.stored,
    h.length.trans (Nat.le_succ _)⟩

/-- **Changes with any values.** By induction on them: the answers of the tree to the changes from
the first value on that the comparator may not order are taken for those of the index. -/
theorem changes {cs : List (EntryChange V)} {rcs : List RC} (h : file.Refines index height)
    (hrids : ∀ c ∈ cs, Storable c.row.1) (hfuel : height + cs.length ≤ fuel)
    (hrun : file.changes fuel cs = some (rcs, file')) :
    ∃ answers, ((index.withAnswers answers).changes cs).1 = rcs ∧
      file'.Refines ((index.withAnswers answers).changes cs).2 (height + cs.length) := by
  induction cs generalizing file index height rcs with
  | nil =>
    obtain ⟨rfl, rfl⟩ := Prod.mk.inj (Option.some.inj hrun)
    exact ⟨index.unordered, rfl, h⟩
  | cons c cs ih =>
    rw [List.length_cons] at hfuel ⊢
    obtain ⟨⟨rc, file₁⟩, hfirst, hbind⟩ := Option.bind_eq_some_iff.mp hrun
    obtain ⟨⟨rcs₁, file₂⟩, hrest, heq⟩ := Option.bind_eq_some_iff.mp hbind
    obtain ⟨rfl, rfl⟩ := Prod.mk.inj (Option.some.inj heq)
    have hrids' : ∀ c ∈ cs, Storable c.row.1 := fun c hc => hrids c (List.mem_cons_of_mem _ hc)
    have hlength : height + 1 + cs.length = height + (cs.length + 1) := by omega
    rw [← hlength]
    by_cases hord : index.Orders [index.field c.row.2.values]
    · obtain ⟨file₁', hchange, hnext⟩ :=
        h.change hord (hrids c List.mem_cons_self) (by omega : height ≤ fuel)
      obtain ⟨rfl, rfl⟩ := Prod.mk.inj (Option.some.inj (hfirst.symm.trans hchange))
      obtain ⟨answers, hcodes, hrefines⟩ := ih hnext hrids' (by omega) hrest
      have hstep : (index.withAnswers answers).change c =
          ((index.change c).1, (index.change c).2.withAnswers answers) := by
        rw [TableIndex.change_of_orders hord]
        exact TableIndex.change_of_orders hord
      refine ⟨answers, ?_, ?_⟩
      · rw [TableIndex.changes, hstep]
        exact congrArg _ hcodes
      · rw [TableIndex.changes, hstep]
        exact hrefines
    · have hnext := fun answers => h.change_of_not_orders hord hfirst answers
      obtain ⟨answers, hcodes, hrefines⟩ :=
        ih (hnext index.unordered).2 hrids' (by omega) hrest
      refine ⟨.cons ⟨rc, fun _ => none⟩ answers, ?_, ?_⟩
      · rw [TableIndex.changes, (hnext answers).1]
        exact congrArg _ hcodes
      · rw [TableIndex.changes, (hnext answers).1]
        exact hrefines

/-- Changes with values that the comparator orders end. -/
theorem changes_known {cs : List (EntryChange V)} (h : file.Refines index height)
    (hord : ∀ c ∈ cs, index.Orders [index.field c.row.2.values])
    (hrids : ∀ c ∈ cs, Storable c.row.1) (hfuel : height + cs.length ≤ fuel) :
    ∃ file', file.changes fuel cs = some ((index.changes cs).1, file') ∧
      file'.Refines (index.changes cs).2 (height + cs.length) := by
  induction cs generalizing file index height with
  | nil => exact ⟨file, rfl, h⟩
  | cons c cs ih =>
    rw [List.length_cons] at hfuel ⊢
    have hfirst := hord c List.mem_cons_self
    obtain ⟨file₁, hchange, hnext⟩ :=
      h.change hfirst (hrids c List.mem_cons_self) (by omega : height ≤ fuel)
    have hord' : ∀ d ∈ cs, (index.change c).2.Orders
        [(index.change c).2.field d.row.2.values] := by
      rw [TableIndex.change_of_orders hfirst]
      exact fun d hd => hord d (List.mem_cons_of_mem _ hd)
    obtain ⟨file', hrun, hrefines⟩ :=
      ih hnext hord' (fun d hd => hrids d (List.mem_cons_of_mem _ hd)) (by omega)
    refine ⟨file', ?_, ?_⟩
    · rw [IndexFile.changes, hchange]
      simp [hrun, TableIndex.changes]
    · rw [← Nat.add_assoc, Nat.add_right_comm]
      exact hrefines

end IndexFile.Refines

/-! ## From a new file on -/

variable [Inhabited A]

/-- **An index of a table is a B+ tree.** Whatever the insertions and deletions are, the tree in a
new file returns the codes of the index, for some answers to the changes from the first value on
that is not among those that the comparator orders. If there is no such value, all changes end, and
a scan between values that the comparator orders returns what the scanner of the index returns. -/
theorem table_index_refines (column : IndexColumn V A)
    (attrLength internalMaxSize leafMaxSize : Int)
    (hinternal : 6 ≤ (newFileHeader attrLength internalMaxSize leafMaxSize).internalMaxSize)
    (hleaf : 4 ≤ (newFileHeader attrLength internalMaxSize leafMaxSize).leafMaxSize)
    (cs : List (EntryChange V)) (hrids : ∀ c ∈ cs, Storable c.row.1) (fuel : ℕ)
    (hfuel : cs.length < fuel) :
    ∃ header pages, exec flat (create attrLength internalMaxSize leafMaxSize) default .created =
        some ((.success, header), pages) ∧
      (∀ rcs file', IndexFile.changes fuel cs ⟨column.field, keyComparator column.compare, header,
          pages⟩ = some (rcs, file') →
        ∃ answers, ((column.newIndex.withAnswers answers).changes cs).1 = rcs) ∧
      ((∀ c ∈ cs, column.known (column.field c.row.2.values) = true) →
        ∃ file', IndexFile.changes fuel cs ⟨column.field, keyComparator column.compare, header,
            pages⟩ = some ((column.newIndex.changes cs).1, file') ∧
          ∀ b : Bounds A, column.OrdersValues b.values →
            (∀ l ∈ b.1, ∀ r ∈ b.2, l = r ∧ l.2 = true) →
            ∃ rc rcEnd rids, exec flat (scanInts column.compare fuel b.1 b.2) file'.header
                file'.pages = some (((rc, rcEnd, rids), file'.header), file'.pages) ∧
              (column.newIndex.changes cs).2.createScanner b =
                if rc = .success then some rids else none) := by
  obtain ⟨pages, hcreate, hempty⟩ := create_ok column.KnownKey hinternal hleaf default
  have hnew : (⟨column.field, keyComparator column.compare, _, pages⟩ : IndexFile V A).Refines
      column.newIndex 0 :=
    ⟨rfl, rfl, fun _ => hempty, fun e he => absurd he (List.not_mem_nil), le_rfl⟩
  have hle : 0 + cs.length ≤ fuel := by omega
  refine ⟨_, pages, hcreate, fun rcs file' hrun => ?_, fun hknown => ?_⟩
  · obtain ⟨answers, hcodes, -⟩ := hnew.changes hrids hle hrun
    exact ⟨answers, hcodes⟩
  · have hord : ∀ c ∈ cs, column.newIndex.Orders [column.newIndex.field c.row.2.values] :=
      fun c hc => ⟨rfl, fun v hv => List.mem_singleton.mp hv ▸ hknown c hc⟩
    obtain ⟨file', hrun, hrefines⟩ := hnew.changes_known hord hrids hle
    obtain ⟨entries, hindex⟩ := TableIndex.changes_of_orders hord
    refine ⟨file', hrun, fun b hb hends => ?_⟩
    rw [Nat.zero_add, hindex] at hrefines
    rw [hindex]
    exact hrefines.scan ⟨rfl, hb⟩ hends hfuel

/-- Five rows, whose entries do not fit on one leaf, and the deletion of two of them, after which
they do. -/
def splitAndMerge : List (EntryChange ℕ) :=
  [.insertEntry (⟨1, 0⟩, ⟨0, 5⟩), .insertEntry (⟨1, 1⟩, ⟨0, 3⟩), .insertEntry (⟨1, 2⟩, ⟨0, 5⟩),
    .insertEntry (⟨1, 3⟩, ⟨0, 1⟩), .insertEntry (⟨1, 4⟩, ⟨0, 4⟩), .deleteEntry (⟨1, 1⟩, ⟨0, 3⟩),
    .deleteEntry (⟨1, 4⟩, ⟨0, 4⟩), .deleteEntry (⟨1, 4⟩, ⟨0, 4⟩)]

/-- The rows with a value are found again after the leaf has been split and merged. -/
theorem table_index_refines_merged : ∃ file' : IndexFile ℕ ℤ, ∃ header pages,
    exec flat (create 4 6 4) default .created = some ((.success, header), pages) ∧
    IndexFile.changes 9 splitAndMerge
        ⟨numberColumn.field, keyComparator numberColumn.compare, header, pages⟩ =
      some ([.success, .success, .success, .success, .success, .success, .success,
        .recordRecordNotExist], file') ∧
    ∃ rcEnd, exec flat (scanInts compareInt 9 (some (5, true)) (some (5, true))) file'.header
        file'.pages = some (((.success, rcEnd, [⟨1, 0⟩, ⟨1, 2⟩]), file'.header), file'.pages) := by
  obtain ⟨header, pages, hcreate, -, hknown⟩ := table_index_refines numberColumn 4 6 4 (by decide)
    (by decide) splitAndMerge (by decide) 9 (by decide)
  obtain ⟨file', hrun, hscan⟩ := hknown (by decide)
  obtain ⟨rc, rcEnd, rids, hexec, hrids⟩ :=
    hscan (some (5, true), some (5, true)) (by decide) (by simp)
  have hfound : (numberColumn.newIndex.changes splitAndMerge).2.createScanner
      (some (5, true), some (5, true)) = some [⟨1, 0⟩, ⟨1, 2⟩] := by decide
  rw [hfound] at hrids
  split_ifs at hrids with hrc
  obtain rfl : rids = _ := (Option.some.inj hrids).symm
  exact ⟨file', header, pages, hcreate, hrun, rcEnd, hrc ▸ hexec⟩

end Miniob.Storage.Common
