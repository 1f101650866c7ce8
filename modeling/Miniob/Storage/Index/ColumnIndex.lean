import Miniob.Storage.Index.ReopenedIndex
import Miniob.Storage.Index.ValidateSound

/-!
# The index of a column

What the SQL layer sees of an index: scanners between two bounds, which are asked for one record
identifier after the other.

* `ColumnIndex`: the index, with `createScanner` and `nextEntry`.
* `ColumnIndex.Leads`: what a scanner returns up to the end.
* `leads_of_nextEntries`: it leads to what the calls up to the end have returned, since no call
  changes a page.
-/

namespace Miniob.Storage.Index

open Miniob.Common Miniob.Lib
open Miniob.Storage.BufferPool (FlatPool flat)

/-! ## The calls of a scanner -/

section scanner

variable {K : Type} {header : IndexFileHeader} {s : FlatPool (IndexPage K)}

theorem ReadOnly.assertSome {α : Type} (a : Option α) :
    ReadOnly (TreeM.assertSome a : TreeM K α) := by
  cases a with
  | none => exact ReadOnly.fail
  | some a => exact ReadOnly.pure a

theorem ReadOnly.assert (b : Bool) : ReadOnly (TreeM.assert b : TreeM K Unit) := by
  cases b with
  | true => exact ReadOnly.pure ()
  | false => exact ReadOnly.fail

theorem readOnly_nextEntry (scanner : BplusTreeScanner) :
    ReadOnly (nextEntry scanner : TreeM K _) := by
  refine ReadOnly.ite (ReadOnly.pure _) ?_
  refine ReadOnly.bind (ReadOnly.assertSome _) fun left => ?_
  refine ReadOnly.bind (ReadOnly.assertSome _) fun right => ?_
  refine ReadOnly.bind (ReadOnly.leafNode _) fun node => ?_
  refine ReadOnly.bind (ReadOnly.assert _) fun _ => ?_
  refine ReadOnly.bind (ReadOnly.assertSome _) fun item => ?_
  refine ReadOnly.ite (ReadOnly.pure _) (ReadOnly.ite (ReadOnly.pure _) ?_)
  refine ReadOnly.ite ?_ (ReadOnly.pure _)
  refine ReadOnly.bind (ReadOnly.unpinPage _) fun _ => ReadOnly.ite (ReadOnly.pure _) ?_
  exact ReadOnly.bind (ReadOnly.getThisPage _) fun _ => ReadOnly.ite (ReadOnly.pure _)
    (ReadOnly.pure _)

/-- A call that succeeds has set the record identifier. -/
theorem nextEntry_success {scanner scanner' : BplusTreeScanner} {rid : Option RID}
    {header' : IndexFileHeader} {s' : FlatPool (IndexPage K)}
    (h : exec flat (nextEntry scanner) header s =
      some (((.success, rid, scanner'), header'), s')) : rid.isSome = true := by
  unfold nextEntry at h
  simp only [exec_ite, exec_bind, exec_pure] at h
  split_ifs at h
  · cases h
  · simp only [andThen_eq_some] at h
    obtain ⟨left, _, _, -, right, _, _, -, node, _, _, -, _, _, _, -, item, _, _, -, h⟩ := h
    split_ifs at h
    · cases h
      rfl
    · cases h
      rfl
    · obtain ⟨_, _, _, -, h⟩ := andThen_eq_some.mp h
      cases h
    · obtain ⟨_, _, _, -, h⟩ := andThen_eq_some.mp h
      obtain ⟨rc, _, _, -, h⟩ := andThen_eq_some.mp h
      split_ifs at h with hrc
      · cases h
        exact absurd rfl hrc
      · cases h
        rfl
    · cases h

end scanner

/-! ## The index of a column -/

/-- An index on a column. Source: `bplus_tree_index.h`, `class BplusTreeIndex` -/
structure ColumnIndex where
  /-- The type of the column, from `field_meta_`. -/
  type : AttrType
  /-- `file_header_` of `index_handler_` -/
  header : IndexFileHeader
  /-- The pages of `index_handler_`. -/
  pages : FlatPool (IndexPage (IndexKey type.KeyValue))

namespace ColumnIndex

/-- The scanner between two bounds, if it can be opened. The fuel is for the way down to a leaf.
Source: `bplus_tree_index.cpp`, `BplusTreeIndex::create_scanner` -/
def createScanner (index : ColumnIndex) (fuel : ℕ)
    (left right : Option (index.type.UserKey × Bool)) : Option BplusTreeScanner :=
  match exec flat (index.type.openScanner fuel left right .closed) index.header index.pages with
  | some (((.success, scanner), _), _) => some scanner
  | _ => none

/-- The pages are not changed.
Source: `bplus_tree_index.cpp`, `BplusTreeIndexScanner::next_entry` -/
def nextEntry (index : ColumnIndex) (scanner : BplusTreeScanner) :
    Option (RC × Option RID × BplusTreeScanner) :=
  (exec flat (Index.nextEntry scanner) index.header index.pages).map fun r => r.1.1

/-- The scanner returns these record identifiers, and then no more. -/
inductive Leads (index : ColumnIndex) : BplusTreeScanner → List RID → Prop
  | eof {scanner scanner' : BplusTreeScanner} {rid : Option RID}
      (h : index.nextEntry scanner = some (.recordEof, rid, scanner')) : Leads index scanner []
  | entry {scanner scanner' : BplusTreeScanner} {rid : RID} {rids : List RID}
      (h : index.nextEntry scanner = some (.success, some rid, scanner'))
      (hrest : Leads index scanner' rids) : Leads index scanner (rid :: rids)

variable {index : ColumnIndex}

/-- What the calls up to the end have returned. By induction on the number of calls. -/
theorem leads_of_nextEntries {fuel : ℕ} {scanner scanner₂ : BplusTreeScanner} {rids : List RID}
    (h : exec flat (nextEntries fuel scanner) index.header index.pages =
      some (((.recordEof, rids, scanner₂), index.header), index.pages)) :
    index.Leads scanner rids := by
  induction fuel generalizing scanner rids with
  | zero => cases h
  | succ fuel ih =>
    rw [nextEntries, exec_bind] at h
    obtain ⟨⟨rc, rid, scanner₁⟩, header₁, s₁, hnext, h⟩ := andThen_eq_some.mp h
    obtain ⟨rfl, rfl⟩ := readOnly_nextEntry _ _ _ _ _ _ hnext
    have hcall : index.nextEntry scanner = some (rc, rid, scanner₁) := by
      rw [ColumnIndex.nextEntry, hnext]
      rfl
    simp only [exec_ite, exec_bind, exec_pure] at h
    split_ifs at h with hrc
    · simp only [Option.some.injEq, Prod.mk.injEq] at h
      obtain ⟨⟨⟨rfl, rfl, rfl⟩, -⟩, -⟩ := h
      exact .eof hcall
    · rw [not_not] at hrc
      subst hrc
      obtain ⟨rid, rfl⟩ := Option.isSome_iff_exists.mp (nextEntry_success hnext)
      obtain ⟨⟨rc, rest, scanner₃⟩, header₂, s₂, hrest, h⟩ := andThen_eq_some.mp h
      simp only [Option.some.injEq, Prod.mk.injEq] at h
      obtain ⟨⟨⟨rfl, rfl, rfl⟩, rfl⟩, rfl⟩ := h
      exact .entry hcall (ih hrest)

end ColumnIndex

end Miniob.Storage.Index
