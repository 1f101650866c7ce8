import Miniob.Storage.Meta.TableMeta
import Miniob.Storage.Record.PageBytes

/-!
# The cells of rows and of joined tuples

A row is read through a list of columns that is made when its scan is opened. A scan that is opened
again gets the columns of its table once more, behind those it has. A joined tuple finds a cell in
its left or in its right tuple by its index.

* `DataCell`, `RowTuple.cellAt`: the cells of a record, from its bytes.
* `JoinTree`: joined tuples over rows, with the calls of a join (`JoinAction`) that change them.
* `JoinTree.readCells`, `JoinTree.cells`: what a client reads cell by cell, and the cells of the
  records.
* `joined_tuple_reads_iff`: when the two are the same, in any run.
-/

namespace Miniob.Sql

open Miniob.Storage.Meta Miniob.Storage.Record

/-! ## Cells -/

/-- A cell with its value as bits. Source: `tuple_cell.h`, `class TupleCell` -/
inductive DataCell
  /-- A cell whose type has not been set. -/
  | undefined
  /-- `CHARS` -/
  | chars (strValue : List Byte)
  /-- `INTS` -/
  | ints (intValue : BitVec 32)
  /-- `FLOATS` -/
  | floats (floatValue : BitVec 32)
  /-- `BOOLEANS` -/
  | booleans (boolValue : Bool)
  deriving DecidableEq

/-- An `int` at the beginning of these bytes. The least significant byte comes first. -/
def readInt (data : ℕ → Byte) : BitVec 32 := data 3 ++ data 2 ++ data 1 ++ data 0

/-- The bytes before the first zero, at most `len` of them. -/
def strnlen (data : ℕ → Byte) (len : ℕ) : List Byte :=
  ((List.range len).map data).takeWhile fun c => c ≠ 0

/-- The length of a column is positive, so a string has at most as many bytes.
Source: `tuple_cell.cpp`, `TupleCell::set_data`, `TupleCell::set_string` -/
def DataCell.setData (data : ℕ → Byte) (length : Int) : AttrType → DataCell
  | .chars => chars (strnlen data length.toNat)
  | .ints => ints (readInt data)
  | .floats => floats (readInt data)
  | .booleans => booleans (readInt data ≠ 0)
  | .undefined => undefined

/-- The cell of a column of a record. -/
def cellOf (record : ℕ → Byte) (field : FieldMeta) : DataCell :=
  DataCell.setData (fun k => record (field.offset.toNat + k)) field.len field.type

/-! ## Rows -/

/-- Source: `tuple.h`, `class RowTuple` -/
structure RowTuple where
  /-- The memory from the beginning of `record_` on. -/
  record : ℕ → Byte
  /-- The columns of `table_`. -/
  fieldMetas : List FieldMeta
  /-- `speces_` -/
  speces : List FieldMeta

namespace RowTuple

/-- Source: `tuple.h`, `RowTuple::set_schema` -/
def setSchema (t : RowTuple) : RowTuple := { t with speces := t.speces ++ t.fieldMetas }

/-- Source: `tuple.h`, `RowTuple::set_record` -/
def setRecord (t : RowTuple) (record : ℕ → Byte) : RowTuple := { t with record := record }

/-- Source: `tuple.h`, `RowTuple::cell_num` -/
def cellNum (t : RowTuple) : ℕ := t.speces.length

/-- Source: `tuple.h`, `RowTuple::cell_at` -/
def cellAt (t : RowTuple) (index : Int) : Except RC DataCell :=
  if index < 0 ∨ t.speces.length ≤ index then .error .invalidArgument
  else match t.speces[index.toNat]? with
    | some field => .ok (cellOf t.record field)
    | none => .error .invalidArgument

/-- An index that is in range. -/
theorem cellAt_of_lt {t : RowTuple} {i : ℕ} (h : i < t.speces.length) :
    t.cellAt i = .ok (cellOf t.record (t.speces[i])) := by
  unfold cellAt
  rw [if_neg (by omega), Int.toNat_natCast, List.getElem?_eq_getElem h]

end RowTuple

/-! ## Joined tuples -/

/-- Joined tuples over rows. Source: `tuple.h`, `class JoinedTuple` -/
inductive JoinTree
  /-- A row of a table. -/
  | row (t : RowTuple)
  /-- `left_` and `right_` -/
  | joined (left right : JoinTree)

namespace JoinTree

/-- Source: `tuple.h`, `JoinedTuple::cell_num` -/
def cellNum : JoinTree → ℕ
  | row t => t.cellNum
  | joined left right => left.cellNum + right.cellNum

/-- The first cell of the left tuple is not found.
Source: `tuple.h`, `JoinedTuple::cell_at` -/
def cellAt : JoinTree → Int → Except RC DataCell
  | row t, index => t.cellAt index
  | joined left right, index =>
    if 0 < index ∧ index < left.cellNum then left.cellAt index
    else if left.cellNum ≤ index ∧ index < left.cellNum + right.cellNum then
      right.cellAt (index - left.cellNum)
    else .error .notfound

/-- Opening the operator of a tuple. A join opens its left child only.
Source: `table_scan_physical_operator.cpp`, `TableScanPhysicalOperator::open`;
`join_physical_operator.cpp`, `NestedLoopJoinPhysicalOperator::open` -/
def openOper : JoinTree → JoinTree
  | row t => row t.setSchema
  | joined left right => joined left.openOper right

/-- What the operators of a join do to their tuples. -/
inductive JoinAction
  /-- A scan goes on to a record. -/
  | next (record : ℕ → Byte)
  /-- The right child of a join is closed and opened. -/
  | reopenRight
  /-- Something happens to the left child. -/
  | left (a : JoinAction)
  /-- Something happens to the right child. -/
  | right (a : JoinAction)

/-- Source: `join_physical_operator.cpp`, `NestedLoopJoinPhysicalOperator::right_next` -/
def act : JoinAction → JoinTree → JoinTree
  | .next record, row t => row (t.setRecord record)
  | .reopenRight, joined l r => joined l r.openOper
  | .left a, joined l r => joined (act a l) r
  | .right a, joined l r => joined l (act a r)
  | _, tree => tree

/-- The actions one after the other. -/
def run (actions : List JoinAction) (tree : JoinTree) : JoinTree :=
  actions.foldl (fun tree a => act a tree) tree

/-- What is read cell by cell. -/
def readCells (tree : JoinTree) : List (Except RC DataCell) :=
  (List.range tree.cellNum).map fun i : ℕ => tree.cellAt i

/-- The cells of the records, those of the left side first. -/
def cells : JoinTree → List DataCell
  | row t => t.fieldMetas.map (cellOf t.record)
  | joined left right => left.cells ++ right.cells

/-- Every scan has been opened once. -/
def OpenedOnce : JoinTree → Prop
  | row t => t.speces = t.fieldMetas
  | joined left right => left.OpenedOnce ∧ right.OpenedOnce

/-- The columns of all tables. -/
def columns : JoinTree → List FieldMeta
  | row t => t.fieldMetas
  | joined left right => left.columns ++ right.columns

/-- The columns of all tables that have a table to their right. -/
def leftColumns : JoinTree → List FieldMeta
  | row _ => []
  | joined left right => left.columns ++ right.leftColumns

/-- The columns of the last table. -/
def lastColumns : JoinTree → List FieldMeta
  | row t => t.fieldMetas
  | joined _ right => right.lastColumns

/-- The action opens the scan of the last table. -/
def opensLast : JoinAction → JoinTree → Bool
  | .reopenRight, joined _ (row _) => true
  | .right a, joined _ r => opensLast a r
  | _, _ => false

/-! ## What does not change -/

variable {tree left right : JoinTree} {a : JoinAction}

/-- The columns that the scan of the last table has got. -/
def lastSpeces : JoinTree → List FieldMeta
  | row t => t.speces
  | joined _ right => right.lastSpeces

/-- Every scan has got the columns of its table, any number of times but not never. -/
def Opened : JoinTree → Prop
  | row t => ∃ n, t.speces = (List.replicate (n + 1) t.fieldMetas).flatten
  | joined left right => left.Opened ∧ right.Opened

theorem OpenedOnce.opened (h : tree.OpenedOnce) : tree.Opened := by
  induction tree with
  | row t => exact ⟨0, by simpa [OpenedOnce] using h⟩
  | joined left right ihl ihr => exact ⟨ihl h.1, ihr h.2⟩

theorem OpenedOnce.lastSpeces_eq (h : tree.OpenedOnce) : tree.lastSpeces = tree.lastColumns := by
  induction tree with
  | row t => exact h
  | joined left right ihl ihr => exact ihr h.2

theorem Opened.openOper (h : tree.Opened) : tree.openOper.Opened := by
  induction tree with
  | row t =>
    obtain ⟨n, hn⟩ := h
    refine ⟨n + 1, ?_⟩
    show t.speces ++ t.fieldMetas = _
    rw [hn, List.replicate_succ' (n := n + 1), List.flatten_concat]
    rfl
  | joined left right ihl ihr => exact ⟨ihl h.1, h.2⟩

theorem Opened.act (h : tree.Opened) : (act a tree).Opened := by
  induction a generalizing tree with
  | next record => cases tree <;> exact h
  | reopenRight =>
    cases tree with
    | row t => exact h
    | joined l r => exact ⟨h.1, h.2.openOper⟩
  | left a ih =>
    cases tree with
    | row t => exact h
    | joined l r => exact ⟨ih h.1, h.2⟩
  | right a ih =>
    cases tree with
    | row t => exact h
    | joined l r => exact ⟨h.1, ih h.2⟩

@[simp] theorem columns_openOper : tree.openOper.columns = tree.columns := by
  induction tree with
  | row t => rfl
  | joined left right ihl ihr => simp [openOper, columns, ihl]

@[simp] theorem leftColumns_openOper : tree.openOper.leftColumns = tree.leftColumns := by
  cases tree <;> simp [openOper, leftColumns]

@[simp] theorem lastColumns_openOper : tree.openOper.lastColumns = tree.lastColumns := by
  cases tree <;> rfl

/-- The tables stay the same. -/
theorem tables_act : (act a tree).columns = tree.columns ∧
    (act a tree).leftColumns = tree.leftColumns ∧ (act a tree).lastColumns = tree.lastColumns := by
  fun_induction JoinTree.act a tree <;>
    simp_all [columns, leftColumns, lastColumns, RowTuple.setRecord]

@[simp] theorem columns_act : (act a tree).columns = tree.columns :=
  tables_act.1

@[simp] theorem leftColumns_act : (act a tree).leftColumns = tree.leftColumns :=
  tables_act.2.1

@[simp] theorem lastColumns_act : (act a tree).lastColumns = tree.lastColumns :=
  tables_act.2.2

/-- Whether the tree is a row does not change. -/
theorem opensLast_reopenRight_act (l : JoinTree) :
    opensLast .reopenRight (joined l (act a tree)) = opensLast .reopenRight (joined l tree) := by
  cases a <;> cases tree <;> rfl

theorem opensLast_openOper (b : JoinAction) : opensLast b tree.openOper = opensLast b tree := by
  cases tree with
  | row t => cases b <;> rfl
  | joined l r => cases b <;> cases r <;> rfl

@[simp] theorem opensLast_act (b : JoinAction) : opensLast b (act a tree) = opensLast b tree := by
  fun_induction JoinTree.act a tree generalizing b with
  | case1 record t => cases b <;> rfl
  | case2 l r =>
    cases b with
    | reopenRight => cases r <;> rfl
    | right b => exact opensLast_openOper b
    | next record => rfl
    | left b => rfl
  | case3 a l r ih =>
    cases b with
    | reopenRight => cases r <;> rfl
    | right b => rfl
    | next record => rfl
    | left b => rfl
  | case4 a l r ih =>
    cases b with
    | reopenRight => exact opensLast_reopenRight_act l
    | right b => exact ih b
    | next record => rfl
    | left b => rfl
  | case5 a tree => rfl

/-- The scan of the last table gets its columns once more when it is opened. -/
theorem lastSpeces_act : (act a tree).lastSpeces =
    tree.lastSpeces ++ if opensLast a tree then tree.lastColumns else [] := by
  induction a generalizing tree with
  | next record => cases tree <;> exact (List.append_nil _).symm
  | reopenRight =>
    cases tree with
    | row t => exact (List.append_nil _).symm
    | joined l r =>
      cases r with
      | row t => rfl
      | joined l' r' => exact (List.append_nil _).symm
  | left a ih => cases tree <;> exact (List.append_nil _).symm
  | right a ih =>
    cases tree with
    | row t => exact (List.append_nil _).symm
    | joined l r => exact ih

/-! ## Runs -/

variable {actions : List JoinAction}

theorem Opened.run (h : tree.Opened) : (run actions tree).Opened := by
  induction actions generalizing tree with
  | nil => exact h
  | cons a actions ih => exact ih h.act

theorem leftColumns_run : (run actions tree).leftColumns = tree.leftColumns := by
  induction actions generalizing tree with
  | nil => rfl
  | cons a actions ih => exact ih.trans leftColumns_act

theorem lastColumns_run : (run actions tree).lastColumns = tree.lastColumns := by
  induction actions generalizing tree with
  | nil => rfl
  | cons a actions ih => exact ih.trans lastColumns_act

/-- The columns of the scan of the last table count how often it has been opened. -/
theorem lastSpeces_run : (run actions tree).lastSpeces = tree.lastSpeces ++
    (List.replicate (actions.countP (opensLast · tree)) tree.lastColumns).flatten := by
  induction actions generalizing tree with
  | nil => simp [run]
  | cons a actions ih =>
    have hrun : (run (a :: actions) tree).lastSpeces = (run actions (act a tree)).lastSpeces := rfl
    rw [hrun, ih, lastSpeces_act]
    simp only [opensLast_act, lastColumns_act, List.countP_cons]
    cases opensLast a tree with
    | false => simp
    | true => simp [List.replicate_succ]

/-! ## Reading -/

theorem Opened.cellNum_eq_zero_iff (h : tree.Opened) : tree.cellNum = 0 ↔ tree.columns = [] := by
  induction tree with
  | row t =>
    obtain ⟨n, hn⟩ := h
    show t.speces.length = 0 ↔ t.fieldMetas = []
    rw [List.length_eq_zero_iff, hn]
    simp
  | joined left right ihl ihr =>
    show left.cellNum + right.cellNum = 0 ↔ left.columns ++ right.columns = []
    rw [Nat.add_eq_zero_iff, ihl h.1, ihr h.2, List.append_eq_nil_iff]

theorem cells_eq_nil_iff : tree.cells = [] ↔ tree.columns = [] := by
  induction tree with
  | row t => simp [cells, columns]
  | joined left right ihl ihr => simp [cells, columns, ihl, ihr]

theorem readCells_row (t : RowTuple) :
    (row t).readCells = t.speces.map fun field => .ok (cellOf t.record field) := by
  apply List.ext_getElem
  · simp [readCells, cellNum, RowTuple.cellNum]
  · intro i hi hi'
    rw [List.length_map] at hi'
    simp only [readCells, List.getElem_map, List.getElem_range, cellAt]
    exact RowTuple.cellAt_of_lt hi'

/-- A joined tuple whose left side has a cell does not find the first one. -/
theorem readCells_joined_of_pos (h : 0 < left.cellNum) :
    (joined left right).readCells[0]? = some (.error .notfound) := by
  have hlen : 0 < (joined left right).cellNum := Nat.lt_of_lt_of_le h (Nat.le_add_right _ _)
  rw [readCells, List.getElem?_map, List.getElem?_range hlen, Option.map_some, cellAt,
    if_neg (by omega), if_neg (by omega)]

/-- If the left side has no cell, the cells are those of the right side. -/
theorem readCells_joined_of_zero (h : left.cellNum = 0) :
    (joined left right).readCells = right.readCells := by
  have hnum : (joined left right).cellNum = right.cellNum := by simp [cellNum, h]
  rw [readCells, readCells, hnum]
  refine List.map_congr_left fun i hi => ?_
  have hi := List.mem_range.mp hi
  rw [cellAt, if_neg (by omega), if_pos (by omega), h]
  simp

/-- The cells of the records are read if and only if nothing has a place in front of the last row
and the scan of this has been opened once. By induction on the right sides. -/
theorem Opened.readCells_eq_iff (h : tree.Opened) : tree.readCells = tree.cells.map .ok ↔
    tree.leftColumns = [] ∧ tree.lastSpeces = tree.lastColumns := by
  induction tree with
  | row t =>
    obtain ⟨n, hn⟩ := h
    rw [readCells_row, cells, List.map_map]
    simp only [leftColumns, lastSpeces, lastColumns, true_and]
    constructor
    · intro heq
      have hlen : t.speces.length = t.fieldMetas.length := by simpa using congrArg List.length heq
      rw [hn, List.length_flatten, List.map_replicate, List.sum_replicate_nat] at hlen
      rcases Nat.eq_zero_or_pos t.fieldMetas.length with hzero | hpos
      · rw [hn, List.length_eq_zero_iff.mp hzero]
        simp
      · have hone : n + 1 = 1 := Nat.eq_of_mul_eq_mul_right hpos (by omega)
        rw [hn, hone]
        simp
    · intro heq
      rw [heq]
      rfl
  | joined left right ihl ihr =>
    simp only [leftColumns, lastSpeces, lastColumns, List.append_eq_nil_iff, and_assoc]
    rw [← ihr h.2]
    by_cases hleft : left.columns = []
    · have hnum : left.cellNum = 0 := h.1.cellNum_eq_zero_iff.mpr hleft
      rw [readCells_joined_of_zero hnum, cells, cells_eq_nil_iff.mpr hleft, List.nil_append]
      simp [hleft]
    · have hnum : 0 < left.cellNum :=
        Nat.pos_of_ne_zero fun hzero => hleft (h.1.cellNum_eq_zero_iff.mp hzero)
      refine iff_of_false (fun heq => ?_) fun hand => hleft hand.1
      have hfirst : (joined left right).readCells[0]? = some (.error .notfound) :=
        readCells_joined_of_pos hnum
      rw [heq, List.getElem?_map, Option.map_eq_some_iff] at hfirst
      obtain ⟨cell, -, hcell⟩ := hfirst
      cases hcell

end JoinTree

open JoinTree

/-- **Reading a joined tuple cell by cell.** After any run the cells of the records are read if and
only if no table but the last one has a column, and the scan of the last one, if it has a column,
has not been opened again. -/
theorem joined_tuple_reads_iff {tree : JoinTree} (h : tree.OpenedOnce)
    (actions : List JoinAction) :
    (run actions tree).readCells = (run actions tree).cells.map .ok ↔
      tree.leftColumns = [] ∧
        (tree.lastColumns = [] ∨ ∀ a ∈ actions, opensLast a tree = false) := by
  rw [h.opened.run.readCells_eq_iff, leftColumns_run, lastColumns_run, lastSpeces_run,
    h.lastSpeces_eq, List.append_right_eq_self, List.flatten_eq_nil_iff]
  refine and_congr_right fun _ => ?_
  simp only [List.mem_replicate]
  constructor
  · intro hall
    by_cases hcount : actions.countP (opensLast · tree) = 0
    · exact Or.inr (by simpa using List.countP_eq_zero.mp hcount)
    · exact Or.inl (hall _ ⟨hcount, rfl⟩)
  · rintro (hnil | hnone) l ⟨hcount, rfl⟩
    · exact hnil
    · exact absurd (List.countP_eq_zero.mpr (by simpa using hnone)) hcount

/-- A table with one column of four bytes. -/
def oneColumn : RowTuple :=
  ⟨fun _ => 0, [⟨"a", .ints, 0, 4, true⟩], [⟨"a", .ints, 0, 4, true⟩]⟩

/-- A table without a column. -/
def noColumn : RowTuple := ⟨fun _ => 0, [], []⟩

/-- A row is read to the right of a table without a column, also when the scans have gone on to
other records. -/
theorem row_reads :
    (run [.left (.next fun _ => 2), .right (.next fun _ => 1)]
        (joined (row noColumn) (row oneColumn))).readCells =
      (run [.left (.next fun _ => 2), .right (.next fun _ => 1)]
        (joined (row noColumn) (row oneColumn))).cells.map .ok := by
  have hopen : (joined (row noColumn) (row oneColumn)).OpenedOnce := ⟨rfl, rfl⟩
  exact (joined_tuple_reads_iff hopen _).mpr (by decide)

/-- The first cell of a joined tuple is not found. -/
theorem joined_first_not_found :
    (joined (row oneColumn) (row oneColumn)).cellAt 0 = .error .notfound ∧
      (joined (row oneColumn) (row oneColumn)).readCells ≠
        (joined (row oneColumn) (row oneColumn)).cells.map .ok :=
  ⟨rfl, by decide⟩

end Miniob.Sql
