import Miniob.Sql.Expr.Expression

/-!
# Logical plans

A logical plan is a tree of operators. It means the rows that the physical operators hand up which
`PhysicalPlanGenerator` puts in their places, with tables that are read by a table scan.

* `LogicalOperator.rows`: the rows of a plan.
* `SelectStmt`, `DeleteStmt`: statements whose columns are all known.
* `createLogicalPlan`: the plan of a statement.
* `rows_tableOper`: the tables of a statement can be read, and every column of them is found.
-/

namespace Miniob.Sql


/-! ## Operators -/

/-- What an operator is, and the data of its class.
Source: `logical_operator.h`, `enum LogicalOperatorType` -/
inductive OperatorType
  /-- `TableGetLogicalOperator`, with the conditions that are checked while the table is read. -/
  | tableGet (table : TableSchema) (predicates : List Expression)
  /-- `PredicateLogicalOperator` -/
  | predicate
  /-- `ProjectLogicalOperator` -/
  | projection (fields : List Field)
  /-- `JoinLogicalOperator` -/
  | join
  /-- `DeleteLogicalOperator` -/
  | delete
  /-- `ExplainLogicalOperator` -/
  | explain

/-- Source: `logical_operator.h`, `class LogicalOperator` -/
inductive LogicalOperator
  | mk (type : OperatorType) (expressions : List Expression) (children : List LogicalOperator)

/-- The records of each table. -/
abbrev Contents := String → List Record

/-! ## Rows -/

/-- The rows that a condition holds of. Source: `predicate_physical_operator.cpp`,
`PredicatePhysicalOperator::next` -/
def filterRows (filter : Tuple → Except RC Bool) : List Tuple → Except RC (List Tuple)
  | [] => .ok []
  | tuple :: tuples => do
    let result ← filter tuple
    let rest ← filterRows filter tuples
    return if result then tuple :: rest else rest

/-- The condition of a predicate operator. -/
def Expression.holds (e : Expression) (tuple : Tuple) : Except RC Bool := do
  let cell ← e.getValue tuple
  return cell.getBoolean

/-- The loop over the conditions of a scan.
Source: `table_scan_physical_operator.cpp`, `TableScanPhysicalOperator::filter` -/
def filterScan (tuple : Tuple) : List Expression → Except RC Bool
  | [] => .ok true
  | e :: predicates => do
    let value ← e.getValue tuple
    if value.getBoolean then filterScan tuple predicates else return false

/-- Each row of the left side with each row of the right side, which is read anew for it.
Source: `join_physical_operator.cpp`, `NestedLoopJoinPhysicalOperator::next` -/
def joinRows (right : Except RC (List Tuple)) : List Tuple → Except RC (List Tuple)
  | [] => .ok []
  | left :: lefts => do
    let rights ← right
    let rest ← joinRows right lefts
    return rights.map (Tuple.joined left) ++ rest

/-- The rows of one operator, from those of its children.
Source: `physical_plan_generator.cpp`, `PhysicalPlanGenerator::create_plan` -/
def OperatorType.rows (contents : Contents) :
    OperatorType → List Expression → List (Except RC (List Tuple)) → Except RC (List Tuple)
  | tableGet table predicates, _, _ =>
    filterRows (filterScan · predicates) ((contents table.name).map (Tuple.row table))
  | predicate, [e], [child] => do filterRows e.holds (← child)
  | predicate, _, _ => .error .internal
  | projection _, _, [] => .ok []
  | projection fields, _, child :: _ => do return (← child).map (Tuple.project fields)
  | join, _, [left, right] => do joinRows right (← left)
  | join, _, _ => .error .internal
  | delete, _, [] => .ok []
  | delete, _, child :: _ => child
  -- the text of a plan is no row of the tables
  | explain, _, _ => .ok []

mutual

/-- The rows that a plan hands up, and for the plan of a deletion the rows that it deletes. -/
def LogicalOperator.rows (contents : Contents) : LogicalOperator → Except RC (List Tuple)
  | .mk type expressions children =>
    type.rows contents expressions (rowsOfChildren contents children)

/-- The rows of each operator of a list. -/
def rowsOfChildren (contents : Contents) : List LogicalOperator → List (Except RC (List Tuple))
  | [] => []
  | child :: children => child.rows contents :: rowsOfChildren contents children

end

/-! ## Statements -/

/-- A constant of a statement. Source: `parse_defs.h`, `struct Value` -/
inductive Value
  | ints (intValue : Int)
  | floats (floatValue : Float32)
  | chars (stringValue : List Common.Byte)
  | booleans (boolValue : Bool)
  deriving DecidableEq

/-- Source: `expression.h`, `ValueExpr::ValueExpr` -/
def Value.toCell : Value → TupleCell
  | ints v => .ints v
  | floats v => .floats v
  | chars s => TupleCell.setString s 0
  | booleans b => .booleans b

/-- Source: `filter_stmt.h`, `struct FilterObj` -/
inductive FilterObj
  /-- `is_attr` is true. -/
  | attr (field : Field)
  /-- `is_attr` is false. -/
  | value (value : Value)
  deriving DecidableEq

/-- Source: `filter_stmt.h`, `class FilterUnit` -/
structure FilterUnit where
  /-- `comp_` -/
  comp : CompOp
  /-- `left_` -/
  left : FilterObj
  /-- `right_` -/
  right : FilterObj
  deriving DecidableEq

/-- The column is one of a table. -/
def TableSchema.HasField (table : TableSchema) (field : Field) : Prop :=
  field.tableName = table.name ∧ field.fieldName ∈ table.fieldMetas

instance (table : TableSchema) (field : Field) : Decidable (table.HasField field) :=
  inferInstanceAs (Decidable (_ ∧ _))

/-- The columns of a comparison are those of some of the tables.
Source: `filter_stmt.cpp`, `FilterStmt::create_filter_unit` -/
def FilterUnit.Known (tables : List TableSchema) (unit : FilterUnit) : Prop :=
  ∀ field, unit.left = .attr field ∨ unit.right = .attr field →
    ∃ table ∈ tables, table.HasField field

/-- Source: `select_stmt.h`, `class SelectStmt` -/
structure SelectStmt where
  /-- `tables_` -/
  tables : List TableSchema
  /-- `query_fields_` -/
  queryFields : List Field
  /-- The comparisons of `filter_stmt_`. -/
  filterStmt : List FilterUnit
  tables_ne_nil : tables ≠ []
  known : ∀ unit ∈ filterStmt, unit.Known tables

/-- Source: `delete_stmt.h`, `class DeleteStmt` -/
structure DeleteStmt where
  /-- `table_` -/
  table : TableSchema
  /-- The comparisons of `filter_stmt_`. -/
  filterStmt : List FilterUnit
  known : ∀ unit ∈ filterStmt, unit.Known [table]

/-- A statement that gets a plan of one of these two forms. Source: `stmt.h`, `class Stmt` -/
inductive Stmt
  | select (stmt : SelectStmt)
  | delete (stmt : DeleteStmt)

/-! ## The plan of a statement -/

/-- The expression of one side of a comparison. -/
def FilterObj.toExpression : FilterObj → Expression
  | attr field => .field field
  | value v => .value v.toCell

/-- The expression of a comparison. -/
def FilterUnit.toExpression (unit : FilterUnit) : Expression :=
  .comparison unit.comp unit.left.toExpression unit.right.toExpression

/-- Source: `optimize_stage.cpp`, `OptimizeStage::create_predicate_logical_plan` -/
def createPredicateLogicalPlan (units : List FilterUnit) (child : LogicalOperator) :
    LogicalOperator :=
  if units = [] then child
  else .mk .predicate [.conjunction .and (units.map FilterUnit.toExpression)] [child]

/-- The operator that reads a table. -/
def tableGetOper (table : TableSchema) : LogicalOperator := .mk (.tableGet table []) [] []

/-- The operator that joins a table to those before it. -/
def joinOper (oper : LogicalOperator) (table : TableSchema) : LogicalOperator :=
  .mk .join [] [oper, tableGetOper table]

/-- The operator that reads the tables of a statement. -/
def tableOper (tables : List TableSchema) : Option LogicalOperator :=
  tables.foldl (fun oper table =>
    match oper with
    | none => some (tableGetOper table)
    | some oper => some (joinOper oper table)) none

/-- Source: `optimize_stage.cpp`, `OptimizeStage::create_select_logical_plan` -/
def createSelectLogicalPlan (stmt : SelectStmt) : LogicalOperator :=
  .mk (.projection stmt.queryFields) []
    ((tableOper stmt.tables).map (createPredicateLogicalPlan stmt.filterStmt)).toList

/-- Source: `optimize_stage.cpp`, `OptimizeStage::create_delete_logical_plan` -/
def createDeleteLogicalPlan (stmt : DeleteStmt) : LogicalOperator :=
  .mk .delete [] [createPredicateLogicalPlan stmt.filterStmt (tableGetOper stmt.table)]

/-- Source: `optimize_stage.cpp`, `OptimizeStage::create_logical_plan` -/
def createLogicalPlan : Stmt → LogicalOperator
  | .select stmt => createSelectLogicalPlan stmt
  | .delete stmt => createDeleteLogicalPlan stmt

/-! ## What the plans mean -/

section meaning

variable {contents : Contents} {tuple : Tuple} {tuples : List Tuple}

/-- A condition with a value on all rows filters them. By induction on the rows. -/
theorem filterRows_eq {filter : Tuple → Except RC Bool} {b : Tuple → Bool}
    (h : ∀ tuple ∈ tuples, filter tuple = .ok (b tuple)) :
    filterRows filter tuples = .ok (tuples.filter b) := by
  induction tuples with
  | nil => rfl
  | cons tuple tuples ih =>
    rw [filterRows, h tuple List.mem_cons_self, ih fun t ht => h t (List.mem_cons_of_mem _ ht),
      List.filter_cons]
    rfl

theorem holds_eq {e : Expression} (h : e.Evaluable tuple) :
    e.holds tuple = .ok (e.truth tuple) := Expression.getValue_bind h id

/-- The conditions of a scan have to hold all. By induction on the list. -/
theorem filterScan_eq {predicates : List Expression} (h : ∀ e ∈ predicates, e.Evaluable tuple) :
    filterScan tuple predicates = .ok (predicates.all fun e => e.truth tuple) := by
  induction predicates with
  | nil => rfl
  | cons e predicates ih =>
    obtain ⟨cell, hcell⟩ := h e List.mem_cons_self
    have htruth : e.truth tuple = cell.getBoolean := by
      simp only [Expression.truth, hcell]
    rw [filterScan, hcell, List.all_cons, htruth,
      ih fun e he => h e (List.mem_cons_of_mem _ he)]
    cases hcond : cell.getBoolean <;> simp [bind, Except.bind, pure, Except.pure, hcond]

theorem joinRows_eq {right : Except RC (List Tuple)} {rights : List Tuple}
    (h : right = .ok rights) (lefts : List Tuple) :
    joinRows right lefts = .ok (lefts.flatMap fun left => rights.map (Tuple.joined left)) := by
  induction lefts with
  | nil => rfl
  | cons left lefts ih =>
    rw [joinRows, ih, h, List.flatMap_cons]
    rfl

/-- The rows of a table. -/
def TableSchema.rowTuples (contents : Contents) (table : TableSchema) : List Tuple :=
  (contents table.name).map (Tuple.row table)

/-- The rows of a table joined to those before it. -/
def joinTuples (contents : Contents) (lefts : List Tuple) (table : TableSchema) : List Tuple :=
  lefts.flatMap fun left => (table.rowTuples contents).map (Tuple.joined left)

/-- The rows of the tables of a statement: of one table, or of each table joined to those before
it. -/
def joinedTuples (contents : Contents) : List TableSchema → List Tuple
  | [] => []
  | table :: tables => tables.foldl (joinTuples contents) (table.rowTuples contents)

theorem rows_tableGet {table : TableSchema} {predicates : List Expression}
    (h : ∀ tuple ∈ table.rowTuples contents, ∀ e ∈ predicates, e.Evaluable tuple) :
    (LogicalOperator.mk (.tableGet table predicates) [] []).rows contents =
      .ok ((table.rowTuples contents).filter fun tuple => predicates.all fun e => e.truth tuple) :=
  filterRows_eq fun tuple htuple => filterScan_eq (h tuple htuple)

theorem rows_tableGetOper (table : TableSchema) :
    (tableGetOper table).rows contents = .ok (table.rowTuples contents) := by
  rw [tableGetOper, rows_tableGet (by simp)]
  simp

theorem rows_joinOper {oper : LogicalOperator} (h : oper.rows contents = .ok tuples)
    (table : TableSchema) :
    (joinOper oper table).rows contents = .ok (joinTuples contents tuples table) := by
  rw [joinTuples, ← joinRows_eq (rows_tableGetOper table) tuples]
  show (do joinRows ((tableGetOper table).rows contents) (← oper.rows contents)) = _
  rw [h]
  rfl

theorem tableOper_cons (table : TableSchema) (tables : List TableSchema) :
    tableOper (table :: tables) = some (tables.foldl joinOper (tableGetOper table)) := by
  rw [tableOper, List.foldl_cons]
  generalize tableGetOper table = oper
  induction tables generalizing oper with
  | nil => rfl
  | cons table tables ih => exact ih (joinOper oper table)

/-- The tables of a statement are read as they are joined. -/
theorem rows_tableOper (table : TableSchema) (tables : List TableSchema) :
    (tables.foldl joinOper (tableGetOper table)).rows contents =
      .ok (joinedTuples contents (table :: tables)) := by
  have hloop : ∀ (tables : List TableSchema) (oper : LogicalOperator) (tuples : List Tuple),
      oper.rows contents = .ok tuples → (tables.foldl joinOper oper).rows contents =
        .ok (tables.foldl (joinTuples contents) tuples) := by
    intro tables
    induction tables with
    | nil => exact fun _ _ h => h
    | cons table tables ih => exact fun oper tuples h => ih _ _ (rows_joinOper h table)
  exact hloop tables _ _ (rows_tableGetOper table)

theorem has_rowTuples {table : TableSchema} {field : Field} (hfield : table.HasField field)
    (h : tuple ∈ table.rowTuples contents) : tuple.Has field := by
  obtain ⟨record, -, rfl⟩ := List.mem_map.mp h
  exact ⟨record.data field.fieldName, if_pos hfield⟩

/-- A row has the columns of all tables. -/
theorem has_joinedTuples {tables : List TableSchema} {field : Field}
    (hfield : ∃ table ∈ tables, table.HasField field) (h : tuple ∈ joinedTuples contents tables) :
    tuple.Has field := by
  have hloop : ∀ (tables : List TableSchema) (tuples : List Tuple),
      (∃ table ∈ tables, table.HasField field) ∨ (∀ t ∈ tuples, t.Has field) →
        ∀ t ∈ tables.foldl (joinTuples contents) tuples, t.Has field := by
    intro tables
    induction tables with
    | nil =>
      rintro tuples (⟨table, hmem, -⟩ | hall)
      · cases hmem
      · exact hall
    | cons table tables ih =>
      intro tuples hor
      refine ih _ ?_
      -- the column is one of a table that comes later, of this table, or of the rows so far
      have hnow : (table.HasField field ∨ ∀ t ∈ tuples, t.Has field) →
          ∀ t ∈ joinTuples contents tuples table, t.Has field := by
        intro hnow t ht
        obtain ⟨left, hleft, hmem⟩ := List.mem_flatMap.mp ht
        obtain ⟨right, hright, rfl⟩ := List.mem_map.mp hmem
        rw [Tuple.has_joined]
        rcases hnow with hthis | hall
        · exact Or.inr (has_rowTuples hthis hright)
        · exact Or.inl (hall left hleft)
      rcases hor with ⟨table', hmem, hthis⟩ | hall
      · rcases List.mem_cons.mp hmem with rfl | hlater
        · exact Or.inr (hnow (Or.inl hthis))
        · exact Or.inl ⟨table', hlater, hthis⟩
      · exact Or.inr (hnow (Or.inr hall))
  cases tables with
  | nil => cases h
  | cons table tables =>
    refine hloop tables _ ?_ tuple h
    obtain ⟨table', hmem, hthis⟩ := hfield
    rcases List.mem_cons.mp hmem with rfl | hlater
    · exact Or.inr fun t ht => has_rowTuples hthis ht
    · exact Or.inl ⟨table', hlater, hthis⟩

end meaning

end Miniob.Sql
