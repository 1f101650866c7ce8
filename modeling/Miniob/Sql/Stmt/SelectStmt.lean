import Miniob.Sql.Operator.LogicalOperator

/-!
# Resolving a query

A query is parsed into names. Its statement has the tables and the columns that they stand for.

* `Selects`: the names of a query, as the actions of the parser push them. A list comes with its
  last element first; `select_relations` says that the tables get back into written order.
* `FilterStmt.create`, `SelectStmt.create`: the statement of a query. The select list is read from
  its end, which is written order (`selectAttr_reverse`).
* `FilterStmt.create_known`: a column of a comparison is one of a table of the statement.

The tables of a statement are never null, so that names are always looked up among them.
-/

namespace Miniob.Sql


/-! ## Names -/

/-- Source: `parse_defs.h`, `struct RelAttr` -/
structure RelAttr where
  /-- `relation_name` -/
  relationName : String
  /-- `attribute_name` -/
  attributeName : String
  deriving DecidableEq

/-- One side of a comparison. Source: `parse_defs.h`, `struct Condition` -/
inductive ConditionSide
  | attr (attr : RelAttr)
  | value (value : Value)
  deriving DecidableEq

/-- Source: `parse_defs.h`, `struct Condition` -/
structure Condition where
  /-- `left_attr`, or `left_value` -/
  left : ConditionSide
  /-- `comp` -/
  comp : CompOp
  /-- `right_attr`, or `right_value` -/
  right : ConditionSide
  deriving DecidableEq

/-- Source: `parse_defs.h`, `struct Selects` -/
structure Selects where
  /-- `attributes` -/
  attributes : List RelAttr
  /-- `relations` -/
  relations : List String
  /-- `conditions` -/
  conditions : List Condition
  relations_ne_nil : relations ≠ []

/-! ## Actions of the parser -/

/-- The elements of a list as a right recursive rule pushes them. -/
def pushed {α : Type} : List α → List α
  | [] => []
  | a :: as => pushed as ++ [a]

theorem pushed_eq {α : Type} (as : List α) : pushed as = as.reverse := by
  induction as with
  | nil => rfl
  | cons a as ih => rw [pushed, ih, List.reverse_cons]

/-- Source: `yacc_sql.y`, `attr_list` -/
def attrList : List RelAttr → List RelAttr := pushed

/-- Source: `yacc_sql.y`, `rel_list` -/
def relList : List String → List String := pushed

/-- Source: `yacc_sql.y`, `condition_list` -/
def conditionList : List Condition → List Condition := pushed

/-- A select list that begins with this name. Source: `yacc_sql.y`, `select_attr` -/
def selectAttr (attr : RelAttr) (attrs : List RelAttr) : List RelAttr := attrList attrs ++ [attr]

/-- The select list `*`. Source: `yacc_sql.y`, `select_attr` -/
def selectStar : List RelAttr := [⟨"", "*"⟩]

/-- Source: `yacc_sql.y`, `select` -/
def select (attributes : List RelAttr) (relation : String) (relations : List String)
    (conditions : List Condition) : Selects where
  attributes := attributes
  relations := (relList relations ++ [relation]).reverse
  conditions := conditions
  relations_ne_nil := by simp

@[simp] theorem select_relations (attributes : List RelAttr) (relation : String)
    (relations : List String) (conditions : List Condition) :
    (select attributes relation relations conditions).relations = relation :: relations := by
  simp [select, relList, pushed_eq]

@[simp] theorem selectAttr_reverse (attr : RelAttr) (attrs : List RelAttr) :
    (selectAttr attr attrs).reverse = attr :: attrs := by
  simp [selectAttr, attrList, pushed_eq]

/-- The star is a select list of one name. -/
theorem selectStar_eq : selectStar = selectAttr ⟨"", "*"⟩ [] := rfl

/-! ## Tables -/

/-- The tables that are open. Source: `db.h`, `class Db` -/
structure Db where
  /-- `opened_tables_` -/
  openedTables : List TableSchema

/-- Source: `db.cpp`, `Db::find_table` -/
def Db.findTable (db : Db) (name : String) : Option TableSchema :=
  db.openedTables.find? fun table => table.name = name

/-- How many columns every table begins with.
Source: `table_meta.cpp`, `TableMeta::sys_field_num` -/
def sysFieldNum : ℕ := 1

/-- The columns of a table that a user has made. -/
def TableSchema.userFields (table : TableSchema) : List String := table.fieldMetas.drop sysFieldNum

/-- Source: `table_meta.cpp`, `TableMeta::field` -/
def TableSchema.field (table : TableSchema) (name : String) : Option Field :=
  if name ∈ table.fieldMetas then some ⟨table.name, name⟩ else none

theorem TableSchema.field_eq_some {table : TableSchema} {name : String} {column : Field}
    (h : table.field name = some column) : column = ⟨table.name, name⟩ ∧ table.HasField column := by
  unfold TableSchema.field at h
  split at h
  · rename_i hmem
    cases h
    exact ⟨rfl, rfl, hmem⟩
  · cases h

/-- The first of the tables that has the name. -/
def tableMap (tables : List TableSchema) (name : String) : Option TableSchema :=
  tables.find? fun table => table.name = name

theorem tableMap_eq_some {tables : List TableSchema} {name : String} {table : TableSchema}
    (h : tableMap tables name = some table) : table ∈ tables ∧ table.name = name :=
  ⟨List.mem_of_find?_eq_some h, by simpa using List.find?_some h⟩

/-! ## Comparisons -/

section filter

variable (defaultTable : Option TableSchema) (tables : List TableSchema)

/-- Source: `filter_stmt.cpp`, `get_table_and_field` -/
def getTableAndField (attr : RelAttr) : Except RC Field :=
  match if isBlank attr.relationName then defaultTable else tableMap tables attr.relationName with
  | none => .error .schemaTableNotExist
  | some table =>
    match table.field attr.attributeName with
    | none => .error .schemaFieldNotExist
    | some field => .ok field

/-- One side of a comparison. Source: `filter_stmt.cpp`, `FilterStmt::create_filter_unit` -/
def createFilterObj : ConditionSide → Except RC FilterObj
  | .attr attr => do return .attr (← getTableAndField defaultTable tables attr)
  | .value value => .ok (.value value)

/-- Source: `filter_stmt.cpp`, `FilterStmt::create_filter_unit` -/
def createFilterUnit (condition : Condition) : Except RC FilterUnit := do
  let left ← createFilterObj defaultTable tables condition.left
  let right ← createFilterObj defaultTable tables condition.right
  return ⟨condition.comp, left, right⟩

/-- Source: `filter_stmt.cpp`, `FilterStmt::create` -/
def FilterStmt.create : List Condition → Except RC (List FilterUnit)
  | [] => .ok []
  | condition :: conditions => do
    let filterUnit ← createFilterUnit defaultTable tables condition
    return filterUnit :: (← FilterStmt.create conditions)

variable {defaultTable tables}

/-- A column that a comparison names is one of the tables. -/
theorem getTableAndField_known (hdefault : ∀ table ∈ defaultTable, table ∈ tables) {attr : RelAttr}
    {field : Field} (h : getTableAndField defaultTable tables attr = .ok field) :
    ∃ table ∈ tables, table.HasField field := by
  unfold getTableAndField at h
  split at h
  · cases h
  · rename_i table htable
    have hmem : table ∈ tables := by
      split at htable
      · exact hdefault table htable
      · exact (tableMap_eq_some htable).1
    split at h
    · cases h
    · rename_i column hcolumn
      cases h
      exact ⟨table, hmem, (TableSchema.field_eq_some hcolumn).2⟩

theorem createFilterObj_known (hdefault : ∀ table ∈ defaultTable, table ∈ tables)
    {side : ConditionSide} {field : Field}
    (h : createFilterObj defaultTable tables side = .ok (.attr field)) :
    ∃ table ∈ tables, table.HasField field := by
  cases side with
  | attr attr =>
    obtain ⟨column, hcolumn, heq⟩ := bind_inv h
    cases heq
    exact getTableAndField_known hdefault hcolumn
  | value v => cases h

theorem createFilterUnit_known (hdefault : ∀ table ∈ defaultTable, table ∈ tables)
    {condition : Condition} {unit : FilterUnit}
    (h : createFilterUnit defaultTable tables condition = .ok unit) : unit.Known tables := by
  obtain ⟨left, hleft, h⟩ := bind_inv h
  obtain ⟨right, hright, h⟩ := bind_inv h
  cases h
  rintro field (rfl | rfl)
  · exact createFilterObj_known hdefault hleft
  · exact createFilterObj_known hdefault hright

/-- By induction on the comparisons. -/
theorem FilterStmt.create_known (hdefault : ∀ table ∈ defaultTable, table ∈ tables)
    {conditions : List Condition} {units : List FilterUnit}
    (h : FilterStmt.create defaultTable tables conditions = .ok units) :
    ∀ unit ∈ units, unit.Known tables := by
  induction conditions generalizing units with
  | nil =>
    cases h
    simp
  | cons condition conditions ih =>
    obtain ⟨unit, hunit, h⟩ := bind_inv h
    obtain ⟨rest, hrest, h⟩ := bind_inv h
    cases h
    intro u hu
    rcases List.mem_cons.mp hu with rfl | hu
    · exact createFilterUnit_known hdefault hunit
    · exact ih hrest u hu

end filter

/-! ## Statements -/

/-- Source: `select_stmt.cpp`, `wildcard_fields` -/
def wildcardFields (table : TableSchema) : List Field :=
  table.userFields.map fun name => ⟨table.name, name⟩

/-- The tables of a query, in written order. Source: `select_stmt.cpp`, `SelectStmt::create` -/
def collectTables (db : Db) : List String → Except RC (List TableSchema)
  | [] => .ok []
  | relation :: relations =>
    match db.findTable relation with
    | none => .error .schemaTableNotExist
    | some table => do return table :: (← collectTables db relations)

/-- The columns that one name of a select list stands for.
Source: `select_stmt.cpp`, `SelectStmt::create` -/
def attrFields (tables : List TableSchema) (attr : RelAttr) : Except RC (List Field) :=
  if isBlank attr.relationName ∧ attr.attributeName = "*" then
    .ok (tables.flatMap wildcardFields)
  else if ¬ isBlank attr.relationName then
    if attr.relationName = "*" then
      if attr.attributeName ≠ "*" then .error .schemaFieldMissing
      else .ok (tables.flatMap wildcardFields)
    else
      match tableMap tables attr.relationName with
      | none => .error .schemaFieldMissing
      | some table =>
        if attr.attributeName = "*" then .ok (wildcardFields table)
        else
          match table.field attr.attributeName with
          | none => .error .schemaFieldMissing
          | some field => .ok [field]
  else
    match tables with
    | [table] =>
      match table.field attr.attributeName with
      | none => .error .schemaFieldMissing
      | some field => .ok [field]
    | _ => .error .schemaFieldMissing

/-- The columns of a select list, from names in the order of the loop.
Source: `select_stmt.cpp`, `SelectStmt::create` -/
def collectFields (tables : List TableSchema) : List RelAttr → Except RC (List Field)
  | [] => .ok []
  | attr :: attrs => do
    let fields ← attrFields tables attr
    return fields ++ (← collectFields tables attrs)

/-- The table of a name without one. Source: `select_stmt.cpp`, `SelectStmt::create` -/
def defaultTable : List TableSchema → Option TableSchema
  | [table] => some table
  | _ => none

theorem mem_of_defaultTable {tables : List TableSchema} :
    ∀ table ∈ defaultTable tables, table ∈ tables := by
  intro table h
  unfold defaultTable at h
  split at h
  · cases h
    exact List.mem_singleton_self _
  · cases h

theorem collectTables_ne_nil {db : Db} {relations : List String} {tables : List TableSchema}
    (hne : relations ≠ []) (h : collectTables db relations = .ok tables) : tables ≠ [] := by
  cases relations with
  | nil => exact absurd rfl hne
  | cons relation relations =>
    rw [collectTables] at h
    split at h
    · cases h
    · obtain ⟨rest, -, h⟩ := bind_inv h
      cases h
      exact List.cons_ne_nil _ _

/-- Source: `select_stmt.cpp`, `SelectStmt::create` -/
def SelectStmt.create (db : Db) (selectSql : Selects) : Except RC SelectStmt :=
  match htables : collectTables db selectSql.relations with
  | .error rc => .error rc
  | .ok tables =>
    match collectFields tables selectSql.attributes.reverse with
    | .error rc => .error rc
    | .ok queryFields =>
      match hfilter : FilterStmt.create (defaultTable tables) tables selectSql.conditions with
      | .error rc => .error rc
      | .ok filterStmt =>
        .ok
          { tables, queryFields, filterStmt
            tables_ne_nil := collectTables_ne_nil selectSql.relations_ne_nil htables
            known := FilterStmt.create_known mem_of_defaultTable hfilter }

/-- What a statement is made of. -/
theorem SelectStmt.create_eq_ok {db : Db} {selectSql : Selects} {stmt : SelectStmt}
    (h : SelectStmt.create db selectSql = .ok stmt) :
    collectTables db selectSql.relations = .ok stmt.tables ∧
      collectFields stmt.tables selectSql.attributes.reverse = .ok stmt.queryFields ∧
      FilterStmt.create (defaultTable stmt.tables) stmt.tables selectSql.conditions =
        .ok stmt.filterStmt := by
  unfold SelectStmt.create at h
  split at h
  · cases h
  · rename_i tables htables
    split at h
    · cases h
    · rename_i queryFields hfields
      split at h
      · cases h
      · rename_i filterStmt hfilter
        cases h
        exact ⟨htables, hfields, hfilter⟩

end Miniob.Sql
