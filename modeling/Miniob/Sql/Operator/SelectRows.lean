import Miniob.Lib.CrossProduct
import Miniob.Sql.Operator.PlanRuns
import Miniob.Sql.Stmt.SelectStmt

/-!
# The rows of a query

A query over several tables without conditions returns one row for each choice of a record from each
of them.

* `RelAttr.cells`: what a name of a select list shows of such a choice. This is what the query is
  for; it says nothing of plans and operators.
* `Joins`: a joined tuple is made of the records of a choice. `findCell_joins` finds a column in it
  by the names of the table and the column.
* `attrFields_cells`: the columns that a name stands for show what the name should show.
* `select_returns_cross_product`: the rows that get to the client.
-/

namespace Miniob.Sql

open Miniob.Lib

/-! ## What a query should return -/

/-- One record from each of some tables. -/
abbrev Choice := List (TableSchema × Record)

/-- The records of a table, in the order of its scan. -/
def TableSchema.choices (contents : Contents) (table : TableSchema) : Choice :=
  (contents table.name).map fun record => (table, record)

/-- The name of a select list is about the table. -/
def RelAttr.names (attr : RelAttr) (table : TableSchema) : Bool :=
  isBlank attr.relationName || attr.relationName = "*" || attr.relationName = table.name

/-- What a name shows of one record: a column, or all columns that a user has made. -/
def RelAttr.cellsOf (attr : RelAttr) (p : TableSchema × Record) : List TupleCell :=
  if attr.attributeName = "*" then p.1.userFields.map p.2.data else [p.2.data attr.attributeName]

/-- What a name of a select list shows. -/
def RelAttr.cells (attr : RelAttr) (choice : Choice) : List TupleCell :=
  (choice.filter fun p => attr.names p.1).flatMap attr.cellsOf

/-- What a select list in written order shows. -/
def selectCells (attrs : List RelAttr) (choice : Choice) : List TupleCell :=
  attrs.flatMap fun attr => attr.cells choice

/-! ## Joined tuples -/

section joins

variable (contents : Contents) {field : Field}

/-- The tuple is made of these records. -/
inductive Joins : Tuple → Choice → Prop
  | row (p : TableSchema × Record) : Joins (.row p.1 p.2) [p]
  | joined {tuple : Tuple} {choice : Choice} (h : Joins tuple choice) (p : TableSchema × Record) :
      Joins (.joined tuple (.row p.1 p.2)) (choice ++ [p])

theorem findCell_row {p : TableSchema × Record} (h : p.1.HasField field) :
    (Tuple.row p.1 p.2).findCell field = .ok (p.2.data field.fieldName) := if_pos h

theorem findCell_row_other {p : TableSchema × Record} (h : field.tableName ≠ p.1.name) :
    (Tuple.row p.1 p.2).findCell field = .error .notfound := if_neg fun hboth => h hboth.1

theorem findCell_joins_other {tuple : Tuple} {choice : Choice} (hjoins : Joins tuple choice)
    (h : ∀ p ∈ choice, field.tableName ≠ p.1.name) : tuple.findCell field = .error .notfound := by
  induction hjoins with
  | row p => exact findCell_row_other (h p (List.mem_singleton_self p))
  | joined hjoins p ih =>
    have hleft := ih fun q hq => h q (List.mem_append_left _ hq)
    rw [Tuple.findCell, hleft]
    exact findCell_row_other (h p (by simp))

/-- A column of one of the tables is found in the record of that table. By induction on the joins:
the tables to the left do not have the name of the one to the right. -/
theorem findCell_joins {tuple : Tuple} {choice : Choice} (hjoins : Joins tuple choice)
    (hnames : (choice.map fun p => p.1.name).Nodup) {q : TableSchema × Record} (hq : q ∈ choice)
    (hfield : q.1.HasField field) : tuple.findCell field = .ok (q.2.data field.fieldName) := by
  induction hjoins with
  | row p =>
    obtain rfl := List.mem_singleton.mp hq
    exact findCell_row hfield
  | @joined tuple choice hjoins p ih =>
    rw [List.map_append, List.nodup_append] at hnames
    obtain ⟨hleft, -, hdisjoint⟩ := hnames
    rcases List.mem_append.mp hq with hq | hq
    · rw [Tuple.findCell, ih hleft hq]
    · obtain rfl := List.mem_singleton.mp hq
      have hother : tuple.findCell field = .error .notfound := by
        refine findCell_joins_other hjoins fun p hp => ?_
        rw [hfield.1]
        exact (hdisjoint _ (List.mem_map_of_mem hp) _ (by simp)).symm
      rw [Tuple.findCell, hother]
      exact findCell_row hfield

/-- Joining one more table makes all choices with one more record. -/
theorem joins_joinTuples {lefts : List Tuple} {choices : List Choice}
    (h : List.Forall₂ Joins lefts choices) (table : TableSchema) :
    List.Forall₂ Joins (joinTuples contents lefts table)
      (choices.flatMap fun c => (table.choices contents).map fun p => c ++ [p]) := by
  refine List.rel_flatMap h fun left choice hjoins => ?_
  rw [TableSchema.rowTuples, TableSchema.choices, List.map_map, List.map_map,
    List.forall₂_map_left_iff, List.forall₂_map_right_iff, List.forall₂_same]
  exact fun record _ => .joined hjoins (table, record)

/-- By induction on the tables that are still to be joined. -/
theorem joins_foldl (tables : List TableSchema) :
    ∀ {lefts : List Tuple} {choices : List Choice}, List.Forall₂ Joins lefts choices →
      List.Forall₂ Joins (tables.foldl (joinTuples contents) lefts)
        (choices.flatMap fun c =>
          (crossProduct (tables.map (TableSchema.choices contents))).map (c ++ ·)) := by
  induction tables with
  | nil =>
    intro lefts choices h
    simpa [Lib.crossProduct] using h
  | cons table tables ih =>
    intro lefts choices h
    rw [List.map_cons, flatMap_crossProduct, List.foldl_cons]
    exact ih (joins_joinTuples contents h table)

/-- The joined tuples are made of the choices of the cross product, in this order. -/
theorem joins_joinedTuples {tables : List TableSchema} (hne : tables ≠ []) :
    List.Forall₂ Joins (joinedTuples contents tables)
      (crossProduct (tables.map (TableSchema.choices contents))) := by
  cases tables with
  | nil => exact absurd rfl hne
  | cons table tables =>
    have hfirst : List.Forall₂ Joins (table.rowTuples contents)
        ((table.choices contents).map fun p => [p]) := by
      rw [TableSchema.rowTuples, TableSchema.choices, List.map_map, List.forall₂_map_left_iff,
        List.forall₂_map_right_iff, List.forall₂_same]
      exact fun record _ => .row (table, record)
    have h := joins_foldl contents tables hfirst
    rw [List.flatMap_map] at h
    exact h

/-- A choice of the cross product has the tables of the query. -/
theorem tables_of_mem {contents : Contents} {tables : List TableSchema} {choice : Choice}
    (h : choice ∈ crossProduct (tables.map (TableSchema.choices contents))) :
    choice.map Prod.fst = tables := by
  rw [mem_crossProduct_iff, List.forall₂_map_right_iff] at h
  induction h with
  | nil => rfl
  | cons hmem _ ih =>
    obtain ⟨record, -, rfl⟩ := List.mem_map.mp hmem
    rw [List.map_cons, ih]

end joins

/-! ## Select lists -/

section attrs

variable {tuple : Tuple} {choice : Choice}

/-- The columns have these cells in the tuple. -/
def Shows (tuple : Tuple) : List Field → List TupleCell → Prop :=
  List.Forall₂ fun field cell => tuple.findCell field = .ok cell

theorem mapM_of_shows {fields : List Field} {cells : List TupleCell}
    (h : Shows tuple fields cells) :
    (fields.mapM fun field => tuple.findCell field) = .ok cells := by
  induction h with
  | nil => rfl
  | cons hcell _ ih =>
    rw [List.mapM_cons, hcell, ih]
    rfl

/-- The name of one table chooses its record. By induction on the choice. -/
theorem filter_name_eq (hnames : (choice.map fun p => p.1.name).Nodup) {q : TableSchema × Record}
    (hq : q ∈ choice) : choice.filter (fun p => p.1.name = q.1.name) = [q] := by
  induction choice with
  | nil => cases hq
  | cons p choice ih =>
    rw [List.map_cons, List.nodup_cons] at hnames
    obtain ⟨hnotin, hrest⟩ := hnames
    rcases List.mem_cons.mp hq with rfl | hq
    · rw [List.filter_cons_of_pos (by simp), List.filter_eq_nil_iff.mpr]
      intro p hp
      have hne : p.1.name ≠ q.1.name := fun heq =>
        hnotin (heq ▸ List.mem_map_of_mem (f := fun p => p.1.name) hp)
      simpa using hne
    · have hne : p.1.name ≠ q.1.name := fun heq =>
        hnotin (heq ▸ List.mem_map_of_mem (f := fun p => p.1.name) hq)
      rw [List.filter_cons_of_neg (by simpa using hne), ih hrest hq]

/-- A name that is about one of the tables, and the columns of it that the name stands for. -/
def AboutTable (tables : List TableSchema) (attr : RelAttr) (table : TableSchema)
    (fields : List Field) : Prop :=
  table ∈ tables ∧ (∀ t ∈ tables, attr.names t = decide (t.name = table.name)) ∧
    (attr.attributeName = "*" ∧ fields = wildcardFields table ∨
      attr.attributeName ≠ "*" ∧
        ∃ field, table.field attr.attributeName = some field ∧ fields = [field])

/-- A name is about all tables and stands for all their columns, or it is about one table. -/
theorem attrFields_inv {tables : List TableSchema} {attr : RelAttr} {fields : List Field}
    (h : attrFields tables attr = .ok fields) :
    attr.attributeName = "*" ∧ (∀ table, attr.names table = true) ∧
        fields = tables.flatMap wildcardFields ∨
      ∃ table, AboutTable tables attr table fields := by
  unfold attrFields at h
  split at h
  · rename_i hstar
    exact Or.inl ⟨hstar.2, fun table => by simp [RelAttr.names, hstar.1], (Except.ok.inj h).symm⟩
  · rename_i hnotstar
    split at h
    · rename_i hnotblank
      split at h
      · rename_i hrel
        split at h
        · cases h
        · rename_i hattr
          exact Or.inl ⟨not_not.mp hattr, fun table => by simp [RelAttr.names, hrel],
            (Except.ok.inj h).symm⟩
      · rename_i hrel
        split at h
        · cases h
        · rename_i table htable
          obtain ⟨hmem, hname⟩ := tableMap_eq_some htable
          refine Or.inr ⟨table, hmem, fun t _ => ?_, ?_⟩
          · rw [RelAttr.names, hname, Bool.eq_false_iff.mpr hnotblank, decide_eq_false hrel]
            simp [eq_comm]
          · split at h
            · rename_i hattr
              exact Or.inl ⟨hattr, (Except.ok.inj h).symm⟩
            · rename_i hattr
              split at h
              · cases h
              · rename_i field hfield
                exact Or.inr ⟨hattr, field, hfield, (Except.ok.inj h).symm⟩
    · rename_i hblank
      have hblank := not_not.mp hblank
      split at h
      · rename_i table
        split at h
        · cases h
        · rename_i field hfield
          refine Or.inr ⟨table, List.mem_singleton_self _, fun t ht => ?_,
            Or.inr ⟨fun hattr => hnotstar ⟨hblank, hattr⟩, field, hfield,
              (Except.ok.inj h).symm⟩⟩
          obtain rfl := List.mem_singleton.mp ht
          simp [RelAttr.names, hblank]
      · cases h

variable (hjoins : Joins tuple choice) (hnames : (choice.map fun p => p.1.name).Nodup)
include hjoins hnames

theorem shows_wildcard {q : TableSchema × Record} (hq : q ∈ choice) :
    Shows tuple (wildcardFields q.1) (q.1.userFields.map q.2.data) := by
  rw [Shows, wildcardFields, List.forall₂_map_left_iff, List.forall₂_map_right_iff,
    List.forall₂_same]
  intro name hname
  have hhas : q.1.HasField ⟨q.1.name, name⟩ := ⟨rfl, List.mem_of_mem_drop hname⟩
  exact findCell_joins hjoins hnames hq hhas

theorem shows_field {q : TableSchema × Record} (hq : q ∈ choice) {name : String} {field : Field}
    (hfield : q.1.field name = some field) : Shows tuple [field] [q.2.data name] := by
  obtain ⟨rfl, hhas⟩ := TableSchema.field_eq_some hfield
  exact .cons (findCell_joins hjoins hnames hq hhas) .nil

/-- All columns of all tables. -/
theorem shows_star {attr : RelAttr} (hattr : attr.attributeName = "*")
    (hall : ∀ table, attr.names table = true) :
    Shows tuple ((choice.map Prod.fst).flatMap wildcardFields) (attr.cells choice) := by
  rw [List.flatMap_map, RelAttr.cells, List.filter_eq_self.mpr fun p _ => hall p.1]
  refine forall₂_flatMap fun p hp => ?_
  rw [RelAttr.cellsOf, if_pos hattr]
  exact shows_wildcard hjoins hnames hp

/-- The columns of one table that a name stands for show what the name should show. -/
theorem shows_table {attr : RelAttr} {fields : List Field} {table : TableSchema}
    (h : AboutTable (choice.map Prod.fst) attr table fields) :
    Shows tuple fields (attr.cells choice) := by
  obtain ⟨hmem, hnamed, hfields⟩ := h
  obtain ⟨q, hq, rfl⟩ := List.mem_map.mp hmem
  have hfilter : (choice.filter fun p => attr.names p.1) = [q] := by
    rw [← filter_name_eq hnames hq]
    refine List.filter_congr fun p hp => ?_
    rw [hnamed p.1 (List.mem_map_of_mem hp)]
  rw [RelAttr.cells, hfilter, List.flatMap_singleton, RelAttr.cellsOf]
  rcases hfields with ⟨hattr, rfl⟩ | ⟨hattr, field, hfield, rfl⟩
  · rw [if_pos hattr]
    exact shows_wildcard hjoins hnames hq
  · rw [if_neg hattr]
    exact shows_field hjoins hnames hq hfield

/-- The columns that a name stands for show what the name should show. -/
theorem attrFields_cells {attr : RelAttr} {fields : List Field}
    (h : attrFields (choice.map Prod.fst) attr = .ok fields) :
    Shows tuple fields (attr.cells choice) := by
  rcases attrFields_inv h with ⟨hattr, hall, rfl⟩ | ⟨table, habout⟩
  · exact shows_star hjoins hnames hattr hall
  · exact shows_table hjoins hnames habout

/-- The columns of a select list. By induction on the list. -/
theorem collectFields_cells {attrs : List RelAttr} {fields : List Field}
    (h : collectFields (choice.map Prod.fst) attrs = .ok fields) :
    Shows tuple fields (selectCells attrs choice) := by
  induction attrs generalizing fields with
  | nil =>
    cases h
    exact .nil
  | cons attr attrs ih =>
    obtain ⟨first, hfirst, h⟩ := bind_inv h
    obtain ⟨rest, hrest, h⟩ := bind_inv h
    cases h
    rw [selectCells, List.flatMap_cons]
    exact List.rel_append (attrFields_cells hjoins hnames hfirst) (ih hrest)

end attrs

/-! ## The rows -/

theorem collectTables_names {db : Db} {relations : List String} {tables : List TableSchema}
    (h : collectTables db relations = .ok tables) : tables.map TableSchema.name = relations := by
  induction relations generalizing tables with
  | nil =>
    cases h
    rfl
  | cons relation relations ih =>
    rw [collectTables] at h
    split at h
    · cases h
    · rename_i table htable
      obtain ⟨rest, hrest, h⟩ := bind_inv h
      cases h
      have hname : table.name = relation := by
        simpa using List.find?_some htable
      rw [List.map_cons, ih hrest, hname]

/-- Every table of a statement gets an operator. By induction on the tables. -/
theorem createPlan_tables (contents : Contents) (tables : List TableSchema) :
    ∀ {plan : LogicalOperator}, (createPlan contents plan).isSome →
      (createPlan contents (tables.foldl joinOper plan)).isSome := by
  induction tables with
  | nil => exact fun h => h
  | cons table tables ih =>
    intro plan h
    refine ih ?_
    obtain ⟨oper, hoper⟩ := Option.isSome_iff_exists.mp h
    rw [joinOper, createPlan, hoper]
    rfl

/-- The operators of a statement without conditions hand up the joined tuples of its tables. -/
theorem createPlan_select (contents : Contents) {stmt : SelectStmt}
    (hfilter : stmt.filterStmt = []) :
    ∃ oper, createPlan contents (createSelectLogicalPlan stmt) = some oper ∧
      oper.Scans ((joinedTuples contents stmt.tables).map (Tuple.project stmt.queryFields)) := by
  obtain ⟨table, tables, htables⟩ := List.exists_cons_of_ne_nil stmt.tables_ne_nil
  have hplan : createSelectLogicalPlan stmt = .mk (.projection stmt.queryFields) []
      [tables.foldl joinOper (tableGetOper table)] := by
    rw [createSelectLogicalPlan, htables, tableOper_cons, hfilter]
    rfl
  have hsome : (createPlan contents (tables.foldl joinOper (tableGetOper table))).isSome :=
    createPlan_tables contents tables rfl
  obtain ⟨child, hchild⟩ := Option.isSome_iff_exists.mp hsome
  have hscans := createPlan_scans hchild (rows_tableOper table tables)
  refine ⟨project stmt.queryFields child, ?_, ?_⟩
  · rw [hplan, createPlan, hchild]
    rfl
  · rw [htables]
    exact project_scans hscans

/-- A row of the statement shows what the select list says of its choice. -/
theorem shownCells_choice {contents : Contents} {tables : List TableSchema} {names : List String}
    (hdistinct : names.Nodup) (hnames : tables.map TableSchema.name = names)
    {attrs : List RelAttr} {fields : List Field} (hfields : collectFields tables attrs = .ok fields)
    {tuple : Tuple} {choice : Choice} (hjoins : Joins tuple choice)
    (hmem : choice ∈ crossProduct (tables.map (TableSchema.choices contents))) :
    (Tuple.project fields tuple).shownCells = some (.ok (selectCells attrs choice)) := by
  obtain rfl := tables_of_mem hmem
  have hnodup : (choice.map fun p => p.1.name).Nodup := by
    rw [← hnames, List.map_map] at hdistinct
    exact hdistinct
  rw [Tuple.shownCells, mapM_of_shows (collectFields_cells hjoins hnodup hfields)]

/-- **Joins produce the cross product.** A statement is made of a query without conditions over
tables that are named once each. Then its operators return, with enough fuel, one row for each
choice of a record from each table. The choices come in the order of the scans, in which the last
table changes fastest, and a row shows what the select list says in written order. -/
theorem select_returns_cross_product {db : Db} {contents : Contents} {attr : RelAttr}
    {attrs : List RelAttr} {relation : String} {relations : List String} {stmt : SelectStmt}
    (hdistinct : (relation :: relations).Nodup)
    (hcreate : SelectStmt.create db (select (selectAttr attr attrs) relation relations []) =
      .ok stmt) :
    stmt.tables.map TableSchema.name = relation :: relations ∧
      ∃ oper, createPlan contents (createSelectLogicalPlan stmt) = some oper ∧
        ∃ n, ∀ fuel ≥ n, writeResult fuel oper =
          some (.success, (crossProduct (stmt.tables.map (TableSchema.choices contents))).map
            (selectCells (attr :: attrs))) := by
  obtain ⟨htables, hfields, hfilter⟩ := SelectStmt.create_eq_ok hcreate
  rw [select_relations] at htables
  have hfields' : collectFields stmt.tables (attr :: attrs) = .ok stmt.queryFields := by
    rw [← selectAttr_reverse]
    exact hfields
  have hnames := collectTables_names htables
  refine ⟨hnames, ?_⟩
  obtain ⟨oper, hplan, hscans⟩ := createPlan_select contents (Except.ok.inj hfilter).symm
  refine ⟨oper, hplan, writeResult_eq hscans ?_⟩
  rw [List.forall₂_map_left_iff, List.forall₂_map_right_iff]
  have hjoins := List.forall₂_iff_zip.mp (joins_joinedTuples contents stmt.tables_ne_nil)
  refine List.forall₂_iff_zip.mpr ⟨hjoins.1, fun {tuple choice} hmem => ?_⟩
  exact shownCells_choice hdistinct hnames hfields' (hjoins.2 hmem) (List.of_mem_zip hmem).2

/-- Two tables `a(x)` and `b(y, z)`, with records of both. -/
def joinDb : Db := ⟨[⟨"a", ["__trx", "x"]⟩, ⟨"b", ["__trx", "y", "z"]⟩]⟩

/-- A record of `joinDb`, with the number in its columns. -/
def joinRecord (slot : ℕ) (v : Int) : Record := ⟨⟨1, slot⟩, fun name =>
  if name = "z" then .ints (-v) else .ints v⟩

/-- `a` has two records, and so has `b`. -/
def joinContents : Contents := fun name =>
  if name = "a" then [joinRecord 0 1, joinRecord 1 2] else [joinRecord 0 3, joinRecord 1 4]

/-- The statement of `select b.*, a.x from a, b`. -/
def joinStmt : SelectStmt where
  tables := [⟨"a", ["__trx", "x"]⟩, ⟨"b", ["__trx", "y", "z"]⟩]
  queryFields := [⟨"b", "y"⟩, ⟨"b", "z"⟩, ⟨"a", "x"⟩]
  filterStmt := []
  tables_ne_nil := List.cons_ne_nil _ _
  known := by simp

/-- The four rows of `select b.*, a.x from a, b`. -/
theorem two_tables_joined :
    ∃ oper, createPlan joinContents (createSelectLogicalPlan joinStmt) = some oper ∧
      ∃ n, ∀ fuel ≥ n, writeResult fuel oper = some (.success,
        [[.ints 3, .ints (-3), .ints 1], [.ints 4, .ints (-4), .ints 1],
          [.ints 3, .ints (-3), .ints 2], [.ints 4, .ints (-4), .ints 2]]) :=
  (@select_returns_cross_product joinDb joinContents ⟨"b", "*"⟩ [⟨"a", "x"⟩] "a" ["b"] joinStmt
    (by decide) rfl).2

end Miniob.Sql
