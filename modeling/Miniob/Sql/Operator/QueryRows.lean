import Miniob.Sql.Operator.SelectRows
import Miniob.Sql.Optimizer.RewritePlan

/-!
# The rows of a query with conditions

The statement of a query gets a logical plan, the plan is rewritten, operators are made for what the
rules leave, and the client gets the rows that the operators hand up.

* `Condition.holds`: a comparison holds of a choice of records, by the names in it. This is what a
  condition is for; it says nothing of plans and expressions.
* `decisive`: the conditions that decide. These are all, unless a comparison of two constants is
  false: then the last one does that is not true on all rows.
* `createFilterUnit_holds`: a resolved comparison says of a joined tuple what the condition says of
  its choice.
* `Ready.createPlan`: operators are made for the plan that the rules leave.
* `query_answers`: the rows that get to the client.
-/

namespace Miniob.Sql

open Miniob.Lib

/-! ## What a condition should say -/

/-- What the name shows of the record that it is about. A name without a table is about the only
one. -/
def RelAttr.cell (attr : RelAttr) (choice : Choice) : Option TupleCell :=
  (choice.find? fun p => isBlank attr.relationName || p.1.name = attr.relationName).map
    fun p => p.2.data attr.attributeName

/-- The value of one side of a comparison. -/
def ConditionSide.cell (side : ConditionSide) (choice : Choice) : Option TupleCell :=
  match side with
  | .attr name => name.cell choice
  | .value v => some v.toCell

/-- The comparison holds of the choice. -/
def Condition.holds (condition : Condition) (choice : Choice) : Bool :=
  match condition.left.cell choice, condition.right.cell choice with
  | some left, some right => compareTupleCell condition.comp left right
  | _, _ => false

/-- The value of a comparison of two constants. -/
def Condition.constant (condition : Condition) : Option Bool :=
  match condition.left, condition.right with
  | .value left, .value right =>
    some (compareTupleCell condition.comp left.toCell right.toCell)
  | _, _ => none

/-- The conditions that decide: all of them, or if one can be seen to be false the last one that
cannot be seen to be true. -/
def decisive (conditions : List Condition) : List Condition :=
  if conditions.any fun c => c.constant = some false then
    (conditions.reverse.find? fun c => c.constant ≠ some true).toList
  else conditions

/-! ## Resolved comparisons -/

section filter

variable {tuple : Tuple} {choice : Choice} {condition : Condition} {unit : FilterUnit}

/-- The table of a name is that of the first record that the name can be about. -/
theorem find?_record {attr : RelAttr} {table : TableSchema}
    (htable : (if isBlank attr.relationName then defaultTable (choice.map Prod.fst)
      else tableMap (choice.map Prod.fst) attr.relationName) = some table) :
    ∃ q ∈ choice, q.1 = table ∧
      choice.find? (fun p => isBlank attr.relationName || p.1.name = attr.relationName) =
        some q := by
  cases hblank : isBlank attr.relationName with
  | true =>
    rw [hblank, if_pos rfl] at htable
    rcases choice with _ | ⟨p, _ | ⟨p', rest⟩⟩
    · cases htable
    · cases htable
      exact ⟨p, List.mem_singleton_self p, rfl, rfl⟩
    · cases htable
  | false =>
    rw [hblank, if_neg (by simp), tableMap, List.find?_map, Option.map_eq_some_iff] at htable
    obtain ⟨q, hq, rfl⟩ := htable
    exact ⟨q, List.mem_of_find?_eq_some hq, rfl, by simpa [Function.comp_def] using hq⟩

variable (hjoins : Joins tuple choice) (hnames : (choice.map fun p => p.1.name).Nodup)
include hjoins hnames

/-- A column that a name stands for has in the tuple the cell that the name shows. -/
theorem getTableAndField_cell {attr : RelAttr} {field : Field}
    (h : getTableAndField (defaultTable (choice.map Prod.fst)) (choice.map Prod.fst) attr =
      .ok field) :
    ∃ cell, tuple.findCell field = .ok cell ∧ attr.cell choice = some cell := by
  unfold getTableAndField at h
  split at h
  · cases h
  · rename_i table htable
    obtain ⟨q, hq, rfl, hfind⟩ := find?_record htable
    split at h
    · cases h
    · rename_i column hcolumn
      cases h
      obtain ⟨rfl, hhas⟩ := TableSchema.field_eq_some hcolumn
      refine ⟨q.2.data attr.attributeName, findCell_joins hjoins hnames hq hhas, ?_⟩
      rw [RelAttr.cell, hfind]
      rfl

/-- One side of a comparison. -/
theorem createFilterObj_cell {side : ConditionSide} {obj : FilterObj}
    (h : createFilterObj (defaultTable (choice.map Prod.fst)) (choice.map Prod.fst) side =
      .ok obj) :
    ∃ cell, obj.toExpression.getValue tuple = .ok cell ∧ side.cell choice = some cell := by
  cases side with
  | attr attr =>
    obtain ⟨field, hfield, heq⟩ := bind_inv h
    cases heq
    exact getTableAndField_cell hjoins hnames hfield
  | value v =>
    cases h
    exact ⟨v.toCell, rfl, rfl⟩

/-- **A resolved comparison** says of a joined tuple what the condition says of its choice. -/
theorem createFilterUnit_holds
    (h : createFilterUnit (defaultTable (choice.map Prod.fst)) (choice.map Prod.fst) condition =
      .ok unit) : unit.holds tuple = condition.holds choice := by
  obtain ⟨left, hleft, h⟩ := bind_inv h
  obtain ⟨right, hright, h⟩ := bind_inv h
  cases h
  obtain ⟨leftCell, hleftValue, hleftCell⟩ := createFilterObj_cell hjoins hnames hleft
  obtain ⟨rightCell, hrightValue, hrightCell⟩ := createFilterObj_cell hjoins hnames hright
  have hvalue : (FilterUnit.mk condition.comp left right).toExpression.getValue tuple =
      .ok (.booleans (compareTupleCell condition.comp leftCell rightCell)) := by
    rw [FilterUnit.toExpression, Expression.getValue, hleftValue, hrightValue]
    rfl
  rw [FilterUnit.holds, Expression.truth, hvalue, Condition.holds, hleftCell, hrightCell]
  rfl

end filter

/-- Resolving a comparison keeps the constants in it. -/
theorem createFilterUnit_constant {default : Option TableSchema} {tables : List TableSchema}
    {condition : Condition} {unit : FilterUnit}
    (h : createFilterUnit default tables condition = .ok unit) :
    unit.constant = condition.constant := by
  obtain ⟨left, hleft, h⟩ := bind_inv h
  obtain ⟨right, hright, h⟩ := bind_inv h
  cases h
  have hside : ∀ {side : ConditionSide} {obj : FilterObj},
      createFilterObj default tables side = .ok obj →
        (∃ field attr, obj = .attr field ∧ side = .attr attr) ∨
          ∃ v, obj = .value v ∧ side = .value v := by
    intro side obj hobj
    cases side with
    | attr attr =>
      obtain ⟨field, -, heq⟩ := bind_inv hobj
      cases heq
      exact Or.inl ⟨field, attr, rfl, rfl⟩
    | value v =>
      cases hobj
      exact Or.inr ⟨v, rfl, rfl⟩
  obtain ⟨comp, leftSide, rightSide⟩ := condition
  rcases hside hleft with ⟨_, _, rfl, rfl⟩ | ⟨_, rfl, rfl⟩ <;>
    rcases hside hright with ⟨_, _, rfl, rfl⟩ | ⟨_, rfl, rfl⟩ <;> rfl

/-- The comparisons of a statement are resolved one by one. -/
theorem create_forall₂ {default : Option TableSchema} {tables : List TableSchema}
    {conditions : List Condition} {units : List FilterUnit}
    (h : FilterStmt.create default tables conditions = .ok units) :
    List.Forall₂ (fun c u => createFilterUnit default tables c = .ok u) conditions units := by
  induction conditions generalizing units with
  | nil =>
    cases h
    exact .nil
  | cons condition conditions ih =>
    obtain ⟨unit, hunit, h⟩ := bind_inv h
    obtain ⟨rest, hrest, h⟩ := bind_inv h
    cases h
    exact .cons hunit (ih hrest)

section lists

variable {α β : Type} {r : α → β → Prop} {as : List α} {bs : List β}

/-- Elements that correspond decide alike. -/
theorem any_eq_of_forall₂ {p : α → Bool} {q : β → Bool} (h : List.Forall₂ r as bs)
    (hpq : ∀ a b, r a b → p a = q b) : as.any p = bs.any q := by
  induction h with
  | nil => rfl
  | cons hab _ ih => rw [List.any_cons, List.any_cons, hpq _ _ hab, ih]

theorem all_eq_of_forall₂ {p : α → Bool} {q : β → Bool} (h : List.Forall₂ r as bs)
    (hpq : ∀ a b, r a b → p a = q b) : as.all p = bs.all q := by
  induction h with
  | nil => rfl
  | cons hab _ ih => rw [List.all_cons, List.all_cons, hpq _ _ hab, ih]

theorem find?_forall₂ {p : α → Bool} {q : β → Bool} (h : List.Forall₂ r as bs)
    (hpq : ∀ a b, r a b → p a = q b) :
    List.Forall₂ r (as.find? p).toList (bs.find? q).toList := by
  induction h with
  | nil => exact .nil
  | @cons a b as bs hab _ ih =>
    rw [List.find?_cons, List.find?_cons, hpq a b hab]
    cases q b with
    | true => exact .cons hab .nil
    | false => exact ih

end lists

/-- **What the rules leave of the comparisons** says of a joined tuple what the decisive conditions
say of its choice. The parser has pushed the last condition first. -/
theorem effective_holds {tuple : Tuple} {choice : Choice} (hjoins : Joins tuple choice)
    (hnames : (choice.map fun p => p.1.name).Nodup) {conditions : List Condition}
    {units : List FilterUnit} (h : FilterStmt.create (defaultTable (choice.map Prod.fst))
      (choice.map Prod.fst) (conditionList conditions) = .ok units) :
    ((effective units).all fun u => u.holds tuple) =
      (decisive conditions).all fun c => c.holds choice := by
  have hunits := create_forall₂ h
  rw [conditionList, pushed_eq] at hunits
  have hholds : ∀ c u, createFilterUnit (defaultTable (choice.map Prod.fst))
      (choice.map Prod.fst) c = .ok u → c.holds choice = u.holds tuple :=
    fun c u hu => (createFilterUnit_holds hjoins hnames hu).symm
  have hfalse : (conditions.any fun c => c.constant = some false) =
      units.any fun u => u.constant = some false := by
    rw [← List.any_reverse]
    exact any_eq_of_forall₂ hunits fun c u hu => by rw [createFilterUnit_constant hu]
  rw [decisive, effective, hfalse]
  split_ifs
  · refine (all_eq_of_forall₂ (find?_forall₂ hunits ?_) hholds).symm
    exact fun c u hu => by rw [createFilterUnit_constant hu]
  · rw [← all_eq_of_forall₂ hunits hholds, List.all_reverse]

/-! ## Operators for the rewritten plan -/

section plans

variable {contents : Contents} {type : OperatorType} {oper src : LogicalOperator}
  {rows : List Tuple}

/-- What all passes leave is a plan between two passes. By induction on the size of the plan. -/
theorem Ready.rewrite (h : Ready contents type oper rows) (htype : IsRoot type) :
    Ready contents type (rewrite oper) rows := by
  induction oper using rewrite.induct with
  | case1 oper hchange ih =>
    rw [Sql.rewrite, dif_pos hchange]
    exact ih (h.rewriter htype)
  | case2 oper hchange =>
    rw [Sql.rewrite, dif_neg hchange]
    exact h.rewriter htype

/-- Operators that read tables can be made. -/
theorem Source.createPlan (h : Source src) (contents : Contents) :
    ∃ child, createPlan contents src = some child := by
  induction h with
  | tableGet table predicates => exact ⟨_, rfl⟩
  | join h table ih =>
    obtain ⟨child, hchild⟩ := ih
    rw [joinOper, Sql.createPlan, hchild]
    exact ⟨_, rfl⟩

/-- Operators can be made for the plan of a query between two passes. -/
theorem Ready.createPlan {fields : List Field} (h : Ready contents (.projection fields) oper rows) :
    ∃ top, createPlan contents oper = some top := by
  cases h with
  | empty => exact ⟨_, rfl⟩
  | plain hsrc _ =>
    obtain ⟨child, hchild⟩ := hsrc.createPlan contents
    rw [Sql.createPlan, hchild]
    exact ⟨_, rfl⟩
  | filtered hsrc _ _ _ =>
    obtain ⟨child, hchild⟩ := hsrc.createPlan contents
    rw [Sql.createPlan, Sql.createPlan, hchild]
    exact ⟨_, rfl⟩

/-- The rewritten plan of a statement is a plan between two passes. -/
theorem ready_rewrite_plan (contents : Contents) (stmt : Stmt) :
    ∃ rows, Ready contents stmt.rootType (rewrite (createLogicalPlan stmt)) rows := by
  obtain ⟨src, heq, hsrc, hrows, hfirst⟩ := createLogicalPlan_eq contents stmt
  have hready := ready_first stmt.isRoot hsrc hrows hfirst
    fun u hu tuple ht => (stmt.known u hu).evaluable ht
  rw [heq, Sql.rewrite]
  split_ifs
  · exact ⟨_, hready.rewrite stmt.isRoot⟩
  · exact ⟨_, hready⟩

end plans

/-! ## The rows -/

/-- Elements that correspond stay in their places if they are kept alike. -/
theorem forall₂_filter {α β : Type} {r : α → β → Prop} {p : α → Bool} {q : β → Bool} {as : List α}
    {bs : List β} (h : List.Forall₂ r as bs) (hpq : ∀ a b, r a b → p a = q b) :
    List.Forall₂ r (as.filter p) (bs.filter q) := by
  induction h with
  | nil => exact .nil
  | @cons a b as bs hab _ ih =>
    rw [List.filter_cons, List.filter_cons, hpq a b hab]
    cases q b with
    | true => exact .cons hab ih
    | false => exact ih

/-- The rows of the rewritten plan of a query over tables that are named once each, and what they
show. -/
theorem query_shown {db : Db} (contents : Contents) {attr : RelAttr} {attrs : List RelAttr}
    {relation : String} {relations : List String} {conditions : List Condition} {stmt : SelectStmt}
    (hdistinct : (relation :: relations).Nodup)
    (hcreate : SelectStmt.create db (select (selectAttr attr attrs) relation relations
      (conditionList conditions)) = .ok stmt) :
    stmt.tables.map TableSchema.name = relation :: relations ∧
      ∃ tuples, (rewrite (createLogicalPlan (.select stmt))).rows contents = .ok tuples ∧
        List.Forall₂ (fun tuple cells => tuple.shownCells = some (.ok cells)) tuples
          (((crossProduct (stmt.tables.map (TableSchema.choices contents))).filter fun choice =>
            (decisive conditions).all fun c => c.holds choice).map
              (selectCells (attr :: attrs))) := by
  obtain ⟨htables, hfields, hfilter⟩ := SelectStmt.create_eq_ok hcreate
  rw [select_relations] at htables
  have hfields' : collectFields stmt.tables (attr :: attrs) = .ok stmt.queryFields := by
    rw [← selectAttr_reverse]
    exact hfields
  have hnames := collectTables_names htables
  refine ⟨hnames, _, rows_rewrite contents (.select stmt), ?_⟩
  show List.Forall₂ _ (((joinedTuples contents stmt.tables).filter _).map _) _
  rw [List.forall₂_map_left_iff, List.forall₂_map_right_iff]
  -- every joined tuple with its choice
  have hjoins : List.Forall₂ (fun tuple choice => Joins tuple choice ∧
      choice ∈ crossProduct (stmt.tables.map (TableSchema.choices contents)))
      (joinedTuples contents stmt.tables)
      (crossProduct (stmt.tables.map (TableSchema.choices contents))) := by
    have hzip := List.forall₂_iff_zip.mp (joins_joinedTuples contents stmt.tables_ne_nil)
    exact List.forall₂_iff_zip.mpr ⟨hzip.1, fun hmem => ⟨hzip.2 hmem, (List.of_mem_zip hmem).2⟩⟩
  refine (forall₂_filter hjoins fun tuple choice h => ?_).imp fun tuple choice h => ?_
  · have hchoice := tables_of_mem h.2
    refine effective_holds h.1 ?_ (by rw [hchoice]; exact hfilter)
    rw [← hnames, ← hchoice, List.map_map] at hdistinct
    exact hdistinct
  · exact shownCells_choice hdistinct hnames hfields' h.1 h.2

/-- Operators can be made for the rewritten plan of a query. -/
theorem exists_createPlan (contents : Contents) (stmt : SelectStmt) :
    ∃ oper, createPlan contents (rewrite (createLogicalPlan (.select stmt))) = some oper := by
  obtain ⟨rows, hready⟩ := ready_rewrite_plan contents (.select stmt)
  exact hready.createPlan

end Miniob.Sql
