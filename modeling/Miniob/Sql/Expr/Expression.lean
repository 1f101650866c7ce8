import Miniob.Sql.Expr.TupleCell

/-!
# Expressions

An expression gets its value from a tuple: a row of a table, two joined tuples, or a tuple under a
projection.

* `Tuple.findCell`: the cell of a column.
* `Expression.getValue`: the value of an expression.
* `Evaluable`, `truth`: an expression that has a value, and that value as a condition.

The type of an expression is the type of its value.
-/

namespace Miniob.Sql


/-! ## Tuples -/

/-- A table of the catalogue: its name and the names of its columns. -/
structure TableSchema where
  /-- `name` -/
  name : String
  /-- The names of `field_metas`. -/
  fieldMetas : List String
  deriving DecidableEq

/-- A column of a table. Source: `field.h`, `class Field` -/
structure Field where
  /-- The name of the table. -/
  tableName : String
  /-- The name of the column. -/
  fieldName : String
  deriving DecidableEq

/-- A record of a table. Source: `record.h`, `class Record` -/
structure Record where
  /-- `rid` -/
  rid : RID
  /-- The bytes of a column, as a cell of its type. -/
  data : String → TupleCell

/-- Source: `tuple.h`, `RowTuple`, `JoinedTuple`, `ProjectTuple` -/
inductive Tuple
  /-- A record of a table. -/
  | row (table : TableSchema) (record : Record)
  /-- A tuple of the left side of a join and one of the right side. -/
  | joined (left right : Tuple)
  /-- A tuple of which these columns are shown. -/
  | project (speces : List Field) (tuple : Tuple)

/-- The cell of a column. A joined tuple looks into its left tuple first.
Source: `tuple.h`, `RowTuple::find_cell`, `JoinedTuple::find_cell`, `ProjectTuple::find_cell` -/
def Tuple.findCell (field : Field) : Tuple → Except RC TupleCell
  | row table record =>
    if field.tableName = table.name ∧ field.fieldName ∈ table.fieldMetas then
      .ok (record.data field.fieldName)
    else .error .notfound
  | joined left right =>
    match left.findCell field with
    | .error .notfound => right.findCell field
    | found => found
  | project _ tuple => tuple.findCell field

/-- The column is one of the tuple. -/
def Tuple.Has (tuple : Tuple) (field : Field) : Prop := ∃ cell, tuple.findCell field = .ok cell

/-- No call fails in another way. -/
theorem Tuple.findCell_of_not_has {tuple : Tuple} {field : Field} (h : ¬ tuple.Has field) :
    tuple.findCell field = .error .notfound := by
  induction tuple with
  | row table record =>
    unfold Has at h
    rw [findCell] at h ⊢
    split
    · rename_i hin
      rw [if_pos hin] at h
      exact absurd ⟨_, rfl⟩ h
    · rfl
  | joined left right ihl ihr =>
    have hleft : left.findCell field = .error .notfound := by
      apply ihl
      rintro ⟨cell, hcell⟩
      exact h ⟨cell, by simp [findCell, hcell]⟩
    have hright : right.findCell field = .error .notfound := by
      apply ihr
      rintro ⟨cell, hcell⟩
      exact h ⟨cell, by simp [findCell, hleft, hcell]⟩
    simp [findCell, hleft, hright]
  | project speces tuple ih => exact ih h

/-- A joined tuple has the columns of both sides. -/
theorem Tuple.has_joined {left right : Tuple} {field : Field} :
    (joined left right).Has field ↔ left.Has field ∨ right.Has field := by
  by_cases hleft : left.Has field
  · obtain ⟨cell, hcell⟩ := hleft
    refine iff_of_true ⟨cell, ?_⟩ (Or.inl ⟨cell, hcell⟩)
    simp [findCell, hcell]
  · have hfind := findCell_of_not_has hleft
    simp only [Has, findCell, hfind] at hleft ⊢
    simp

/-! ## Values -/

/-- Source: `expression.h`, `ConjunctionExpr::Type` -/
inductive ConjunctionType
  | and
  | or
  deriving DecidableEq

/-- Source: `expression.h`, `FieldExpr`, `ValueExpr`, `CastExpr`, `ComparisonExpr`,
`ConjunctionExpr` -/
inductive Expression
  /-- The value of a column. -/
  | field (field : Field)
  /-- A constant. -/
  | value (tupleCell : TupleCell)
  /-- A value as one of a type. -/
  | cast (castType : CellType) (child : Expression)
  /-- A comparison of two values. -/
  | comparison (comp : CompOp) (left right : Expression)
  /-- Conditions that have to hold all, or one of which has to hold. -/
  | conjunction (conjunctionType : ConjunctionType) (children : List Expression)

mutual

/-- A conjunction without children holds, whatever its type.
Source: `expression.cpp`, `FieldExpr::get_value`, `ValueExpr::get_value`, `CastExpr::get_value`,
`ComparisonExpr::get_value`, `ConjunctionExpr::get_value` -/
def Expression.getValue (tuple : Tuple) : Expression → Except RC TupleCell
  | .field field => tuple.findCell field
  | .value tupleCell => .ok tupleCell
  | .cast castType child => do
    let cell ← child.getValue tuple
    if cell.attrType = castType then return cell
    else if castType = .booleans then return .booleans cell.getBoolean
    else .error .internal
  | .comparison comp left right => do
    let leftCell ← left.getValue tuple
    let rightCell ← right.getValue tuple
    return .booleans (compareTupleCell comp leftCell rightCell)
  | .conjunction _ [] => .ok (.booleans true)
  | .conjunction type (child :: children) => getChildren tuple type (child :: children)

/-- The loop over the children of a conjunction, which ends at the first child that decides it. -/
def getChildren (tuple : Tuple) (type : ConjunctionType) : List Expression → Except RC TupleCell
  | [] => .ok (.booleans (type = .and))
  | child :: children => do
    let tmpCell ← child.getValue tuple
    let value := tmpCell.getBoolean
    if type = .and ∧ !value ∨ type = .or ∧ value then
      return .booleans value
    else getChildren tuple type children

end

namespace Expression

variable {tuple : Tuple} {e : Expression}

/-- The value of a comparison of two constants.
Source: `expression.cpp`, `ComparisonExpr::try_get_value` -/
def tryGetValue (comp : CompOp) (left right : Expression) : Option TupleCell :=
  match left, right with
  | value leftCell, value rightCell => some (.booleans (compareTupleCell comp leftCell rightCell))
  | _, _ => none

/-- The expression has a value on the tuple. -/
def Evaluable (tuple : Tuple) (e : Expression) : Prop := ∃ cell, e.getValue tuple = .ok cell

/-- The condition holds of the tuple. -/
def truth (tuple : Tuple) (e : Expression) : Bool :=
  match e.getValue tuple with
  | .ok cell => cell.getBoolean
  | .error _ => false

theorem getValue_bind {α : Type} (h : e.Evaluable tuple) (f : Bool → α) :
    (do let cell ← e.getValue tuple; return f cell.getBoolean : Except RC α) =
      .ok (f (e.truth tuple)) := by
  obtain ⟨cell, hcell⟩ := h
  simp only [truth, hcell]
  rfl

theorem evaluable_value (cell : TupleCell) : (value cell).Evaluable tuple := ⟨cell, rfl⟩

@[simp] theorem truth_value (cell : TupleCell) : (value cell).truth tuple = cell.getBoolean := rfl

/-- A comparison has a value if both sides have one. -/
theorem evaluable_comparison {comp : CompOp} {left right : Expression}
    (hleft : left.Evaluable tuple) (hright : right.Evaluable tuple) :
    (comparison comp left right).Evaluable tuple := by
  obtain ⟨leftCell, hleft⟩ := hleft
  obtain ⟨rightCell, hright⟩ := hright
  refine ⟨.booleans (compareTupleCell comp leftCell rightCell), ?_⟩
  rw [getValue, hleft, hright]
  rfl

/-- A comparison of two constants has its value on every tuple. -/
theorem getValue_of_tryGetValue {comp : CompOp} {left right : Expression} {cell : TupleCell}
    (h : tryGetValue comp left right = some cell) :
    (comparison comp left right).getValue tuple = .ok cell := by
  unfold tryGetValue at h
  split at h
  · cases h
    rfl
  · cases h

/-- Conditions that have to hold all. By induction on the list. -/
theorem getChildren_and {children : List Expression} (h : ∀ c ∈ children, c.Evaluable tuple) :
    getChildren tuple .and children = .ok (.booleans (children.all fun c => c.truth tuple)) := by
  induction children with
  | nil => rfl
  | cons c children ih =>
    obtain ⟨cell, hcell⟩ := h c List.mem_cons_self
    have htruth : c.truth tuple = cell.getBoolean := by
      simp only [truth, hcell]
    rw [getChildren, hcell, List.all_cons, htruth]
    cases hcond : cell.getBoolean with
    | false => simp [bind, Except.bind, pure, Except.pure, hcond]
    | true =>
      rw [Bool.true_and, ← ih fun c hc => h c (List.mem_cons_of_mem _ hc)]
      simp [bind, Except.bind, hcond]

theorem getValue_and {children : List Expression} (h : ∀ c ∈ children, c.Evaluable tuple) :
    (conjunction .and children).getValue tuple =
      .ok (.booleans (children.all fun c => c.truth tuple)) := by
  cases children with
  | nil => rfl
  | cons c children => exact getChildren_and h

theorem evaluable_and {children : List Expression} (h : ∀ c ∈ children, c.Evaluable tuple) :
    (conjunction .and children).Evaluable tuple := ⟨_, getValue_and h⟩

theorem truth_and {children : List Expression} (h : ∀ c ∈ children, c.Evaluable tuple) :
    (conjunction .and children).truth tuple = children.all fun c => c.truth tuple := by
  rw [truth, getValue_and h]
  rfl

end Expression

end Miniob.Sql
