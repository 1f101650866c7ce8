import Miniob.Sql.Operator.LogicalOperator

/-!
# Physical operators

A physical operator is an object that is opened, asked for one tuple after the other until there
are no more, and closed. Its children are such objects.

* `PhysicalOperator`: the object, with the data that its functions change.
* `tableScan`, `predicateOper`, `nestedLoopJoin`, `project`: the operators of a query over tables
  that are read by a table scan.
* `createPlan`: the operators for a logical plan. The join opens its right child anew for every
  tuple of its left child.
* `writeResult`: the rows that get to the client.

The records of a table do not change while they are read. The loop of a predicate operator has
fuel, which all calls below it share.
-/

namespace Miniob.Sql


/-! ## Objects -/

/-- Source: `physical_operator.h`, `class PhysicalOperator` -/
structure PhysicalOperator where
  /-- The data members of the object and its children. -/
  State : Type
  /-- A new object. -/
  init : State
  /-- `open` -/
  openOper : State → RC × State
  /-- `next`, with fuel for its loops. -/
  next : ℕ → State → Option (RC × State)
  /-- `close` -/
  close : State → RC × State
  /-- `current_tuple`, once there is one. -/
  currentTuple : State → Option Tuple

/-! ## Reading a table -/

/-- Source: `table_scan_physical_operator.h`, `class TableScanPhysicalOperator` -/
structure TableScanState where
  /-- The records that `record_scanner_` has not returned. -/
  recordScanner : List Record
  /-- `current_record_` -/
  currentRecord : Option Record

/-- The loop over the records up to one that the conditions hold of.
Source: `table_scan_physical_operator.cpp`, `TableScanPhysicalOperator::next` -/
def scanNext (table : TableSchema) (predicates : List Expression) :
    List Record → Option Record → RC × TableScanState
  | [], currentRecord => (.recordEof, ⟨[], currentRecord⟩)
  | record :: records, _ =>
    match filterScan (.row table record) predicates with
    | .error rc => (rc, ⟨records, some record⟩)
    | .ok true => (.success, ⟨records, some record⟩)
    | .ok false => scanNext table predicates records (some record)

/-- Source: `table_scan_physical_operator.cpp`, `TableScanPhysicalOperator::open`,
`TableScanPhysicalOperator::close`, `TableScanPhysicalOperator::current_tuple` -/
def tableScan (contents : Contents) (table : TableSchema) (predicates : List Expression) :
    PhysicalOperator where
  State := TableScanState
  init := ⟨[], none⟩
  openOper s := (.success, { s with recordScanner := contents table.name })
  next _ s := some (scanNext table predicates s.recordScanner s.currentRecord)
  close s := (.success, s)
  currentTuple s := s.currentRecord.map (.row table)

/-! ## Filtering -/

/-- The loop over the tuples of the child up to one that the condition holds of.
Source: `predicate_physical_operator.cpp`, `PredicatePhysicalOperator::next` -/
def predicateNext (child : PhysicalOperator) (expression : Expression) (fuel : ℕ) :
    ℕ → child.State → Option (RC × child.State)
  | 0, _ => none
  | n + 1, s => do
    let (rc, s) ← child.next fuel s
    if rc ≠ .success then return (rc, s)
    match child.currentTuple s with
    | none => return (.internal, s)
    | some tuple =>
      match expression.getValue tuple with
      | .error rc => return (rc, s)
      | .ok cell =>
        if cell.getBoolean then return (rc, s) else predicateNext child expression fuel n s

/-- Source: `predicate_physical_operator.cpp`, `PredicatePhysicalOperator::open`,
`PredicatePhysicalOperator::close`, `PredicatePhysicalOperator::current_tuple` -/
def predicateOper (expression : Expression) (child : PhysicalOperator) : PhysicalOperator where
  State := child.State
  init := child.init
  openOper := child.openOper
  next fuel := predicateNext child expression fuel fuel
  close s := (.success, (child.close s).2)
  currentTuple := child.currentTuple

/-! ## Joining -/

/-- Source: `join_physical_operator.h`, `class NestedLoopJoinPhysicalOperator` -/
structure JoinState (L R : Type) where
  /-- `left_` -/
  left : L
  /-- `right_` -/
  right : R
  /-- `joined_tuple_` has got the tuple of the left side. -/
  hasLeft : Bool
  /-- `joined_tuple_` has got the tuple of the right side. -/
  hasRight : Bool
  /-- `round_done_` -/
  roundDone : Bool
  /-- `right_closed_` -/
  rightClosed : Bool

section join

variable (left right : PhysicalOperator)

/-- Source: `join_physical_operator.cpp`, `NestedLoopJoinPhysicalOperator::left_next` -/
def leftNext (fuel : ℕ) (s : JoinState left.State right.State) :
    Option (RC × JoinState left.State right.State) := do
  let (rc, l) ← left.next fuel s.left
  if rc ≠ .success then return (rc, { s with left := l })
  return (rc, { s with left := l, hasLeft := true })

/-- Close the right side if it is open.
Source: `join_physical_operator.cpp`, `NestedLoopJoinPhysicalOperator::right_next` -/
def closeRight (s : JoinState left.State right.State) :
    RC × JoinState left.State right.State :=
  if s.rightClosed then (.success, s)
  else
    let (rc, r) := right.close s.right
    (rc, { s with right := r, rightClosed := true })

/-- Begin a round over the right side.
Source: `join_physical_operator.cpp`, `NestedLoopJoinPhysicalOperator::right_next` -/
def beginRound (s : JoinState left.State right.State) :
    RC × JoinState left.State right.State :=
  let (rc, s) := closeRight left right s
  if rc ≠ .success then (rc, s)
  else
    let (rc, r) := right.openOper s.right
    if rc ≠ .success then (rc, { s with right := r })
    else (rc, { s with right := r, rightClosed := false, roundDone := false })

/-- Source: `join_physical_operator.cpp`, `NestedLoopJoinPhysicalOperator::right_next` -/
def rightNext (fuel : ℕ) (s : JoinState left.State right.State) :
    Option (RC × JoinState left.State right.State) := do
  let (rc, s) := if s.roundDone then beginRound left right s else (.success, s)
  if rc ≠ .success then return (rc, s)
  let (rc, r) ← right.next fuel s.right
  if rc = .recordEof then return (rc, { s with right := r, roundDone := true })
  if rc ≠ .success then return (rc, { s with right := r })
  return (rc, { s with right := r, hasRight := true })

/-- The next tuple of the left side, and the first one of the right side.
Source: `join_physical_operator.cpp`, `NestedLoopJoinPhysicalOperator::next` -/
def stepLeft (fuel : ℕ) (s : JoinState left.State right.State) :
    Option (RC × JoinState left.State right.State) := do
  let (rc, s) ← leftNext left right fuel s
  if rc ≠ .success then return (rc, s)
  rightNext left right fuel s

/-- `left_need_step` is set whenever the right side has no more tuples, so that what it is at first
does not matter. Source: `join_physical_operator.cpp`, `NestedLoopJoinPhysicalOperator::next` -/
def joinNext (fuel : ℕ) (s : JoinState left.State right.State) :
    Option (RC × JoinState left.State right.State) := do
  if s.roundDone then stepLeft left right fuel s
  else
    let (rc, s) ← rightNext left right fuel s
    if rc = .recordEof then stepLeft left right fuel s else return (rc, s)

/-- The sides are closed one after the other. -/
def joinClose (s : JoinState left.State right.State) : RC × JoinState left.State right.State :=
  let (rc, l) := left.close s.left
  let s := { s with left := l }
  if s.rightClosed then (rc, s)
  else
    let (rc, r) := right.close s.right
    (rc, { s with right := r, rightClosed := rc = .success })

/-- Source: `join_physical_operator.cpp`, `NestedLoopJoinPhysicalOperator::open`,
`NestedLoopJoinPhysicalOperator::close`, `NestedLoopJoinPhysicalOperator::current_tuple` -/
def nestedLoopJoin : PhysicalOperator where
  State := JoinState left.State right.State
  init := ⟨left.init, right.init, false, false, true, true⟩
  openOper s :=
    let (rc, l) := left.openOper s.left
    (rc, { s with left := l, rightClosed := true, roundDone := true })
  next := joinNext left right
  close := joinClose left right
  currentTuple s :=
    if s.hasLeft ∧ s.hasRight then do
      return .joined (← left.currentTuple s.left) (← right.currentTuple s.right)
    else none

end join

/-! ## Projecting -/

/-- Source: `project_physical_operator.cpp`, `ProjectPhysicalOperator::open`,
`ProjectPhysicalOperator::next`, `ProjectPhysicalOperator::close`,
`ProjectPhysicalOperator::current_tuple` -/
def project (speces : List Field) (child : PhysicalOperator) : PhysicalOperator where
  State := child.State
  init := child.init
  openOper := child.openOper
  next := child.next
  close s := (.success, (child.close s).2)
  currentTuple s := (child.currentTuple s).map (.project speces)

/-- A projection without a child. -/
def projectNothing : PhysicalOperator where
  State := Unit
  init := ()
  openOper s := (.success, s)
  next _ s := some (.recordEof, s)
  close s := (.success, s)
  currentTuple _ := none

/-! ## Plans -/

/-- The operators of a plan. No operator is made for a plan that is not a query, or whose operators
have not as many children or expressions as they should have.
Source: `physical_plan_generator.cpp`, `PhysicalPlanGenerator::create_plan` -/
def createPlan (contents : Contents) : LogicalOperator → Option PhysicalOperator
  | .mk (.tableGet table predicates) _ _ => some (tableScan contents table predicates)
  | .mk .predicate [e] [child] => (createPlan contents child).map (predicateOper e)
  | .mk (.projection _) _ [] => some projectNothing
  | .mk (.projection fields) _ (child :: _) => (createPlan contents child).map (project fields)
  | .mk .join _ [left, right] =>
    (createPlan contents left).bind fun left =>
      (createPlan contents right).map (nestedLoopJoin left)
  | _ => none

/-- The cells of a tuple of a projection, which is what a client gets to see.
Source: `tuple.h`, `ProjectTuple::cell_num`, `ProjectTuple::cell_at` -/
def Tuple.shownCells : Tuple → Option (Except RC (List TupleCell))
  | project speces tuple => some (speces.mapM fun field => tuple.findCell field)
  | _ => none

/-- The loop over the rows of the result.
Source: `communicator.cpp`, `PlainCommunicator::write_result` -/
def writeRows (oper : PhysicalOperator) (fuel : ℕ) :
    ℕ → oper.State → Option (RC × List (List TupleCell))
  | 0, _ => none
  | n + 1, s => do
    let (rc, s) ← oper.next fuel s
    if rc = .recordEof then return (.success, [])
    if rc ≠ .success then return (rc, [])
    let tuple ← oper.currentTuple s
    match ← tuple.shownCells with
    | .error rc => return (rc, [])
    | .ok cells =>
      let (rc, rows) ← writeRows oper fuel n s
      return (rc, cells :: rows)

/-- The rows of a new operator.
Source: `communicator.cpp`, `PlainCommunicator::write_result` -/
def writeResult (fuel : ℕ) (oper : PhysicalOperator) : Option (RC × List (List TupleCell)) :=
  let (rc, s) := oper.openOper oper.init
  if rc ≠ .success then some (rc, []) else writeRows oper fuel fuel s

end Miniob.Sql
