import Miniob.Sql.Optimizer.Conditions

/-!
# Rewriting a plan

The plan of a statement reads some tables, filters the rows by the comparisons of the statement and
hands them to a projection or a deletion. The rules keep its rows, but for what they make of a
condition with a false comparison of constants.

* `Ready`: the plans between two passes. A pass keeps their rows (`Ready.rewriter`), and so do all
  passes (`Ready.rows_rewrite`).
* `rows_rewrite`: the rows of the rewritten plan of a statement.
* `rewrite_preserves_iff`: they are those of the plan if and only if no row satisfies a comparison
  that takes the place of a false condition.
-/

namespace Miniob.Sql


/-! ## Plans -/

/-- An operator that reads tables. -/
inductive Source : LogicalOperator → Prop
  | tableGet (table : TableSchema) (predicates : List Expression) :
      Source (.mk (.tableGet table predicates) [] [])
  | join {oper : LogicalOperator} (h : Source oper) (table : TableSchema) :
      Source (joinOper oper table)

section plans

variable {contents : Contents} {type : OperatorType} {tuples rows : List Tuple}
  {src oper : LogicalOperator} {e : Expression}

/-- No rule changes an operator that reads tables. -/
theorem Source.expressionRewriter_eq (h : Source src) : expressionRewriter src = (src, false) := by
  induction h with
  | tableGet table predicates => rfl
  | join h table ih =>
    simp [joinOper, tableGetOper, expressionRewriter, expressionRewriterAll, ih]

theorem Source.applyRules_eq (h : Source src) : applyRules src = (src, false) := by
  have hrules := h.expressionRewriter_eq
  cases h with
  | tableGet table predicates => rfl
  | @join oper h table =>
    -- there are two operators below
    have hpredicate : predicateRewrite (joinOper oper table) = (joinOper oper table, false) := by
      unfold predicateRewrite joinOper
      split
      · rename_i heq
        cases heq
      · rfl
    simp only [applyRules, hrules, hpredicate]
    rfl

theorem Source.rewriter_eq (h : Source src) : rewriter src = (src, false) := by
  induction h with
  | tableGet table predicates => rw [Sql.rewriter_eq (Source.tableGet _ _).applyRules_eq]; rfl
  | @join oper h table ih =>
    have htable : rewriter (tableGetOper table) = (tableGetOper table, false) := by
      rw [tableGetOper, Sql.rewriter_eq (Source.tableGet _ _).applyRules_eq]
      rfl
    rw [Sql.rewriter_eq (Source.join h table).applyRules_eq]
    simp [joinOper, ih, htable]

/-- The operator on top of a plan. -/
inductive IsRoot : OperatorType → Prop
  | projection (fields : List Field) : IsRoot (.projection fields)
  | delete : IsRoot .delete

/-- What the operator on top hands up. -/
def shown : OperatorType → List Tuple → List Tuple
  | .projection fields, tuples => tuples.map (Tuple.project fields)
  | _, tuples => tuples

/-- The operator below a condition is not the scan of a table that the condition has something
for. -/
def NothingLeft (src : LogicalOperator) (e : Expression) : Prop :=
  ∀ table predicates, src = .mk (.tableGet table predicates) [] [] →
    (getExprsCanPushdown e).2 = []

/-- The plans between two passes, with the rows that they filter out of those of the tables. -/
inductive Ready (contents : Contents) (type : OperatorType) : LogicalOperator → List Tuple → Prop
  /-- Everything below has been taken out. -/
  | empty : Ready contents type (.mk type [] []) []
  /-- There is no condition. -/
  | plain {src : LogicalOperator} {tuples : List Tuple} (hsrc : Source src)
      (hrows : src.rows contents = .ok tuples) : Ready contents type (.mk type [] [src]) tuples
  /-- The rows are filtered. -/
  | filtered {src : LogicalOperator} {tuples : List Tuple} {e : Expression} (hsrc : Source src)
      (hrows : src.rows contents = .ok tuples) (hsettled : Settled tuples e)
      (hnothing : NothingLeft src e) :
      Ready contents type (.mk type [] [.mk .predicate [e] [src]])
        (tuples.filter fun t => e.truth t)

theorem rows_predicate (hrows : src.rows contents = .ok tuples)
    (heval : ∀ tuple ∈ tuples, e.Evaluable tuple) :
    (LogicalOperator.mk .predicate [e] [src]).rows contents =
      .ok (tuples.filter fun t => e.truth t) := by
  show (do filterRows e.holds (← src.rows contents)) = _
  rw [hrows]
  exact filterRows_eq fun tuple ht => holds_eq (heval tuple ht)

theorem rows_root (htype : IsRoot type) (hrows : oper.rows contents = .ok tuples) :
    (LogicalOperator.mk type [] [oper]).rows contents = .ok (shown type tuples) := by
  cases htype with
  | projection fields =>
    show (do return (← oper.rows contents).map (Tuple.project fields)) = _
    rw [hrows]
    rfl
  | delete => exact hrows

/-- The rows of a plan between two passes. -/
theorem Ready.rows_eq (h : Ready contents type oper rows) (htype : IsRoot type) :
    oper.rows contents = .ok (shown type rows) := by
  cases h with
  | empty => cases htype <;> rfl
  | plain hsrc hrows => exact rows_root htype hrows
  | filtered hsrc hrows hsettled _ =>
    exact rows_root htype (rows_predicate hrows fun tuple ht => hsettled.evaluable ht)

/-- The rules on an operator whose child neither is a predicate operator nor reads one table. -/
theorem applyRules_predicate_join {table : TableSchema} (hsrc : Source oper) :
    (applyRules (.mk .predicate [e] [joinOper oper table])).1 =
      .mk .predicate [(rewriteExpression e).1] [joinOper oper table] := by
  have hchild := (Source.join hsrc table).expressionRewriter_eq
  have hexpressions : (expressionRewriter (.mk .predicate [e] [joinOper oper table])).1 =
      .mk .predicate [(rewriteExpression e).1] [joinOper oper table] := by
    simp [expressionRewriter, expressionRewriterAll, hchild]
  simp only [applyRules, hexpressions]
  rfl

theorem applyRules_predicate_tableGet {table : TableSchema} {predicates : List Expression} :
    (applyRules (.mk .predicate [e] [.mk (.tableGet table predicates) [] []])).1 =
      .mk .predicate [(rewriteExpression e).1.remaining] [.mk (.tableGet table
        (if (getExprsCanPushdown (rewriteExpression e).1).2 = [] then predicates
          else (getExprsCanPushdown (rewriteExpression e).1).2)) [] []] := by
  have hrules : (applyRules (.mk .predicate [e] [.mk (.tableGet table predicates) [] []])).1 =
      (predicatePushdown (.mk .predicate [(rewriteExpression e).1]
        [.mk (.tableGet table predicates) [] []])).1 := rfl
  rw [hrules, predicatePushdown]
  split_ifs <;> rfl

/-- A pass over a predicate operator whose condition is settled by the rules for expressions. -/
theorem rewriter_predicate (hsrc : Source src) (hrows : src.rows contents = .ok tuples)
    (hsettled : Settled tuples (rewriteExpression e).1)
    (hfirst : ∀ table predicates, src = .mk (.tableGet table predicates) [] [] →
      predicates = [] ∨ (getExprsCanPushdown (rewriteExpression e).1).2 = []) :
    ∃ e' src' tuples', (rewriter (.mk .predicate [e] [src])).1 = .mk .predicate [e'] [src'] ∧
      Source src' ∧ src'.rows contents = .ok tuples' ∧ Settled tuples' e' ∧ NothingLeft src' e' ∧
      (tuples'.filter fun t => e'.truth t) =
        tuples.filter fun t => (rewriteExpression e).1.truth t := by
  have hpass : ∀ e' src', (applyRules (.mk .predicate [e] [src])).1 = .mk .predicate [e'] [src'] →
      Source src' → (rewriter (.mk .predicate [e] [src])).1 = .mk .predicate [e'] [src'] := by
    intro e' src' hrules hsrc'
    rw [rewriter_eq (Prod.ext hrules rfl)]
    simp [hsrc'.rewriter_eq]
  cases hsrc with
  | @join oper h table =>
    refine ⟨_, _, tuples, hpass _ _ (applyRules_predicate_join h) (.join h table), .join h table,
      hrows, hsettled, ?_, rfl⟩
    intro table' predicates heq
    cases heq
  | tableGet table predicates =>
    obtain ⟨hremaining, heval, htruth, hnothing⟩ := hsettled.pushdown
    have hrewrite := hpass _ _ applyRules_predicate_tableGet (.tableGet _ _)
    by_cases hnil : (getExprsCanPushdown (rewriteExpression e).1).2 = []
    · rw [if_pos hnil] at hrewrite
      refine ⟨_, _, tuples, hrewrite, .tableGet _ _, hrows, hremaining, fun _ _ _ => hnothing, ?_⟩
      refine List.filter_congr fun tuple ht => ?_
      rw [htruth tuple ht, hnil, List.all_nil, Bool.true_and]
    · -- the scan had no conditions before
      obtain rfl : predicates = [] := (hfirst table predicates rfl).resolve_right hnil
      have hall : (tableGetOper table).rows contents = .ok tuples := hrows
      rw [rows_tableGetOper] at hall
      cases hall
      rw [if_neg hnil] at hrewrite
      refine ⟨_, _, _, hrewrite, .tableGet _ _,
        rows_tableGet fun tuple ht p hp => heval p hp tuple ht,
        hremaining.mono fun tuple ht => (List.mem_filter.mp ht).1, fun _ _ _ => hnothing, ?_⟩
      rw [List.filter_filter]
      refine List.filter_congr fun tuple ht => ?_
      rw [htruth tuple ht, Bool.and_comm]

/-- The rules on the operator on top, above a condition. -/
theorem applyRules_root (htype : IsRoot type) (hsrc : Source src) :
    (applyRules (.mk type [] [.mk .predicate [e] [src]])).1 =
      match (rewriteExpression e).1 with
      | .value cell => .mk type [] (if cell.getBoolean then [src] else [])
      | e' => .mk type [] [.mk .predicate [e'] [src]] := by
  have hexpressions : (expressionRewriter (.mk type [] [.mk .predicate [e] [src]])).1 =
      .mk type [] [.mk .predicate [(rewriteExpression e).1] [src]] := by
    simp [expressionRewriter, expressionRewriterAll, hsrc.expressionRewriter_eq]
  simp only [applyRules, hexpressions]
  cases (rewriteExpression e).1 with
  | value cell =>
    simp only [predicateRewrite]
    cases htype <;> cases cell.getBoolean <;> rfl
  | field => cases htype <;> rfl
  | cast => cases htype <;> rfl
  | comparison => cases htype <;> rfl
  | conjunction => cases htype <;> rfl

/-- What is left for a scan does not come back. -/
theorem Settled.nothing_left (h : Settled tuples e) (hnothing : (getExprsCanPushdown e).2 = []) :
    (getExprsCanPushdown (Sql.rewriteExpression e).1).2 = [] := by
  cases h with
  | constant value =>
    have hself : Sql.rewriteExpression (.value (.booleans value)) =
        (.value (.booleans value), false) :=
      rewriteExpression_toExpression (.value (.booleans value))
    rw [hself]
    rfl
  | @single unit hopen =>
    rw [FilterUnit.rewriteExpression_eq, simplified_of_open hopen]
    exact hnothing
  | @all units hopen =>
    match units, hopen, hnothing with
    | [], _, _ =>
      rw [rewriteExpression_conjunction (simplify_units [])]
      rfl
    | [unit], _, hnothing =>
      rw [rewriteExpression_of_changed (by rw [simplify_units]), simplify_units]
      rw [getExprsCanPushdown, getChildrenCanPushdown_units] at hnothing
      cases hpushed : unit.pushed with
      | true => simp [hpushed] at hnothing
      | false =>
        have hcan : canPushdown unit.comp unit.left.toExpression unit.right.toExpression = false :=
          hpushed
        simp [FilterUnit.toExpression, getExprsCanPushdown, hcan]
    | unit :: unit' :: units, hopen, hnothing =>
      have hsame : (unit :: unit' :: units).map FilterUnit.simplified =
          (unit :: unit' :: units).map FilterUnit.toExpression :=
        List.map_congr_left fun u hu => simplified_of_open (hopen u hu)
      rw [rewriteExpression_units, hsame]
      exact hnothing

/-- A pass over the plan of a condition, if the rules leave a predicate operator. -/
theorem ready_of_predicate {e₁ : Expression} (hrules : (applyRules oper).1 =
      .mk type [] [.mk .predicate [e₁] [src]]) (hsrc : Source src)
    (hrows : src.rows contents = .ok tuples) (hsettled : Settled tuples (rewriteExpression e₁).1)
    (hfirst : ∀ table predicates, src = .mk (.tableGet table predicates) [] [] →
      predicates = [] ∨ (getExprsCanPushdown (rewriteExpression e₁).1).2 = []) :
    Ready contents type (rewriter oper).1
      (tuples.filter fun t => (rewriteExpression e₁).1.truth t) := by
  obtain ⟨e', src', tuples', hpass, hsrc', hrows', hsettled', hnothing, hfilter⟩ :=
    rewriter_predicate hsrc hrows hsettled hfirst
  rw [rewriter_eq (Prod.ext hrules rfl), ← hfilter]
  simp only [List.map_cons, List.map_nil, hpass]
  exact .filtered hsrc' hrows' hsettled' hnothing

/-- A pass over the plan of a condition, if the rules leave none. -/
theorem ready_of_source (hrules : (applyRules oper).1 = .mk type [] [src]) (hsrc : Source src)
    (hrows : src.rows contents = .ok tuples) : Ready contents type (rewriter oper).1 tuples := by
  rw [rewriter_eq (Prod.ext hrules rfl)]
  simp only [List.map_cons, List.map_nil, hsrc.rewriter_eq]
  exact .plain hsrc hrows

theorem ready_of_nil (hrules : (applyRules oper).1 = .mk type [] []) :
    Ready contents type (rewriter oper).1 [] := by
  rw [rewriter_eq (Prod.ext hrules rfl)]
  exact .empty

theorem applyRules_plain (htype : IsRoot type) (hsrc : Source src) :
    (applyRules (.mk type [] [src])).1 = .mk type [] [src] := by
  have hchild : (expressionRewriter (.mk type [] [src])).1 = .mk type [] [src] := by
    simp [expressionRewriter, expressionRewriterAll, hsrc.expressionRewriter_eq]
  simp only [applyRules, hchild]
  cases htype <;> cases hsrc <;> rfl

/-- A pass keeps the rows. -/
theorem Ready.rewriter (h : Ready contents type oper rows) (htype : IsRoot type) :
    Ready contents type (rewriter oper).1 rows := by
  cases h with
  | empty =>
    apply ready_of_nil
    cases htype <;> rfl
  | plain hsrc hrows => exact ready_of_source (applyRules_plain htype hsrc) hsrc hrows
  | @filtered src tuples e hsrc hrows hsettled hnothing =>
    have hrules := applyRules_root (e := e) htype hsrc
    obtain ⟨hsettled₁, htruth₁⟩ := hsettled.rewriteExpression
    obtain ⟨hsettled₂, htruth₂⟩ := hsettled₁.rewriteExpression
    have hleft : ∀ table predicates, src = .mk (.tableGet table predicates) [] [] →
        predicates = [] ∨ (getExprsCanPushdown
          (rewriteExpression (rewriteExpression e).1).1).2 = [] := fun table predicates heq =>
      Or.inr (hsettled₁.nothing_left (hsettled.nothing_left (hnothing table predicates heq)))
    have hfilter : (tuples.filter fun t => e.truth t) =
        tuples.filter fun t => (rewriteExpression (rewriteExpression e).1).1.truth t :=
      List.filter_congr fun tuple ht => by rw [htruth₂ tuple ht, htruth₁ tuple ht]
    rw [hfilter]
    generalize (rewriteExpression e).1 = e₁ at hrules hsettled₁ hsettled₂ htruth₂ hleft ⊢
    cases hsettled₁ with
    | constant value =>
      have hconst : (tuples.filter fun t =>
          (rewriteExpression (.value (.booleans value))).1.truth t) =
            if value then tuples else [] := by
        rw [List.filter_congr htruth₂]
        cases value <;> simp [TupleCell.getBoolean]
      rw [hconst]
      cases value with
      | true => exact ready_of_source hrules hsrc hrows
      | false => exact ready_of_nil hrules
    | single => exact ready_of_predicate hrules hsrc hrows hsettled₂ hleft
    | all => exact ready_of_predicate hrules hsrc hrows hsettled₂ hleft

/-- All passes keep the rows. By induction on the size of the plan, which every pass but the last
one makes smaller. -/
theorem Ready.rows_rewrite (h : Ready contents type oper rows) (htype : IsRoot type) :
    (rewrite oper).rows contents = .ok (shown type rows) := by
  induction oper using rewrite.induct with
  | case1 oper hchange ih =>
    rw [rewrite, dif_pos hchange]
    exact ih (h.rewriter htype)
  | case2 oper hchange =>
    rw [rewrite, dif_neg hchange]
    exact (h.rewriter htype).rows_eq htype

end plans

/-! ## Statements -/

section statements

variable {contents : Contents} {type : OperatorType} {tuples : List Tuple}
  {units : List FilterUnit} {src : LogicalOperator}

/-- The first pass over the plan of a statement. -/
theorem ready_first (htype : IsRoot type) (hsrc : Source src)
    (hrows : src.rows contents = .ok tuples)
    (hfirst : ∀ table predicates, src = .mk (.tableGet table predicates) [] [] → predicates = [])
    (heval : ∀ u ∈ units, ∀ tuple ∈ tuples, u.toExpression.Evaluable tuple) :
    Ready contents type
      (rewriter (.mk type [] [createPredicateLogicalPlan units src])).1
      (tuples.filter fun t => (effective units).all fun u => u.holds t) := by
  have hrules := applyRules_root (e := .conjunction .and (units.map FilterUnit.toExpression))
    htype hsrc
  match units, heval with
  | [], _ =>
    rw [createPredicateLogicalPlan, if_pos rfl]
    have hall : (tuples.filter fun t => (effective []).all fun u => u.holds t) = tuples := by
      simp [effective]
    rw [hall]
    exact ready_of_source (applyRules_plain htype hsrc) hsrc hrows
  | [unit], heval =>
    -- the comparison takes the place of the conjunction, and is looked at one operator below
    rw [createPredicateLogicalPlan, if_neg (by simp)]
    rw [rewriteExpression_of_changed (by rw [simplify_units]), simplify_units] at hrules
    obtain ⟨hsettled, htruth⟩ := settled_simplified (heval unit List.mem_cons_self)
    have heffective : effective [unit] = [unit] := by
      unfold effective
      split_ifs with hfalse
      · simp only [List.any_cons, List.any_nil, Bool.or_false, decide_eq_true_eq] at hfalse
        simp [hfalse]
      · rfl
    have hlist : (tuples.filter fun t => (effective [unit]).all fun u => u.holds t) =
        tuples.filter fun t => (rewriteExpression unit.toExpression).1.truth t := by
      refine List.filter_congr fun tuple _ => ?_
      rw [heffective, List.all_cons, List.all_nil, Bool.and_true, unit.rewriteExpression_eq,
        htruth]
    rw [hlist]
    refine ready_of_predicate hrules hsrc hrows ?_
      fun table predicates heq => Or.inl (hfirst table predicates heq)
    rw [unit.rewriteExpression_eq]
    exact hsettled
  | unit :: unit' :: units, heval =>
    rw [createPredicateLogicalPlan, if_neg (by simp)]
    rw [rewriteExpression_units] at hrules
    obtain ⟨hsettled, htruth⟩ := settled_of_simplified heval
    rw [← List.filter_congr htruth]
    exact ready_of_predicate hrules hsrc hrows hsettled
      fun table predicates heq => Or.inl (hfirst table predicates heq)

/-- All passes over the plan of a statement. -/
theorem rows_rewrite_plan (htype : IsRoot type) (hsrc : Source src)
    (hrows : src.rows contents = .ok tuples)
    (hfirst : ∀ table predicates, src = .mk (.tableGet table predicates) [] [] → predicates = [])
    (heval : ∀ u ∈ units, ∀ tuple ∈ tuples, u.toExpression.Evaluable tuple) :
    (rewrite (.mk type [] [createPredicateLogicalPlan units src])).rows contents =
      .ok (shown type (tuples.filter fun t => (effective units).all fun u => u.holds t)) := by
  have hready := ready_first htype hsrc hrows hfirst heval
  rw [rewrite]
  split_ifs
  · exact hready.rows_rewrite htype
  · exact hready.rows_eq htype

/-- The plan itself. -/
theorem rows_plan (htype : IsRoot type) (hrows : src.rows contents = .ok tuples)
    (heval : ∀ u ∈ units, ∀ tuple ∈ tuples, u.toExpression.Evaluable tuple) :
    (LogicalOperator.mk type [] [createPredicateLogicalPlan units src]).rows contents =
      .ok (shown type (tuples.filter fun t => units.all fun u => u.holds t)) := by
  unfold createPredicateLogicalPlan
  split_ifs with hnil
  · rw [rows_root htype hrows, hnil]
    simp
  · have hevals : ∀ tuple ∈ tuples,
        (Expression.conjunction .and (units.map FilterUnit.toExpression)).Evaluable tuple :=
      fun tuple ht =>
        Expression.evaluable_and (evaluable_units fun u hu => heval u hu tuple ht)
    rw [rows_root htype (rows_predicate hrows hevals)]
    refine congrArg (fun l => Except.ok (shown type l)) (List.filter_congr fun tuple ht => ?_)
    exact truth_units fun u hu => heval u hu tuple ht

/-- The tables of a statement. -/
def Stmt.tables : Stmt → List TableSchema
  | select stmt => stmt.tables
  | delete stmt => [stmt.table]

/-- The comparisons of a statement. -/
def Stmt.filterStmt : Stmt → List FilterUnit
  | select stmt => stmt.filterStmt
  | delete stmt => stmt.filterStmt

/-- The operator on top of the plan of a statement. -/
def Stmt.rootType : Stmt → OperatorType
  | select stmt => .projection stmt.queryFields
  | delete _ => .delete

theorem Stmt.isRoot (stmt : Stmt) : IsRoot stmt.rootType := by
  cases stmt with
  | select stmt => exact .projection _
  | delete stmt => exact .delete

theorem Stmt.known (stmt : Stmt) : ∀ unit ∈ stmt.filterStmt, unit.Known stmt.tables := by
  cases stmt with
  | select stmt => exact stmt.known
  | delete stmt => exact stmt.known

/-- The operator of the tables of a statement. -/
theorem source_tables (table : TableSchema) (tables : List TableSchema) :
    Source (tables.foldl joinOper (tableGetOper table)) ∧
      ∀ t predicates, tables.foldl joinOper (tableGetOper table) =
        .mk (.tableGet t predicates) [] [] → predicates = [] := by
  have hloop : ∀ (tables : List TableSchema) (oper : LogicalOperator), Source oper →
      (∀ t predicates, oper = .mk (.tableGet t predicates) [] [] → predicates = []) →
      Source (tables.foldl joinOper oper) ∧ ∀ t predicates, tables.foldl joinOper oper =
        .mk (.tableGet t predicates) [] [] → predicates = [] := by
    intro tables
    induction tables with
    | nil => exact fun _ hsrc hfirst => ⟨hsrc, hfirst⟩
    | cons table tables ih =>
      exact fun oper hsrc _ => ih _ (.join hsrc table) fun _ _ heq => by cases heq
  refine hloop tables _ (.tableGet table []) fun t predicates heq => ?_
  cases heq
  rfl

/-- The plan of a statement, with the operator of its tables. -/
theorem createLogicalPlan_eq (contents : Contents) (stmt : Stmt) : ∃ src,
    createLogicalPlan stmt =
      .mk stmt.rootType [] [createPredicateLogicalPlan stmt.filterStmt src] ∧
    Source src ∧ src.rows contents = .ok (joinedTuples contents stmt.tables) ∧
    ∀ table predicates, src = .mk (.tableGet table predicates) [] [] → predicates = [] := by
  cases stmt with
  | select stmt =>
    obtain ⟨tables, queryFields, filterStmt, hne, known⟩ := stmt
    cases tables with
    | nil => exact absurd rfl hne
    | cons table tables =>
      obtain ⟨hsrc, hfirst⟩ := source_tables table tables
      refine ⟨_, ?_, hsrc, rows_tableOper table tables, hfirst⟩
      rw [createLogicalPlan, createSelectLogicalPlan, tableOper_cons, Option.map_some,
        Option.toList_some]
      rfl
  | delete stmt =>
    obtain ⟨hsrc, hfirst⟩ := source_tables stmt.table []
    exact ⟨_, rfl, hsrc, rows_tableOper stmt.table [], hfirst⟩

/-- The rows of the plan of a statement satisfy all comparisons. -/
theorem rows_stmt (contents : Contents) (stmt : Stmt) :
    (createLogicalPlan stmt).rows contents = .ok (shown stmt.rootType
      ((joinedTuples contents stmt.tables).filter fun t =>
        stmt.filterStmt.all fun u => u.holds t)) := by
  obtain ⟨src, heq, -, hrows, -⟩ := createLogicalPlan_eq contents stmt
  rw [heq]
  exact rows_plan stmt.isRoot hrows fun u hu tuple ht => (stmt.known u hu).evaluable ht

/-- The rows of the rewritten plan of a statement. -/
theorem rows_rewrite (contents : Contents) (stmt : Stmt) :
    (rewrite (createLogicalPlan stmt)).rows contents = .ok (shown stmt.rootType
      ((joinedTuples contents stmt.tables).filter fun t =>
        (effective stmt.filterStmt).all fun u => u.holds t)) := by
  obtain ⟨src, heq, hsrc, hrows, hfirst⟩ := createLogicalPlan_eq contents stmt
  rw [heq]
  exact rows_rewrite_plan stmt.isRoot hsrc hrows hfirst
    fun u hu tuple ht => (stmt.known u hu).evaluable ht

end statements

/-- A comparison of two constants is false, and this comparison, which has a column, takes the place
of the condition: all before it are comparisons of constants that are true. -/
def TakesPlace (units : List FilterUnit) (front : FilterUnit) : Prop :=
  (units.find? fun u => u.constant ≠ some true) = some front ∧ front.constant = none ∧
    ∃ u ∈ units, u.constant = some false

theorem shown_eq_nil {type : OperatorType} {tuples : List Tuple} :
    shown type tuples = [] ↔ tuples = [] := by
  cases type <;> simp [shown]

/-- **Rewriting keeps the rows of a plan** if and only if no row satisfies the comparison that takes
the place of a false condition. -/
theorem rewrite_preserves_iff (contents : Contents) (stmt : Stmt) :
    (rewrite (createLogicalPlan stmt)).rows contents = (createLogicalPlan stmt).rows contents ↔
      ∀ front, TakesPlace stmt.filterStmt front →
        ∀ tuple ∈ joinedTuples contents stmt.tables, front.holds tuple = false := by
  rw [rows_rewrite, rows_stmt]
  generalize stmt.filterStmt = units
  by_cases hfalse : ∃ u ∈ units, u.constant = some false
  · -- the plan has no rows
    obtain ⟨u, hu, hconst⟩ := hfalse
    have hnone : ((joinedTuples contents stmt.tables).filter fun t =>
        units.all fun u => u.holds t) = [] := by
      refine List.filter_eq_nil_iff.mpr fun tuple _ hall => ?_
      have hholds := List.all_eq_true.mp hall u hu
      rw [FilterUnit.holds_of_constant hconst] at hholds
      cases hholds
    have hnil : ∀ u ∈ ([] : List FilterUnit), u.constant = none := by simp
    obtain ⟨front, hfind, -⟩ := simplifyChildren_of_false hnil ⟨u, hu, hconst⟩
    rw [List.nil_append] at hfind
    have heffective : effective units = [front] := by
      rw [effective, if_pos (by simpa using ⟨u, hu, hconst⟩), hfind, Option.toList_some]
    rw [hnone, heffective, Except.ok.injEq, shown_eq_nil.mpr rfl, shown_eq_nil,
      List.filter_eq_nil_iff]
    simp only [List.all_cons, List.all_nil, Bool.and_true, Bool.not_eq_true]
    constructor
    · rintro hrows front' ⟨hfind', -, -⟩
      rw [hfind] at hfind'
      cases hfind'
      exact hrows
    · intro hplace tuple ht
      cases hfront : front.constant with
      | none => exact hplace front ⟨hfind, hfront, u, hu, hconst⟩ tuple ht
      | some value =>
        have hne := List.find?_some hfind
        rw [hfront] at hne
        rw [FilterUnit.holds_of_constant hfront]
        simpa using hne
  · have heffective : effective units = units := by
      rw [effective, if_neg (by simpa using hfalse)]
    rw [heffective]
    exact iff_of_true rfl fun front hplace => absurd hplace.2.2 hfalse

/-- `DELETE FROM t WHERE 1 = 2 AND id = 1`. The parser has the conditions from the last one to the
first. -/
def deleteWhereFalse : Stmt := .delete
  { table := ⟨"t", ["id"]⟩
    filterStmt :=
      [⟨.equalTo, .attr ⟨"t", "id"⟩, .value (.ints 1)⟩,
        ⟨.equalTo, .value (.ints 1), .value (.ints 2)⟩]
    known := by
      intro unit hunit field hfield
      simp only [List.mem_cons, List.not_mem_nil, or_false] at hunit
      rcases hunit with rfl | rfl
      · simp only [FilterObj.attr.injEq, reduceCtorEq, or_false] at hfield
        exact ⟨_, List.mem_cons_self, by rw [← hfield]; decide⟩
      · simp at hfield }

/-- A table with one record, in which every column is 1. -/
def oneRecord : Contents := fun _ => [⟨⟨1, 0⟩, fun _ => .ints 1⟩]

/-- The statement deletes nothing, and its rewritten plan deletes the record. -/
theorem rewrite_deletes_record :
    (rewrite (createLogicalPlan deleteWhereFalse)).rows oneRecord ≠
      (createLogicalPlan deleteWhereFalse).rows oneRecord ∧
    (createLogicalPlan deleteWhereFalse).rows oneRecord = .ok [] := by
  have hbefore : (createLogicalPlan deleteWhereFalse).rows oneRecord = .ok [] := by
    rw [rows_stmt]
    rfl
  have hafter : (rewrite (createLogicalPlan deleteWhereFalse)).rows oneRecord =
      .ok [.row ⟨"t", ["id"]⟩ ⟨⟨1, 0⟩, fun _ => .ints 1⟩] := by
    rw [rows_rewrite]
    rfl
  rw [hbefore, hafter]
  exact ⟨by simp, rfl⟩

end Miniob.Sql
