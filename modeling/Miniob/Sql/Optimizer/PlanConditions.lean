import Miniob.Sql.Optimizer.RewritePlan

/-!
# The comparisons of a rewritten plan

The rules move the comparisons of a statement to other operators, take some of them out and put
constants in their places. They make no comparisons of their own.

* `BuiltFrom`: a condition is made of some comparisons and of constants.
* `PlanFrom`: so are all conditions of a plan, and its scans read some tables.
* `PlanFrom.rewrite`: then so are those of the rewritten plan.
* `planFrom_rewrite_plan`: the conditions of the plan of a statement are made of the comparisons of
  the statement, before and after it is rewritten.
* `bareScans_rewrite_plan`: in the plan of a join no condition is handed to a scan.
-/

namespace Miniob.Sql


/-! ## Conditions -/

/-- The condition is made of these comparisons and of constants. -/
inductive BuiltFrom (P : FilterUnit → Prop) : Expression → Prop
  | constant (cell : TupleCell) : BuiltFrom P (.value cell)
  | comparison {comp : CompOp} {left right : FilterObj} (h : P ⟨comp, left, right⟩) :
      BuiltFrom P (.comparison comp left.toExpression right.toExpression)
  | conjunction (type : ConjunctionType) {children : List Expression}
      (h : ∀ c ∈ children, BuiltFrom P c) : BuiltFrom P (.conjunction type children)

section conditions

variable {P : FilterUnit → Prop} {e : Expression} {children : List Expression}

/-- A conjunction is simplified by leaving children out, or one child takes its place. -/
theorem simplifyChildren_mem {type : ConjunctionType} (children : List Expression) :
    ∀ kept : List Expression, match simplifyChildren type kept children with
      | .error front => front ∈ kept ++ children
      | .ok rest => ∀ c ∈ rest, c ∈ kept ++ children := by
  induction children with
  | nil =>
    intro kept c hc
    exact List.mem_append_left _ hc
  | cons child children ih =>
    intro kept
    rw [simplifyChildren]
    cases tryToGetBoolConstant child with
    | none =>
      have hstep := ih (kept ++ [child])
      rw [List.append_assoc, List.singleton_append] at hstep
      exact hstep
    | some constantValue =>
      dsimp only
      by_cases hconstant : constantValue = decide (type = .and)
      · rw [if_pos hconstant]
        have hstep := ih kept
        have hsub : ∀ c ∈ kept ++ children, c ∈ kept ++ child :: children := by
          intro c hc
          simp only [List.mem_append, List.mem_cons] at hc ⊢
          exact hc.imp_right Or.inr
        cases hrest : simplifyChildren type kept children with
        | error front =>
          rw [hrest] at hstep
          exact hsub _ hstep
        | ok rest =>
          rw [hrest] at hstep
          exact fun c hc => hsub c (hstep c hc)
      · rw [if_neg hconstant]
        cases kept with
        | nil => exact List.mem_cons_self
        | cons first kept => exact List.mem_cons_self

/-- The rules for expressions make no comparison. -/
theorem BuiltFrom.simplify (h : BuiltFrom P e) : BuiltFrom P (simplify e).1 := by
  cases h with
  | constant cell => exact .constant cell
  | @comparison comp left right h =>
    rw [show Expression.comparison comp left.toExpression right.toExpression =
      (FilterUnit.mk comp left right).toExpression from rfl, FilterUnit.simplify_eq]
    show BuiltFrom P (FilterUnit.mk comp left right).simplified
    unfold FilterUnit.simplified
    split
    · exact .constant _
    · exact .comparison h
  | @conjunction type children h =>
    have hmem := @simplifyChildren_mem type children []
    rw [List.nil_append] at hmem
    show BuiltFrom P (conjunctionSimplification (.conjunction type children)).1
    rw [conjunctionSimplification]
    cases hrest : simplifyChildren type [] children with
    | error front =>
      rw [hrest] at hmem
      exact h front hmem
    | ok rest =>
      rw [hrest] at hmem
      have hall : ∀ c ∈ rest, BuiltFrom P c := fun c hc => h c (hmem c hc)
      rcases rest with _ | ⟨c, _ | ⟨c', rest⟩⟩
      · exact .conjunction type hall
      · exact hall c List.mem_cons_self
      · exact .conjunction type hall

/-- The rules for expressions, on the parts of a condition too. By induction as the rewriter goes
down. -/
theorem BuiltFrom.rewriteExpression (h : BuiltFrom P e) :
    BuiltFrom P (Sql.rewriteExpression e).1 := by
  induction e using Sql.rewriteExpression.induct with
  | case1 e hchange =>
    rw [rewriteExpression_of_changed hchange]
    exact h.simplify
  | case2 e hchange castType child heq ih =>
    have hcast := h.simplify
    rw [heq] at hcast
    cases hcast
  | case3 e hchange comp left right heq ihl ihr =>
    rw [Bool.not_eq_true] at hchange
    have hcomparison := h.simplify
    rw [heq] at hcomparison
    rw [rewriteExpression_comparison (Prod.ext heq hchange)]
    cases hcomparison with
    | comparison h =>
      rw [rewriteExpression_toExpression, rewriteExpression_toExpression]
      exact .comparison h
  | case4 e hchange type children heq ih =>
    rw [Bool.not_eq_true] at hchange
    have hconjunction := h.simplify
    rw [heq] at hconjunction
    rw [rewriteExpression_conjunction (Prod.ext heq hchange)]
    cases hconjunction with
    | conjunction _ hchildren =>
      refine .conjunction type fun c hc => ?_
      rw [List.map_map] at hc
      obtain ⟨child, hchild, rfl⟩ := List.mem_map.mp hc
      exact ih ⟨child, hchild⟩ (hchildren child hchild)
  | case5 e hchange hcast hcomparison hconjunction =>
    rw [Bool.not_eq_true] at hchange
    rw [rewriteExpression_of_unchanged (Prod.ext rfl hchange), rewriteParts]
    · exact h.simplify
    · exact hcast
    · exact hcomparison
    · exact hconjunction

/-- What is kept of a condition, and what is handed to a scan. By induction on the condition. -/
theorem BuiltFrom.pushdown (h : BuiltFrom P e) :
    (∀ c ∈ (getExprsCanPushdown e).1, BuiltFrom P c) ∧
      ∀ c ∈ (getExprsCanPushdown e).2, BuiltFrom P c := by
  induction h with
  | constant cell =>
    refine ⟨?_, by simp [getExprsCanPushdown]⟩
    rintro c hc
    cases hc
    exact .constant cell
  | comparison h =>
    rw [getExprsCanPushdown]
    split_ifs
    · simpa using BuiltFrom.comparison h
    · simpa using BuiltFrom.comparison h
  | @conjunction type children h ih =>
    have hchildren : ∀ {children : List Expression},
        (∀ c ∈ children, (∀ c' ∈ (getExprsCanPushdown c).1, BuiltFrom P c') ∧
          ∀ c' ∈ (getExprsCanPushdown c).2, BuiltFrom P c') →
        (∀ c ∈ (getChildrenCanPushdown children).1, BuiltFrom P c) ∧
          ∀ c ∈ (getChildrenCanPushdown children).2, BuiltFrom P c := by
      intro children
      induction children with
      | nil => exact fun _ => by simp [getChildrenCanPushdown]
      | cons child children ihc =>
        intro hall
        obtain ⟨hkept, hpushed⟩ := hall child List.mem_cons_self
        obtain ⟨hkepts, hpusheds⟩ := ihc fun c hc => hall c (List.mem_cons_of_mem _ hc)
        rw [getChildrenCanPushdown]
        refine ⟨fun c hc => ?_, fun c hc => ?_⟩
        · rcases List.mem_append.mp hc with hc | hc
          · exact hkept c (Option.mem_toList.mp hc)
          · exact hkepts c hc
        · exact (List.mem_append.mp hc).elim (hpushed c) (hpusheds c)
    cases type with
    | and =>
      obtain ⟨hkept, hpushed⟩ := hchildren ih
      rw [getExprsCanPushdown]
      refine ⟨?_, hpushed⟩
      rintro c hc
      cases hc
      exact .conjunction .and hkept
    | or =>
      refine ⟨?_, by simp [getExprsCanPushdown]⟩
      rintro c hc
      cases hc
      exact .conjunction .or h

end conditions

/-! ## Plans -/

/-- The scans of the plan read these tables, and the conditions of all operators are made of these
comparisons. -/
inductive PlanFrom (P : FilterUnit → Prop) (T : TableSchema → Prop) : LogicalOperator → Prop
  | mk {type : OperatorType} {expressions : List Expression} {children : List LogicalOperator}
      (hscan : ∀ table predicates, type = .tableGet table predicates →
        T table ∧ ∀ e ∈ predicates, BuiltFrom P e)
      (hexpressions : ∀ e ∈ expressions, BuiltFrom P e)
      (hchildren : ∀ c ∈ children, PlanFrom P T c) : PlanFrom P T (.mk type expressions children)

section plans

variable {P : FilterUnit → Prop} {T : TableSchema → Prop} {oper : LogicalOperator}

theorem expressionRewriterAll_eq (opers : List LogicalOperator) :
    expressionRewriterAll opers = opers.map expressionRewriter := by
  induction opers with
  | nil => rfl
  | cons oper opers ih => rw [expressionRewriterAll, List.map_cons, ih]

theorem PlanFrom.expressionRewriter (h : PlanFrom P T oper) :
    PlanFrom P T (Sql.expressionRewriter oper).1 := by
  induction h with
  | @mk type expressions children hscan hexpressions _ ih =>
    rw [Sql.expressionRewriter, expressionRewriterAll_eq, List.map_map, List.map_map]
    refine .mk hscan (fun e he => ?_) fun c hc => ?_
    · obtain ⟨e', he', rfl⟩ := List.mem_map.mp he
      exact (hexpressions e' he').rewriteExpression
    · obtain ⟨c', hc', rfl⟩ := List.mem_map.mp hc
      exact ih c' hc'

theorem PlanFrom.predicateRewrite (h : PlanFrom P T oper) :
    PlanFrom P T (Sql.predicateRewrite oper).1 := by
  unfold Sql.predicateRewrite
  split
  · cases h with
    | mk hscan hexpressions hchildren =>
      split_ifs
      · cases hchildren _ List.mem_cons_self with
        | mk _ _ hgrand => exact .mk hscan hexpressions hgrand
      · exact .mk hscan hexpressions (by simp)
  · exact h

theorem PlanFrom.predicatePushdown (h : PlanFrom P T oper) :
    PlanFrom P T (Sql.predicatePushdown oper).1 := by
  unfold Sql.predicatePushdown
  split
  · rename_i e table predicates expressions children
    cases h with
    | mk _ hexpressions hchildren =>
      obtain ⟨hkept, hpushed⟩ := (hexpressions e List.mem_cons_self).pushdown
      have hleft : ∀ c ∈ [(getExprsCanPushdown e).1.getD (.value (.booleans true))],
          BuiltFrom P c := by
        intro c hc
        rw [List.mem_singleton.mp hc]
        cases hrest : (getExprsCanPushdown e).1 with
        | none => exact .constant _
        | some rest => exact hkept rest hrest
      cases hchildren _ List.mem_cons_self with
      | mk hscan hbelow hgrand =>
        dsimp only
        obtain ⟨htable, hpredicates⟩ := hscan table predicates rfl
        split_ifs
        · refine .mk (by simp) hleft fun c hc => ?_
          rw [List.mem_singleton.mp hc]
          exact .mk hscan hbelow hgrand
        · refine .mk (by simp) hleft fun c hc => ?_
          rw [List.mem_singleton.mp hc]
          refine .mk ?_ hbelow hgrand
          rintro table' predicates' heq
          cases heq
          exact ⟨htable, hpushed⟩
  · exact h

/-- **One pass** makes no comparisons. By induction on the plan, from the top. -/
theorem PlanFrom.rewriter (h : PlanFrom P T oper) : PlanFrom P T (Sql.rewriter oper).1 := by
  induction oper using Sql.rewriter.induct with
  | case1 oper type expressions children heq ih =>
    have hrules : PlanFrom P T (applyRules oper).1 :=
      h.expressionRewriter.predicateRewrite.predicatePushdown
    rw [rewriter_eq (Prod.ext heq rfl), List.map_map]
    rw [heq] at hrules
    cases hrules with
    | mk hscan hexpressions hchildren =>
      refine .mk hscan hexpressions fun c hc => ?_
      obtain ⟨child, hchild, rfl⟩ := List.mem_map.mp hc
      exact ih ⟨child, hchild⟩ (hchildren child hchild)

/-- **All passes** make no comparisons. By induction on the passes. -/
theorem PlanFrom.rewrite (h : PlanFrom P T oper) : PlanFrom P T (Sql.rewrite oper) := by
  induction oper using Sql.rewrite.induct with
  | case1 oper hchange ih =>
    rw [Sql.rewrite, dif_pos hchange]
    exact ih h.rewriter
  | case2 oper hchange =>
    rw [Sql.rewrite, dif_neg hchange]
    exact h.rewriter

/-- An operator that reads tables without conditions. -/
theorem planFrom_tables (table : TableSchema) (tables : List TableSchema)
    (htables : ∀ t ∈ table :: tables, T t) :
    PlanFrom P T (tables.foldl joinOper (tableGetOper table)) := by
  have hget : ∀ table, T table → PlanFrom P T (tableGetOper table) := by
    intro table htable
    refine .mk ?_ (by simp) (by simp)
    rintro table' predicates heq
    cases heq
    exact ⟨htable, by simp⟩
  have hloop : ∀ (tables : List TableSchema) (oper : LogicalOperator), (∀ t ∈ tables, T t) →
      PlanFrom P T oper → PlanFrom P T (tables.foldl joinOper oper) := by
    intro tables
    induction tables with
    | nil => exact fun _ _ h => h
    | cons table tables ih =>
      intro oper hall h
      refine ih _ (fun t ht => hall t (List.mem_cons_of_mem _ ht))
        (.mk (by simp) (by simp) fun c hc => ?_)
      rcases List.mem_pair.mp hc with rfl | rfl
      · exact h
      · exact hget table (hall table List.mem_cons_self)
  exact hloop tables _ (fun t ht => htables t (List.mem_cons_of_mem _ ht))
    (hget table (htables table List.mem_cons_self))

/-- The plan of a statement is made of its comparisons. -/
theorem planFrom_stmt (stmt : Stmt) :
    PlanFrom (fun unit => unit ∈ stmt.filterStmt) (fun table => table ∈ stmt.tables)
      (createLogicalPlan stmt) := by
  have hcondition : ∀ {T : TableSchema → Prop} {src : LogicalOperator} {units : List FilterUnit},
      PlanFrom (fun unit => unit ∈ units) T src →
      PlanFrom (fun unit => unit ∈ units) T (createPredicateLogicalPlan units src) := by
    intro T src units hsrc
    unfold createPredicateLogicalPlan
    split_ifs
    · exact hsrc
    · refine .mk (by simp) (fun e he => ?_) fun c hc => ?_
      · rw [List.mem_singleton.mp he]
        refine .conjunction .and fun c hc => ?_
        obtain ⟨unit, hunit, rfl⟩ := List.mem_map.mp hc
        exact .comparison hunit
      · rw [List.mem_singleton.mp hc]
        exact hsrc
  cases stmt with
  | select stmt =>
    obtain ⟨tables, queryFields, filterStmt, hne, known⟩ := stmt
    cases tables with
    | nil => exact absurd rfl hne
    | cons table tables =>
      rw [createLogicalPlan, createSelectLogicalPlan, tableOper_cons, Option.map_some,
        Option.toList_some]
      refine .mk (by simp) (by simp) fun c hc => ?_
      rw [List.mem_singleton.mp hc]
      exact hcondition (planFrom_tables table tables fun _ ht => ht)
  | delete stmt =>
    refine .mk (by simp) (by simp) fun c hc => ?_
    rw [List.mem_singleton.mp hc]
    exact hcondition (planFrom_tables stmt.table [] fun _ ht => ht)

/-- **The comparisons of the rewritten plan** are those of the statement. -/
theorem planFrom_rewrite_plan (stmt : Stmt) :
    PlanFrom (fun unit => unit ∈ stmt.filterStmt) (fun table => table ∈ stmt.tables)
      (rewrite (createLogicalPlan stmt)) :=
  (planFrom_stmt stmt).rewrite

end plans

/-! ## Joins -/

/-- The type of an operator. -/
def LogicalOperator.type : LogicalOperator → OperatorType
  | .mk type _ _ => type

/-- No scan has conditions, and below a predicate operator are joins. -/
inductive BareScans : LogicalOperator → Prop
  | mk {type : OperatorType} {expressions : List Expression} {children : List LogicalOperator}
      (hscan : ∀ table predicates, type = .tableGet table predicates → predicates = [])
      (hpredicate : type = .predicate → ∀ c ∈ children, c.type = .join)
      (hchildren : ∀ c ∈ children, BareScans c) : BareScans (.mk type expressions children)

section joins

variable {oper : LogicalOperator}

theorem type_expressionRewriter (oper : LogicalOperator) :
    (expressionRewriter oper).1.type = oper.type := by
  cases oper
  rfl

theorem BareScans.expressionRewriter (h : BareScans oper) :
    BareScans (Sql.expressionRewriter oper).1 := by
  induction h with
  | @mk type expressions children hscan hpredicate _ ih =>
    rw [Sql.expressionRewriter, expressionRewriterAll_eq, List.map_map, List.map_map]
    refine .mk hscan (fun htype c hc => ?_) fun c hc => ?_
    · obtain ⟨c', hc', rfl⟩ := List.mem_map.mp hc
      exact (type_expressionRewriter c').trans (hpredicate htype c' hc')
    · obtain ⟨c', hc', rfl⟩ := List.mem_map.mp hc
      exact ih c' hc'

theorem BareScans.predicateRewrite (h : BareScans oper) :
    BareScans (Sql.predicateRewrite oper).1 := by
  unfold Sql.predicateRewrite
  split
  · cases h with
    | mk hscan hpredicate hchildren =>
      split_ifs
      · cases hchildren _ List.mem_cons_self with
        | mk _ _ hgrand =>
          refine .mk hscan (fun htype => ?_) hgrand
          cases hpredicate htype _ List.mem_cons_self
      · exact .mk hscan (by simp) (by simp)
  · exact h

theorem BareScans.predicatePushdown_eq (h : BareScans oper) :
    Sql.predicatePushdown oper = (oper, false) := by
  unfold Sql.predicatePushdown
  split
  · cases h with
    | mk _ hpredicate _ => cases hpredicate rfl _ List.mem_cons_self
  · rfl

/-- The third rule has nothing to do. -/
theorem BareScans.applyRules_eq (h : BareScans oper) :
    (applyRules oper).1 = (Sql.predicateRewrite (Sql.expressionRewriter oper).1).1 := by
  show (Sql.predicatePushdown (Sql.predicateRewrite (Sql.expressionRewriter oper).1).1).1 = _
  rw [h.expressionRewriter.predicateRewrite.predicatePushdown_eq]

/-- The rules keep the type of a join. -/
theorem BareScans.type_applyRules (h : BareScans oper) (htype : oper.type = .join) :
    (applyRules oper).1.type = .join := by
  rw [h.applyRules_eq]
  rw [← type_expressionRewriter] at htype
  unfold Sql.predicateRewrite
  split
  · rename_i heq
    rw [heq] at htype
    split_ifs <;> exact htype
  · exact htype

theorem BareScans.type_rewriter (h : BareScans oper) (htype : oper.type = .join) :
    (Sql.rewriter oper).1.type = .join := by
  have hrules := h.type_applyRules htype
  cases heq : (applyRules oper).1 with
  | mk type expressions children =>
    rw [rewriter_eq (Prod.ext heq rfl)]
    rw [heq] at hrules
    exact hrules

theorem BareScans.rewriter (h : BareScans oper) : BareScans (Sql.rewriter oper).1 := by
  induction oper using Sql.rewriter.induct with
  | case1 oper type expressions children heq ih =>
    have hrules : BareScans (applyRules oper).1 := by
      rw [h.applyRules_eq]
      exact h.expressionRewriter.predicateRewrite
    rw [rewriter_eq (Prod.ext heq rfl), List.map_map]
    rw [heq] at hrules
    cases hrules with
    | mk hscan hpredicate hchildren =>
      refine .mk hscan (fun htype c hc => ?_) fun c hc => ?_
      · obtain ⟨child, hchild, rfl⟩ := List.mem_map.mp hc
        exact (hchildren child hchild).type_rewriter (hpredicate htype child hchild)
      · obtain ⟨child, hchild, rfl⟩ := List.mem_map.mp hc
        exact ih ⟨child, hchild⟩ (hchildren child hchild)

/-- All passes leave the scans of a join as they are. By induction on the passes. -/
theorem BareScans.rewrite (h : BareScans oper) : BareScans (Sql.rewrite oper) := by
  induction oper using Sql.rewrite.induct with
  | case1 oper hchange ih =>
    rw [Sql.rewrite, dif_pos hchange]
    exact ih h.rewriter
  | case2 oper hchange =>
    rw [Sql.rewrite, dif_neg hchange]
    exact h.rewriter

/-- **No condition of a join is handed to a scan.** -/
theorem bareScans_rewrite_plan (stmt : SelectStmt) (hjoin : ∀ table, stmt.tables ≠ [table]) :
    BareScans (Sql.rewrite (createLogicalPlan (.select stmt))) := by
  refine BareScans.rewrite ?_
  have hget : ∀ table, BareScans (tableGetOper table) := by
    intro table
    refine .mk ?_ (by simp) (by simp)
    rintro table' predicates heq
    cases heq
    rfl
  have hloop : ∀ (tables : List TableSchema) (oper : LogicalOperator), BareScans oper →
      oper.type = .join → BareScans (tables.foldl joinOper oper) ∧
        (tables.foldl joinOper oper).type = .join := by
    intro tables
    induction tables with
    | nil => exact fun _ h htype => ⟨h, htype⟩
    | cons table tables ih =>
      intro oper h _
      refine ih _ (.mk (by simp) (by simp) fun c hc => ?_) rfl
      rcases List.mem_pair.mp hc with rfl | rfl
      · exact h
      · exact hget table
  obtain ⟨tables, queryFields, filterStmt, hne, known⟩ := stmt
  rcases tables with _ | ⟨table, _ | ⟨table', tables⟩⟩
  · exact absurd rfl hne
  · exact absurd rfl (hjoin table)
  · have hfirst : BareScans (joinOper (tableGetOper table) table') := by
      refine .mk (by simp) (by simp) fun c hc => ?_
      rcases List.mem_pair.mp hc with rfl | rfl
      · exact hget table
      · exact hget table'
    obtain ⟨hsrc, htype⟩ := hloop tables _ hfirst rfl
    rw [createLogicalPlan, createSelectLogicalPlan, tableOper_cons, Option.map_some,
      Option.toList_some, List.foldl_cons]
    refine .mk (by simp) (by simp) fun c hc => ?_
    rw [List.mem_singleton.mp hc]
    unfold createPredicateLogicalPlan
    split_ifs
    · exact hsrc
    · refine .mk (by simp) (fun _ c hc => ?_) fun c hc => ?_
      · rw [List.mem_singleton.mp hc]
        exact htype
      · rw [List.mem_singleton.mp hc]
        exact hsrc

end joins

end Miniob.Sql
