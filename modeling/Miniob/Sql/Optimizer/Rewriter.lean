import Miniob.Sql.Operator.LogicalOperator

/-!
# The rewriter of logical plans

`OptimizeStage::rewrite` applies the rules to a plan again and again, until a pass changes nothing.

* `rewriteExpression`: the two rules for expressions.
* `predicateRewrite`, `predicatePushdown`: the two rules for operators.
* `rewriter`: one pass.
* `rewrite`: all passes. There is a last one, because each change makes the plan smaller
  (`rewriter_weight`).

No rule fails.
-/

namespace Miniob.Sql


/-! ## Sizes -/

mutual

/-- The number of nodes of an expression. -/
def Expression.size : Expression → ℕ
  | .field _ => 1
  | .value _ => 1
  | .cast _ child => child.size + 1
  | .comparison _ left right => left.size + right.size + 1
  | .conjunction _ children => sizeOfAll children + 1

/-- The number of nodes of some expressions. -/
def sizeOfAll : List Expression → ℕ
  | [] => 0
  | e :: es => e.size + sizeOfAll es

end

mutual

/-- The number of operators of a plan and of the nodes of their expressions. The conditions of a
scan do not count. -/
def LogicalOperator.weight : LogicalOperator → ℕ
  | .mk _ expressions children => sizeOfAll expressions + weightOfAll children + 1

/-- The number of nodes of some plans. -/
def weightOfAll : List LogicalOperator → ℕ
  | [] => 0
  | child :: children => child.weight + weightOfAll children

end

theorem Expression.size_pos (e : Expression) : 0 < e.size := by
  cases e <;> simp [size]

theorem size_le_of_mem {e : Expression} {es : List Expression} (h : e ∈ es) :
    e.size ≤ sizeOfAll es := by
  induction es with
  | nil => cases h
  | cons e' es ih =>
    rw [sizeOfAll]
    rcases List.mem_cons.mp h with rfl | h
    · exact Nat.le_add_right _ _
    · exact (ih h).trans (Nat.le_add_left _ _)

theorem sizeOfAll_append (es es' : List Expression) :
    sizeOfAll (es ++ es') = sizeOfAll es + sizeOfAll es' := by
  induction es with
  | nil => simp [sizeOfAll]
  | cons e es ih => rw [List.cons_append, sizeOfAll, sizeOfAll, ih, Nat.add_assoc]

theorem weight_le_of_mem {oper : LogicalOperator} {opers : List LogicalOperator}
    (h : oper ∈ opers) : oper.weight ≤ weightOfAll opers := by
  induction opers with
  | nil => cases h
  | cons oper' opers ih =>
    rw [weightOfAll]
    rcases List.mem_cons.mp h with rfl | h
    · exact Nat.le_add_right _ _
    · exact (ih h).trans (Nat.le_add_left _ _)

/-- A result is no larger than `n`, and smaller if a change was made. -/
def Shrinks (n m : ℕ) (changeMade : Bool) : Prop := m ≤ n ∧ (changeMade = true → m < n)

theorem Shrinks.refl (n : ℕ) : Shrinks n n false := ⟨le_rfl, fun h => by cases h⟩

theorem Shrinks.trans {n m k : ℕ} {b c : Bool} (h : Shrinks n m b) (h' : Shrinks m k c) :
    Shrinks n k (b || c) := by
  obtain ⟨hle, hlt⟩ := h
  obtain ⟨hle', hlt'⟩ := h'
  refine ⟨hle'.trans hle, fun hor => ?_⟩
  rcases (Bool.or_eq_true _ _).mp hor with hb | hc
  · exact hle'.trans_lt (hlt hb)
  · exact (hlt' hc).trans_le hle

theorem Shrinks.succ {n m : ℕ} {b : Bool} (h : Shrinks n m b) : Shrinks (n + 1) (m + 1) b :=
  ⟨Nat.succ_le_succ h.1, fun hb => Nat.succ_lt_succ (h.2 hb)⟩

/-- The parts of two numbers shrink one by one. -/
theorem Shrinks.add {n m n' m' : ℕ} {b c : Bool} (h : Shrinks n m b) (h' : Shrinks n' m' c) :
    Shrinks (n + n') (m + m') (b || c) := by
  obtain ⟨hle, hlt⟩ := h
  obtain ⟨hle', hlt'⟩ := h'
  refine ⟨Nat.add_le_add hle hle', fun hor => ?_⟩
  rcases (Bool.or_eq_true _ _).mp hor with hb | hc
  · exact Nat.add_lt_add_of_lt_of_le (hlt hb) hle'
  · exact Nat.add_lt_add_of_le_of_lt hle (hlt' hc)

/-! ## Expressions -/

/-- Source: `comparison_simplification_rule.cpp`, `ComparisonSimplificationRule::rewrite` -/
def comparisonSimplification : Expression → Expression × Bool
  | .comparison comp left right =>
    match Expression.tryGetValue comp left right with
    | some cell => (.value cell, true)
    | none => (.comparison comp left right, false)
  | e => (e, false)

/-- Source: `conjunction_simplification_rule.cpp`, `try_to_get_bool_constant` -/
def tryToGetBoolConstant : Expression → Option Bool
  | .value (.booleans constantValue) => some constantValue
  | _ => none

/-- The loop over the children of a conjunction, `kept` being those in front of the iterator. A
child that changes nothing is erased. At one that decides the conjunction the loop ends, and what
takes the place of the conjunction is its first child. -/
def simplifyChildren (type : ConjunctionType) (kept : List Expression) :
    List Expression → Except Expression (List Expression)
  | [] => .ok kept
  | child :: children =>
    match tryToGetBoolConstant child with
    | none => simplifyChildren type (kept ++ [child]) children
    | some constantValue =>
      if constantValue = decide (type = .and) then simplifyChildren type kept children
      else .error ((kept ++ child :: children).headD child)

/-- Source: `conjunction_simplification_rule.cpp`, `ConjunctionSimplificationRule::rewrite` -/
def conjunctionSimplification : Expression → Expression × Bool
  | .conjunction type children =>
    match simplifyChildren type [] children with
    | .error front => (front, false)
    | .ok [child] => (child, true)
    | .ok children => (.conjunction type children, false)
  | e => (e, false)

/-- The rules for expressions, one after the other. -/
def simplify (e : Expression) : Expression × Bool :=
  let r₁ := comparisonSimplification e
  let r₂ := conjunctionSimplification r₁.1
  (r₂.1, r₁.2 || r₂.2)

theorem comparisonSimplification_size (e : Expression) :
    Shrinks e.size (comparisonSimplification e).1.size (comparisonSimplification e).2 := by
  unfold comparisonSimplification
  split
  · rename_i comp left right
    split
    · have hleft := left.size_pos
      have hright := right.size_pos
      simp only [Expression.size]
      exact ⟨by omega, fun _ => by omega⟩
    · exact Shrinks.refl _
  · exact Shrinks.refl _

/-- The loop keeps some of the children. By induction on the rest of them. -/
theorem simplifyChildren_size (type : ConjunctionType) (children : List Expression) :
    ∀ kept, match simplifyChildren type kept children with
      | .error front => front.size ≤ sizeOfAll kept + sizeOfAll children
      | .ok rest => sizeOfAll rest ≤ sizeOfAll kept + sizeOfAll children := by
  induction children with
  | nil => exact fun kept => Nat.le_add_right _ _
  | cons child children ih =>
    intro kept
    rw [simplifyChildren]
    cases tryToGetBoolConstant child with
    | none =>
      have hkept := ih (kept ++ [child])
      rw [sizeOfAll_append] at hkept
      simpa only [sizeOfAll, Nat.add_zero, Nat.add_assoc] using hkept
    | some constantValue =>
      dsimp only
      split_ifs with herase
      · have hrest := ih kept
        revert hrest
        cases simplifyChildren type kept children <;>
          exact fun hrest => hrest.trans (Nat.add_le_add_left (Nat.le_add_left _ _) _)
      · rw [← sizeOfAll_append]
        refine size_le_of_mem ?_
        cases kept with
        | nil => exact List.mem_cons_self
        | cons front kept => exact List.mem_cons_self

theorem conjunctionSimplification_size (e : Expression) :
    Shrinks e.size (conjunctionSimplification e).1.size (conjunctionSimplification e).2 := by
  cases e with
  | conjunction type children =>
    have hsize := simplifyChildren_size type children []
    rw [conjunctionSimplification]
    revert hsize
    cases simplifyChildren type [] children with
    | error front =>
      intro hfront
      simp only [sizeOfAll, Nat.zero_add] at hfront
      exact ⟨hfront.trans (Nat.le_succ _), fun h => by cases h⟩
    | ok rest =>
      intro hrest
      simp only [sizeOfAll, Nat.zero_add] at hrest
      match rest, hrest with
      | [], hrest => exact ⟨Nat.succ_le_succ hrest, fun h => by cases h⟩
      | [child], hrest =>
        simp only [sizeOfAll, Nat.add_zero] at hrest
        exact ⟨hrest.trans (Nat.le_succ _), fun _ => Nat.lt_succ_of_le hrest⟩
      | child :: child' :: rest, hrest => exact ⟨Nat.succ_le_succ hrest, fun h => by cases h⟩
  | field => exact Shrinks.refl _
  | value => exact Shrinks.refl _
  | cast => exact Shrinks.refl _
  | comparison => exact Shrinks.refl _

theorem simplify_size (e : Expression) : Shrinks e.size (simplify e).1.size (simplify e).2 :=
  (comparisonSimplification_size e).trans (conjunctionSimplification_size _)

/-- The parts of an expression are rewritten unless a rule has changed it.
Source: `expression_rewriter.cpp`, `ExpressionRewriter::rewrite_expression` -/
def rewriteExpression (e : Expression) : Expression × Bool :=
  if (simplify e).2 then simplify e
  else
    match _h : (simplify e).1 with
    | .cast castType child =>
      let rewritten := rewriteExpression child
      (.cast castType rewritten.1, rewritten.2)
    | .comparison comp left right =>
      let rewrittenLeft := rewriteExpression left
      let rewrittenRight := rewriteExpression right
      (.comparison comp rewrittenLeft.1 rewrittenRight.1, rewrittenLeft.2 || rewrittenRight.2)
    | .conjunction type children =>
      let rewritten := children.attach.map fun child => rewriteExpression child.val
      (.conjunction type (rewritten.map Prod.fst), rewritten.any Prod.snd)
    | e' => (e', false)
termination_by e.size
decreasing_by
  · have hsize := (simplify_size e).1
    rw [_h, Expression.size] at hsize
    omega
  · have hsize := (simplify_size e).1
    rw [_h, Expression.size] at hsize
    omega
  · have hsize := (simplify_size e).1
    rw [_h, Expression.size] at hsize
    omega
  · have hsize := (simplify_size e).1
    rw [_h, Expression.size] at hsize
    have hchild := size_le_of_mem child.property
    omega

/-- A list shrinks if its members do. By induction on the list. -/
theorem Shrinks.map {α : Type} {size : α → ℕ} {sizeAll : List α → ℕ} {f : α → α × Bool}
    (hcons : ∀ a as, sizeAll (a :: as) = size a + sizeAll as) {as : List α}
    (h : ∀ a ∈ as, Shrinks (size a) (size (f a).1) (f a).2) :
    Shrinks (sizeAll as) (sizeAll ((as.map f).map Prod.fst)) ((as.map f).any Prod.snd) := by
  induction as with
  | nil => exact ⟨le_rfl, fun h => by cases h⟩
  | cons a as ih =>
    simp only [List.map_cons, List.any_cons, hcons]
    exact (h a List.mem_cons_self).add (ih fun a' ha' => h a' (List.mem_cons_of_mem _ ha'))

/-- What an expression becomes is decided by what the rules make of it. -/
theorem rewriteExpression_congr {e e' : Expression} (h : simplify e = simplify e') :
    rewriteExpression e = rewriteExpression e' := by
  rw [rewriteExpression.eq_1 e, rewriteExpression.eq_1 e', h]

theorem rewriteExpression_of_changed {e : Expression} (h : (simplify e).2 = true) :
    rewriteExpression e = simplify e := by
  rw [rewriteExpression, if_pos h]

/-- The expression with its parts rewritten. -/
def rewriteParts : Expression → Expression × Bool
  | .cast castType child =>
    (.cast castType (rewriteExpression child).1, (rewriteExpression child).2)
  | .comparison comp left right =>
    (.comparison comp (rewriteExpression left).1 (rewriteExpression right).1,
      (rewriteExpression left).2 || (rewriteExpression right).2)
  | .conjunction type children =>
    (.conjunction type ((children.map rewriteExpression).map Prod.fst),
      (children.map rewriteExpression).any Prod.snd)
  | e => (e, false)

/-- The parts are rewritten when no rule has changed the expression. -/
theorem rewriteExpression_of_unchanged {e e' : Expression} (h : simplify e = (e', false)) :
    rewriteExpression e = rewriteParts e' := by
  rw [rewriteExpression, if_neg (by simp [h])]
  split
  · rename_i heq
    rw [h] at heq
    cases heq
    rfl
  · rename_i heq
    rw [h] at heq
    cases heq
    rfl
  · rename_i heq
    rw [h] at heq
    cases heq
    simp only [List.attach_map_val]
    rfl
  · rename_i hcast hcomparison hconjunction
    rw [h] at hcast hcomparison hconjunction ⊢
    rw [rewriteParts]
    · exact hcast
    · exact hcomparison
    · exact hconjunction

theorem rewriteExpression_comparison {e left right : Expression} {comp : CompOp}
    (h : simplify e = (.comparison comp left right, false)) :
    rewriteExpression e = (.comparison comp (rewriteExpression left).1 (rewriteExpression right).1,
      (rewriteExpression left).2 || (rewriteExpression right).2) :=
  rewriteExpression_of_unchanged h

theorem rewriteExpression_conjunction {e : Expression} {type : ConjunctionType}
    {children : List Expression} (h : simplify e = (.conjunction type children, false)) :
    rewriteExpression e = (.conjunction type ((children.map rewriteExpression).map Prod.fst),
      (children.map rewriteExpression).any Prod.snd) :=
  rewriteExpression_of_unchanged h

theorem rewriteExpression_size (e : Expression) :
    Shrinks e.size (rewriteExpression e).1.size (rewriteExpression e).2 := by
  have hsize := simplify_size e
  induction e using rewriteExpression.induct with
  | case1 e hchange =>
    rw [rewriteExpression_of_changed hchange]
    exact hsize
  | case2 e hchange castType child heq ih =>
    rw [Bool.not_eq_true] at hchange
    rw [rewriteExpression_of_unchanged (Prod.ext heq hchange)]
    rw [heq, hchange] at hsize
    exact hsize.trans (ih (simplify_size child)).succ
  | case3 e hchange comp left right heq ihl ihr =>
    rw [Bool.not_eq_true] at hchange
    rw [rewriteExpression_comparison (Prod.ext heq hchange)]
    rw [heq, hchange] at hsize
    exact hsize.trans ((ihl (simplify_size left)).add (ihr (simplify_size right))).succ
  | case4 e hchange type children heq ih =>
    rw [Bool.not_eq_true] at hchange
    rw [rewriteExpression_conjunction (Prod.ext heq hchange)]
    rw [heq, hchange] at hsize
    exact hsize.trans
      (Shrinks.map (fun _ _ => rfl) fun c hc => ih ⟨c, hc⟩ (simplify_size c)).succ
  | case5 e hchange hcast hcomparison hconjunction =>
    rw [Bool.not_eq_true] at hchange
    have hself : rewriteExpression e = ((simplify e).1, false) := by
      rw [rewriteExpression_of_unchanged (Prod.ext rfl hchange), rewriteParts]
      · exact hcast
      · exact hcomparison
      · exact hconjunction
    rw [hself]
    rw [hchange] at hsize
    exact hsize

/-! ## Operators -/

mutual

/-- The expressions of all operators are rewritten.
Source: `expression_rewriter.cpp`, `ExpressionRewriter::rewrite` -/
def expressionRewriter : LogicalOperator → LogicalOperator × Bool
  | .mk type expressions children =>
    let rewritten := expressions.map rewriteExpression
    let rewrittenChildren := expressionRewriterAll children
    (.mk type (rewritten.map Prod.fst) (rewrittenChildren.map Prod.fst),
      rewritten.any Prod.snd || rewrittenChildren.any Prod.snd)

/-- The loop over the children of an operator. -/
def expressionRewriterAll : List LogicalOperator → List (LogicalOperator × Bool)
  | [] => []
  | child :: children => expressionRewriter child :: expressionRewriterAll children

end

/-- A predicate operator below whose condition is a constant is taken out, and with it all that is
below if the constant is false.
Source: `predicate_rewrite.cpp`, `PredicateRewriteRule::rewrite` -/
def predicateRewrite : LogicalOperator → LogicalOperator × Bool
  | .mk type expressions [.mk .predicate [.value cell] grandChildren] =>
    if cell.getBoolean then (.mk type expressions grandChildren, true)
    else (.mk type expressions [], true)
  | oper => (oper, false)

/-- The value of a column. -/
def Expression.isField : Expression → Bool
  | field _ => true
  | _ => false

/-- A constant. -/
def Expression.isValue : Expression → Bool
  | value _ => true
  | _ => false

/-- The comparison is handed to the scan: it is an equality, one side of it is a column, and one
side is a column or a constant. -/
def canPushdown (comp : CompOp) (left right : Expression) : Bool :=
  comp = .equalTo && (left.isField || right.isField) &&
    (left.isField || left.isValue || right.isField || right.isValue)

mutual

/-- What stays of an expression, and the conditions that are handed to the scan.
Source: `predicate_pushdown_rewriter.cpp`, `PredicatePushdownRewriter::get_exprs_can_pushdown` -/
def getExprsCanPushdown : Expression → Option Expression × List Expression
  | .conjunction .and children =>
    let r := getChildrenCanPushdown children
    (some (.conjunction .and r.1), r.2)
  | .comparison comp left right =>
    if canPushdown comp left right then (none, [.comparison comp left right])
    else (some (.comparison comp left right), [])
  | e => (some e, [])

/-- The loop over the children of a conjunction. -/
def getChildrenCanPushdown : List Expression → List Expression × List Expression
  | [] => ([], [])
  | child :: children =>
    let r := getExprsCanPushdown child
    let rs := getChildrenCanPushdown children
    (r.1.toList ++ rs.1, r.2 ++ rs.2)

end

/-- Conditions on a table are handed to its scan, in place of those that the scan had. What is
handed over as a whole leaves a constant behind.
Source: `predicate_pushdown_rewriter.cpp`, `PredicatePushdownRewriter::rewrite` -/
def predicatePushdown : LogicalOperator → LogicalOperator × Bool
  | .mk .predicate [e] [.mk (.tableGet table predicates) expressions children] =>
    let r := getExprsCanPushdown e
    let predicateExpr := r.1.getD (.value (.booleans true))
    if r.2 = [] then
      (.mk .predicate [predicateExpr] [.mk (.tableGet table predicates) expressions children],
        false)
    else (.mk .predicate [predicateExpr] [.mk (.tableGet table r.2) expressions children], true)
  | oper => (oper, false)

/-- The three rules, one after the other. -/
def applyRules (oper : LogicalOperator) : LogicalOperator × Bool :=
  let r₁ := expressionRewriter oper
  let r₂ := predicateRewrite r₁.1
  let r₃ := predicatePushdown r₂.1
  (r₃.1, r₁.2 || (r₂.2 || r₃.2))

mutual

theorem expressionRewriter_weight : ∀ oper : LogicalOperator,
    Shrinks oper.weight (expressionRewriter oper).1.weight (expressionRewriter oper).2
  | .mk _ expressions children => by
    have hexpressions : Shrinks (sizeOfAll expressions)
        (sizeOfAll ((expressions.map rewriteExpression).map Prod.fst))
        ((expressions.map rewriteExpression).any Prod.snd) :=
      Shrinks.map (fun _ _ => rfl) fun e _ => rewriteExpression_size e
    exact (hexpressions.add (expressionRewriterAll_weight children)).succ

theorem expressionRewriterAll_weight : ∀ opers : List LogicalOperator,
    Shrinks (weightOfAll opers) (weightOfAll ((expressionRewriterAll opers).map Prod.fst))
      ((expressionRewriterAll opers).any Prod.snd)
  | [] => Shrinks.refl 0
  | oper :: opers =>
    (expressionRewriter_weight oper).add (expressionRewriterAll_weight opers)

end

theorem predicateRewrite_weight (oper : LogicalOperator) :
    Shrinks oper.weight (predicateRewrite oper).1.weight (predicateRewrite oper).2 := by
  unfold predicateRewrite
  split
  · simp only [LogicalOperator.weight, weightOfAll]
    split
    · exact ⟨by simp only [LogicalOperator.weight]; omega, fun _ => by
        simp only [LogicalOperator.weight]; omega⟩
    · exact ⟨by simp only [LogicalOperator.weight, weightOfAll]; omega, fun _ => by
        simp only [LogicalOperator.weight, weightOfAll]; omega⟩
  · exact Shrinks.refl _

mutual

/-- Nothing of an expression gets lost. -/
theorem getExprsCanPushdown_size : ∀ e : Expression,
    sizeOfAll (getExprsCanPushdown e).1.toList + sizeOfAll (getExprsCanPushdown e).2 = e.size
  | .conjunction .and children => by
    have hchildren := getChildrenCanPushdown_size children
    simp only [getExprsCanPushdown, Option.toList_some, sizeOfAll, Expression.size]
    omega
  | .comparison comp left right => by
    rw [getExprsCanPushdown]
    split <;> simp [sizeOfAll]
  | .conjunction .or children => by simp [getExprsCanPushdown, sizeOfAll]
  | .field _ => rfl
  | .value _ => rfl
  | .cast _ _ => by simp [getExprsCanPushdown, sizeOfAll]

theorem getChildrenCanPushdown_size : ∀ es : List Expression,
    sizeOfAll (getChildrenCanPushdown es).1 + sizeOfAll (getChildrenCanPushdown es).2 =
      sizeOfAll es
  | [] => rfl
  | e :: es => by
    have hhead := getExprsCanPushdown_size e
    have htail := getChildrenCanPushdown_size es
    simp only [getChildrenCanPushdown, sizeOfAll_append, sizeOfAll]
    omega

end

/-- Only a comparison is handed over as a whole. -/
theorem getExprsCanPushdown_eq_none {e : Expression} (h : (getExprsCanPushdown e).1 = none) :
    ∃ comp left right, e = .comparison comp left right ∧ (getExprsCanPushdown e).2 = [e] := by
  cases e with
  | comparison comp left right =>
    refine ⟨comp, left, right, rfl, ?_⟩
    rw [getExprsCanPushdown] at h ⊢
    split_ifs at h ⊢
    rfl
  | field => cases h
  | value => cases h
  | cast => cases h
  | conjunction type children => cases type <;> cases h

theorem predicatePushdown_weight (oper : LogicalOperator) :
    Shrinks oper.weight (predicatePushdown oper).1.weight (predicatePushdown oper).2 := by
  unfold predicatePushdown
  split
  · rename_i e table predicates expressions children
    have hsize := getExprsCanPushdown_size e
    -- a change hands something over, and what stays is smaller
    have hshrink : Shrinks e.size
        ((getExprsCanPushdown e).1.getD (.value (.booleans true))).size
        (decide ((getExprsCanPushdown e).2 ≠ [])) := by
      cases hrest : (getExprsCanPushdown e).1 with
      | none =>
        obtain ⟨comp, left, right, rfl, hpushed⟩ := getExprsCanPushdown_eq_none hrest
        have hleft := left.size_pos
        have hright := right.size_pos
        simp only [Option.getD_none, Expression.size]
        exact ⟨by omega, fun _ => by omega⟩
      | some rest =>
        rw [hrest, Option.toList_some, sizeOfAll, sizeOfAll, Nat.add_zero] at hsize
        rw [Option.getD_some]
        refine ⟨by omega, fun hne => ?_⟩
        obtain ⟨pushed, hpushed⟩ := List.exists_mem_of_ne_nil _ (of_decide_eq_true hne)
        have hle := size_le_of_mem hpushed
        have hpos := pushed.size_pos
        omega
    obtain ⟨hle, hlt⟩ := hshrink
    dsimp only
    split_ifs with hnil
    · simp only [Shrinks, LogicalOperator.weight, sizeOfAll, weightOfAll]
      exact ⟨by omega, fun h => by cases h⟩
    · have hlt := hlt (decide_eq_true hnil)
      simp only [Shrinks, LogicalOperator.weight, sizeOfAll, weightOfAll]
      exact ⟨by omega, fun _ => by omega⟩
  · exact Shrinks.refl _

theorem applyRules_weight (oper : LogicalOperator) :
    Shrinks oper.weight (applyRules oper).1.weight (applyRules oper).2 :=
  (expressionRewriter_weight oper).trans
    ((predicateRewrite_weight _).trans (predicatePushdown_weight _))

/-! ## Passes -/

/-- The rules are applied to an operator and then to what are its children by then.
Source: `rewriter.cpp`, `Rewriter::rewrite` -/
def rewriter (oper : LogicalOperator) : LogicalOperator × Bool :=
  match _h : (applyRules oper).1 with
  | .mk type expressions children =>
    let rewritten := children.attach.map fun child => rewriter child.val
    (.mk type expressions (rewritten.map Prod.fst), (applyRules oper).2 || rewritten.any Prod.snd)
termination_by oper.weight
decreasing_by
  have hweight := (applyRules_weight oper).1
  rw [_h, LogicalOperator.weight] at hweight
  have hchild := weight_le_of_mem child.property
  omega

theorem rewriter_eq {oper : LogicalOperator} {type : OperatorType} {expressions : List Expression}
    {children : List LogicalOperator} {changeMade : Bool}
    (h : applyRules oper = (.mk type expressions children, changeMade)) :
    rewriter oper = (.mk type expressions ((children.map rewriter).map Prod.fst),
      changeMade || (children.map rewriter).any Prod.snd) := by
  rw [rewriter]
  split
  rename_i heq
  rw [h] at heq
  cases heq
  rw [h]
  simp only [List.attach_map_val]

/-- A pass that changes a plan makes it smaller. -/
theorem rewriter_weight (oper : LogicalOperator) :
    Shrinks oper.weight (rewriter oper).1.weight (rewriter oper).2 := by
  induction oper using rewriter.induct with
  | case1 oper type expressions children heq ih =>
    have hrules := applyRules_weight oper
    rw [rewriter_eq (Prod.ext heq rfl)]
    rw [heq] at hrules
    have hchildren : Shrinks (weightOfAll children)
        (weightOfAll ((children.map rewriter).map Prod.fst))
        ((children.map rewriter).any Prod.snd) :=
      Shrinks.map (fun _ _ => rfl) fun c hc => ih ⟨c, hc⟩
    have hexpressions := Shrinks.refl (sizeOfAll expressions)
    exact hrules.trans (hexpressions.add hchildren).succ

/-- Passes until one changes nothing. Source: `optimize_stage.cpp`, `OptimizeStage::rewrite` -/
def rewrite (oper : LogicalOperator) : LogicalOperator :=
  if _h : (rewriter oper).2 then rewrite (rewriter oper).1 else (rewriter oper).1
termination_by oper.weight
decreasing_by exact (rewriter_weight oper).2 _h

/-- The plan after some passes. -/
def passes (n : ℕ) (oper : LogicalOperator) : LogicalOperator :=
  (fun oper => (rewriter oper).1)^[n] oper

/-- There is a first pass that changes nothing, within as many passes as the plan has nodes. By
induction on the passes. -/
theorem exists_last_pass (oper : LogicalOperator) :
    ∃ n < oper.weight, (∀ k < n, (rewriter (passes k oper)).2 = true) ∧
      (rewriter (passes n oper)).2 = false ∧ rewrite oper = passes (n + 1) oper := by
  induction oper using rewrite.induct with
  | case1 oper hchange ih =>
    obtain ⟨n, hn, hchanges, hlast, heq⟩ := ih
    have hlt := (rewriter_weight oper).2 hchange
    refine ⟨n + 1, by omega, fun k hk => ?_, hlast, ?_⟩
    · cases k with
      | zero => exact hchange
      | succ k => exact hchanges k (Nat.lt_of_succ_lt_succ hk)
    · rw [rewrite, dif_pos hchange, heq]
      rfl
  | case2 oper hchange =>
    have hpos : 0 < oper.weight := by
      cases oper
      rw [LogicalOperator.weight]
      exact Nat.succ_pos _
    refine ⟨0, hpos, by simp, Bool.not_eq_true _ ▸ hchange, ?_⟩
    rw [rewrite, dif_neg hchange]
    rfl

/-- **The loop of `OptimizeStage::rewrite` ends**: a pass that reports a change makes the weight of
the plan smaller, and one that does not make it smaller reports none. -/
theorem plan_rewriting_ends (oper : LogicalOperator) :
    (∃ n < oper.weight, (∀ k < n, (rewriter (passes k oper)).2 = true) ∧
      (rewriter (passes n oper)).2 = false ∧ rewrite oper = passes (n + 1) oper) ∧
    ((rewriter oper).2 = true → (rewriter oper).1.weight < oper.weight) ∧
      (¬ (rewriter oper).1.weight < oper.weight → (rewriter oper).2 = false) := by
  refine ⟨exists_last_pass oper, (rewriter_weight oper).2, fun hnot => ?_⟩
  rw [← Bool.not_eq_true]
  exact mt (rewriter_weight oper).2 hnot

end Miniob.Sql
